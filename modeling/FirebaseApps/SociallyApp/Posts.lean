import FirebaseApps.SociallyApp.Uploads
import Mathlib.Data.Set.Function

/-!
# SociallyApp: concurrent uploads never mix

Any number of `addData` calls run at once over one Storage and one collection.  The
UUID a call draws names its image and, through the resize extension, its thumbnail;
the id the backend draws names its document.  Both have one owner, nothing is ever
deleted, and so whatever a call found or wrote is its own and stays
(`neverMixed_reachable`).
-/

namespace FirebaseApps.SociallyApp

variable {S : StorageService} {fb : Firebase} {uuids : List UUID} {w w' : World} {action : Action}
variable {i j : ℕ} {op : Op} {d : String}

/-! ## Storage -/

/-- The thumbnail of an object. -/
def thumbnail (S : StorageService) (o : Object) : Object := ⟨S.resize o.data, o.contentType⟩

/-- A step leaves Storage alone, serves an upload, or makes a thumbnail. -/
theorem objects_step (hk : Known S uuids w) (hs : step S w action = some w') :
    w'.env.firebase.objects = w.env.firebase.objects ∨
    (∃ i op op', w.ops i = some op ∧ op.history = [] ∧ w'.ops i = some op' ∧
      op'.call = op.call ∧ op'.history ≠ [] ∧ w'.env.firebase.objects =
        Function.update w.env.firebase.objects op.call.fileUUID.uuidString (some op.call.object)) ∨
    ∃ name o, w.env.firebase.objects name = some o ∧ w'.env.firebase.objects =
      Function.update w.env.firebase.objects (thumbPath name) (some (thumbnail S o)) := by
  rcases firebase_step hs with heq |
    ⟨i, choice, op, op', r, callback, a, hi, ht, hfb, hop', hcall, hhistory⟩ |
    ⟨device, user, heq⟩ | ⟨name, hm⟩
  · exact .inl (by rw [heq])
  · rcases (hk.code.waiting hi ht).kinds with
      ⟨rfl, hnil⟩ | ⟨name, rfl⟩ | ⟨fields, rfl⟩ | ⟨uid, url, rfl⟩
    · generalize hfb' : w'.env.firebase = firebase at hfb ⊢
      cases Firebase.settled_of_serve hfb with
      | putData =>
          refine .inr (.inl ⟨i, op, op', hi, hnil, hop', hcall, ?_, rfl⟩)
          rw [hhistory]
          exact List.append_ne_nil_of_right_ne_nil _ (List.cons_ne_nil _ _)
      | failed => exact .inl rfl
    all_goals
      exact .inl (Firebase.objects_eq_serve hfb (fun _ _ _ h => by cases h) fun _ h => by cases h)
  · exact .inl (by rw [heq]; rfl)
  · obtain ⟨o, ho, heq⟩ := Option.map_eq_some_iff.mp hm
    exact .inr (.inr ⟨name, o, ho, by rw [← heq]; rfl⟩)

/-- Objects are never removed. -/
theorem object_step (hk : Known S uuids w) (hs : step S w action = some w')
    {name : String} (h : (w.env.firebase.objects name).isSome) :
    (w'.env.firebase.objects name).isSome := by
  rcases objects_step hk hs with heq | ⟨i, op, op', -, -, -, -, -, heq⟩ | ⟨name', o, -, heq⟩
  · rwa [heq]
  all_goals
    rw [heq, Function.update_apply]
    split
    · rfl
    · exact h

/-- What Storage holds for the operations of a run that starts when `uuids` are drawn. -/
structure StorageInv (S : StorageService) (uuids : List UUID) (w : World) : Prop where
  /-- Every image whose upload has succeeded is there. -/
  stored : ∀ i op, w.ops i = some op → ok (upload op.call) none ∈ op.history →
    w.env.firebase.objects op.call.fileUUID.uuidString = some op.call.object
  /-- An object under another UUID belongs to a call. -/
  owned : ∀ u o, u ∉ uuids → w.env.firebase.objects u.uuidString = some o →
    ∃ i op, w.ops i = some op ∧ op.call.fileUUID = u ∧ op.history ≠ []
  /-- Its thumbnail is made from it. -/
  thumbs : ∀ u o, u ∉ uuids → w.env.firebase.objects (thumbPath u.uuidString) = some o →
    ∃ original, w.env.firebase.objects u.uuidString = some original ∧ o = thumbnail S original
  /-- An object whose URL was found is there. -/
  found : ∀ i op name, w.ops i = some op → found S name ∈ op.history →
    (w.env.firebase.objects name).isSome

/-- A UUID that was not drawn names no object and no thumbnail. -/
def Unused (fb : Firebase) (uuids : List UUID) : Prop :=
  ∀ u ∉ uuids, fb.objects u.uuidString = none ∧ fb.objects (thumbPath u.uuidString) = none

theorem storageInv_initial (hunused : Unused fb uuids) :
    StorageInv S uuids (initial fb uuids) where
  stored i op h := by cases h
  owned u o hu h := by simp [initial, Lib.World.initial, (hunused u hu).1] at h
  thumbs u o hu h := by simp [initial, Lib.World.initial, (hunused u hu).2] at h
  found i op name h := by cases h

section storage
variable (h : StorageInv S uuids w) (hk : Known S uuids w) (hs : step S w action = some w')
include h hk hs

/-- Uploaded images stay. -/
theorem StorageInv.stored_step {op' : Op} (hop' : w'.ops i = some op')
    (hup : ok (upload op'.call) none ∈ op'.history) :
    w'.env.firebase.objects op'.call.fileUUID.uuidString = some op'.call.object := by
  obtain ⟨op, hop, hfol, hup | ⟨j, -, hr⟩⟩ := Lib.World.event_of_step hs hop' hup
  · rw [hfol.call] at hup ⊢
    have hstored := h.stored i op hop hup
    rcases objects_step hk hs with heq | ⟨k, op₂, _, hop₂, hnil, -, -, -, heq⟩ |
      ⟨name, o, -, heq⟩
    · rwa [heq]
    · have hne : op.call.fileUUID.uuidString ≠ op₂.call.fileUUID.uuidString := by
        intro hname
        -- the upload of this UUID is already over
        obtain rfl : i = k := hk.own.inj i k op op₂ _ hop hop₂ rfl
          (congrArg some (UUID.ext_uuidString hname).symm)
        obtain rfl : op = op₂ := Option.some.inj (hop.symm.trans hop₂)
        simp [hnil] at hup
      rw [heq, Function.update_of_ne hne, hstored]
    · rw [heq, Function.update_of_ne (thumbPath_ne_uuidString _ _).symm, hstored]
  · obtain ⟨firebase, hfb, henv⟩ := serve_eq_some hr
    cases Firebase.settled_of_serve hfb
    rw [henv]
    simp

/-- Objects under UUIDs keep their owner. -/
theorem StorageInv.owned_step {u : UUID} {o : Object} (hu : u ∉ uuids)
    (ho : w'.env.firebase.objects u.uuidString = some o) :
    ∃ i op, w'.ops i = some op ∧ op.call.fileUUID = u ∧ op.history ≠ [] := by
  have hold : w.env.firebase.objects u.uuidString = some o →
      ∃ i op, w'.ops i = some op ∧ op.call.fileUUID = u ∧ op.history ≠ [] := by
    intro ho
    obtain ⟨i, op, hop, hcall, hne⟩ := h.owned u o hu ho
    obtain ⟨op', hop', hfol⟩ := Lib.World.step_op hs hop
    refine ⟨i, op', hop', by rw [hfol.call, hcall], ?_⟩
    rcases hfol.history with heq | ⟨_, _, _, _, _, -, -, -, heq⟩
    · rwa [heq]
    · rw [heq]
      exact List.append_ne_nil_of_left_ne_nil hne _
  rcases objects_step hk hs with heq | ⟨k, op, op', hop, -, hop', hcall, hne, heq⟩ |
    ⟨name, o', -, heq⟩
  · exact hold (heq ▸ ho)
  · by_cases hown : u = op.call.fileUUID
    · exact ⟨k, op', hop', by rw [hcall, hown], hne⟩
    · have hname : u.uuidString ≠ op.call.fileUUID.uuidString :=
        fun h => hown (UUID.ext_uuidString h)
      rw [heq, Function.update_of_ne hname] at ho
      exact hold ho
  · rw [heq, Function.update_of_ne (thumbPath_ne_uuidString _ _).symm] at ho
    exact hold ho

/-- Thumbnails keep their originals. -/
theorem StorageInv.thumbs_step {u : UUID} {o : Object} (hu : u ∉ uuids)
    (ho : w'.env.firebase.objects (thumbPath u.uuidString) = some o) :
    ∃ original, w'.env.firebase.objects u.uuidString = some original ∧
      o = thumbnail S original := by
  rcases objects_step hk hs with heq | ⟨k, op, op', hop, hnil, -, -, -, heq⟩ |
    ⟨name, original', ho', heq⟩
  · rw [heq] at ho ⊢
    exact h.thumbs u o hu ho
  · rw [heq, Function.update_of_ne (thumbPath_ne_uuidString _ _)] at ho
    obtain ⟨original, horiginal, rfl⟩ := h.thumbs u o hu ho
    refine ⟨original, ?_, rfl⟩
    have hne : u.uuidString ≠ op.call.fileUUID.uuidString := by
      intro hname
      -- an object under the UUID would mean that it was uploaded before
      obtain ⟨i, op₂, hop₂, rfl, hhistory⟩ := h.owned u _ hu horiginal
      obtain rfl : i = k := hk.own.inj i k op₂ op _ hop₂ hop rfl
        (congrArg some (UUID.ext_uuidString hname).symm)
      obtain rfl : op₂ = op := Option.some.inj (hop₂.symm.trans hop)
      exact hhistory hnil
    rw [heq, Function.update_of_ne hne, horiginal]
  · have hne : u.uuidString ≠ thumbPath name := (thumbPath_ne_uuidString name u).symm
    rw [heq, Function.update_of_ne hne]
    by_cases hname : u.uuidString = name
    · subst hname
      rw [heq, Function.update_self] at ho
      exact ⟨original', ho', (Option.some.inj ho).symm⟩
    · rw [heq, Function.update_of_ne fun h => hname (thumbPath_injective h)] at ho
      exact h.thumbs u o hu ho

/-- Objects that were found stay. -/
theorem StorageInv.found_step {op' : Op} {name : String} (hop' : w'.ops i = some op')
    (hfound : SociallyApp.found S name ∈ op'.history) : (w'.env.firebase.objects name).isSome := by
  obtain ⟨op, hop, -, hfound | ⟨j, -, hr⟩⟩ := Lib.World.event_of_step hs hop' hfound
  · exact object_step hk hs (h.found i op name hop hfound)
  · obtain ⟨firebase, hfb, -⟩ := serve_eq_some hr
    cases Firebase.settled_of_serve hfb with
    | downloadURL ho => exact object_step hk hs (by rw [ho]; rfl)

/-- **Storage through a step.** -/
theorem StorageInv.step : StorageInv S uuids w' where
  stored _ _ hop' hup := h.stored_step hk hs hop' hup
  owned _ _ hu ho := h.owned_step hk hs hu ho
  thumbs _ _ hu ho := h.thumbs_step hk hs hu ho
  found _ _ _ hop' hfound := h.found_step hk hs hop' hfound

end storage

/-! ## Documents -/

/-- The documents added to `Posts`, each with the operation that added it. -/
def added? : Entry → Option (ℕ × String)
  | ⟨i, _, ⟨.addDocument ["Posts"] _, .documentID d, _⟩⟩ => some (i, d)
  | _ => none

def added (w : World) : List (ℕ × String) := w.log.filterMap added?

/-- The served request that adds `d` to `Posts`. -/
abbrev adds (fields : Fields) (d : String) (a : Option NSError) : Event :=
  ⟨.addDocument ["Posts"] fields, .documentID d, a⟩

theorem added?_eq_some {entry : Entry} (h : added? entry = some (i, d)) :
    ∃ call fields a, entry = ⟨i, call, adds fields d a⟩ := by
  unfold added? at h
  split at h
  next => obtain ⟨rfl, rfl⟩ := Prod.mk.inj (Option.some.inj h); exact ⟨_, _, _, rfl⟩
  next => cases h

/-- A document has been added by an operation if that operation had it served. -/
theorem mem_added (hk : Known S uuids w) :
    (i, d) ∈ added w ↔ ∃ op fields a, w.ops i = some op ∧ adds fields d a ∈ op.history := by
  constructor
  · intro h
    obtain ⟨entry, hmem, hentry⟩ := List.mem_filterMap.mp h
    obtain ⟨call, fields, a, rfl⟩ := added?_eq_some hentry
    obtain ⟨op, hop, -, he⟩ := hk.logged.known _ _ _ hmem
    exact ⟨op, fields, a, hop, he⟩
  · rintro ⟨op, fields, a, hop, he⟩
    exact List.mem_filterMap.mpr ⟨_, hk.logged.served i op _ hop he, rfl⟩

/-- Documents are added by `addData` calls, third and last, with the URL that was found. -/
theorem served_adds (hk : Known S uuids w) (hop : w.ops i = some op) {before after : List Event}
    {fields : Fields} {a : Option NSError} (he : op.history = before ++ adds fields d a :: after) :
    ∃ u description date data, op.call = .addData u description date data ∧
      before = [ok (upload op.call) none, found S (thumbPath u.uuidString)] ∧
      fields = PostViewModel.newPost description date (S.downloadURL (thumbPath u.uuidString)) := by
  have hwait := (hk.code.served hop he).1
  generalize hcall : op.call = call at hwait
  generalize hr : (adds fields d a).req = r at hwait
  cases hwait with
  | publish => exact ⟨_, _, _, _, rfl, rfl, (Req.addDocument.inj hr).2⟩
  | _ => cases hr

/-- One operation adds one document. -/
theorem adds_unique (hk : Known S uuids w) (hop : w.ops i = some op) {d' : String}
    {fields fields' : Fields}
    {a a' : Option NSError} (he : adds fields d a ∈ op.history)
    (he' : adds fields' d' a' ∈ op.history) : d = d' := by
  obtain ⟨before, after, hsplit⟩ := List.append_of_mem he
  obtain ⟨before', after', hsplit'⟩ := List.append_of_mem he'
  obtain ⟨_, _, _, _, -, rfl, -⟩ := served_adds hk hop hsplit
  obtain ⟨_, _, _, _, -, rfl, -⟩ := served_adds hk hop hsplit'
  have htail := (List.append_inj (hsplit.symm.trans hsplit') rfl).2
  have hevent := (List.cons.inj htail).1
  exact Choice.documentID.inj (congrArg Lib.Event.choice hevent)

/-- Documents are never changed. -/
theorem get_step (hk : Known S uuids w) (hs : step S w action = some w') {p : Path}
    (hp : p ∈ w.env.firebase.firestore.used) :
    w'.env.firebase.firestore.get p = w.env.firebase.firestore.get p := by
  rcases firebase_step hs with heq | ⟨i, choice, op, op', r, callback, a, hi, ht, hfb, -⟩ |
    ⟨device, user, heq⟩ | ⟨name, hm⟩
  · rw [heq]
  · rcases (hk.code.waiting hi ht).kinds with
      ⟨rfl, -⟩ | ⟨name, rfl⟩ | ⟨fields, rfl⟩ | ⟨uid, url, rfl⟩
    · rw [Firebase.firestore_serve hfb rfl]
    · rw [Firebase.firestore_serve hfb rfl]
    · generalize hfb' : w'.env.firebase = firebase at hfb ⊢
      cases Firebase.settled_of_serve hfb with
      | failed => rfl
      | addDocument hfresh =>
          have hne : p ≠ ["Posts"] ++ [_] := fun h => hfresh (h ▸ hp)
          rw [Firebase.firestore_setDocument, Firestore.get_set, if_neg hne]
    · rw [Firebase.firestore_serve hfb rfl]
  · rw [heq]; rfl
  · rw [firestore_makeThumbnail hm]

/-- Every document that was added is there, as it was written. -/
def Posted (w : World) : Prop :=
  ∀ i op fields d a, w.ops i = some op → adds fields d a ∈ op.history →
    w.env.firebase.firestore.get ["Posts", d] = some (Document.empty.merge fields)

theorem Posted.step (h : Posted w) (hk : Known S uuids w)
    (hs : SociallyApp.step S w action = some w') : Posted w' := by
  intro i op' fields d a hop' he
  obtain ⟨op, hop, -, he | ⟨j, -, hr⟩⟩ := Lib.World.event_of_step hs hop' he
  · have hused := hk.ids.mem i op ["Posts", d] hop ⟨_, he, rfl⟩
    rw [get_step hk hs hused]
    exact h i op fields d a hop he
  · obtain ⟨firebase, hfb, henv⟩ := serve_eq_some hr
    cases Firebase.settled_of_serve hfb
    rw [henv]
    simp

/-! ## Completions -/

/-- **How an `addData` call ends**: with one completion, whose error is `nil` if and
only if a document was added. -/
theorem finished_addData {u : UUID} {description : String} {date : Date} {data : Data}
    {W : Option User → Prop} {history : List Event} {outs : List Out}
    (h : (Call.addData u description date data).code.At (Firebase.Answers S) W history outs []) :
    ∃ error, outs = [.added error] ∧
      (error = none ↔ ∃ fields d a, adds fields d a ∈ history) := by
  obtain ⟨error, houts, -, hends⟩ := PostViewModel.ends_addData h (.inl rfl)
  refine ⟨error, houts, ?_⟩
  cases hends with
  | published d => simp [ok]
  | _ => simp [ok]

/-- The document `d` is what call `i` was to publish, with its image and thumbnail. -/
def PublishedBy (S : StorageService) (w : World) (i : ℕ) (d : String) : Prop :=
  ∃ op u description datePublished data doc, w.ops i = some op ∧
    op.call = .addData u description datePublished data ∧
    w.env.firebase.firestore.get ["Posts", d] = some doc ∧
    doc "description" = some (.string description) ∧
    doc "datePublished" = some (.timestamp datePublished) ∧
    doc "imageURL" = some (.string (S.downloadURL (thumbPath u.uuidString))) ∧
    w.env.firebase.objects (thumbPath u.uuidString) = some (thumbnail S op.call.object) ∧
    w.env.firebase.objects u.uuidString = some ⟨data, some (detectMimeType data)⟩

/-- Documents and calls correspond, and calls report what became of them. -/
structure NeverMixed (S : StorageService) (w : World) : Prop where
  /-- Documents go into calls. -/
  injection : ∃ call : String → ℕ, Set.InjOn call {d | ∃ i, (i, d) ∈ added w} ∧
    ∀ i d, (i, d) ∈ added w → call d = i ∧ PublishedBy S w i d
  /-- A call adds at most one document. -/
  once : ∀ i d d', (i, d) ∈ added w → (i, d') ∈ added w → d = d'
  /-- A call whose answers have all been delivered has called its completion once. -/
  completed : ∀ i op u description date data, w.ops i = some op →
    op.call = .addData u description date data → op.tasks = [] →
    ∃ error, op.outs = [.added error] ∧ (error = none ↔ ∃ d, (i, d) ∈ added w)

/-- A document that was added is what its call was to publish. -/
theorem publishedBy_of_added (hk : Known S uuids w) (hstorage : StorageInv S uuids w)
    (hposted : Posted w)
    (h : (i, d) ∈ added w) : PublishedBy S w i d := by
  obtain ⟨op, fields, a, hop, he⟩ := (mem_added hk).mp h
  obtain ⟨before, after, hsplit⟩ := List.append_of_mem he
  obtain ⟨u, description, date, data, hcall, rfl, rfl⟩ := served_adds hk hop hsplit
  have hup : w.env.firebase.objects op.call.fileUUID.uuidString = some op.call.object :=
    hstorage.stored i op hop (by rw [hsplit]; exact List.mem_cons_self)
  have hfound : (w.env.firebase.objects (thumbPath u.uuidString)).isSome :=
    hstorage.found i op _ hop (by rw [hsplit]; exact List.mem_cons_of_mem _ List.mem_cons_self)
  obtain ⟨thumb, hthumb⟩ := Option.isSome_iff_exists.mp hfound
  have hu : op.call.fileUUID = u := by rw [hcall]; rfl
  obtain ⟨original, horiginal, rfl⟩ :=
    hstorage.thumbs u _ (hu ▸ hk.fresh i op hop) hthumb
  rw [hu, horiginal] at hup
  obtain rfl := Option.some.inj hup
  refine ⟨op, u, description, date, data, _, hop, hcall, hposted i op _ d a hop he, rfl, rfl, rfl,
    hthumb, ?_⟩
  rw [horiginal, hcall]
  rfl

/-- **Concurrent uploads never mix**, in every state reached when fresh UUIDs are
unused at the start. -/
theorem neverMixed_reachable (S : StorageService) (fb : Firebase) (uuids : List UUID)
    (hunused : Unused fb uuids) (h : Reachable S fb uuids w) : NeverMixed S w := by
  have hinv : Known S uuids w ∧ StorageInv S uuids w ∧ Posted w := by
    refine Lib.Reachable.invariant (P := fun w => Known S uuids w ∧ StorageInv S uuids w ∧ Posted w)
      h ⟨known_initial S fb uuids, storageInv_initial hunused, fun _ _ _ _ _ h => by cases h⟩ ?_
    intro w a w' hw hs
    exact ⟨hw.1.step hs, hw.2.1.step hw.1 hs, hw.2.2.step hw.1 hs⟩
  obtain ⟨hk, hstorage, hposted⟩ := hinv
  have hone : ∀ i j d, (i, d) ∈ added w → (j, d) ∈ added w → i = j := by
    intro i j d hi hj
    obtain ⟨op, fields, a, hop, he⟩ := (mem_added hk).mp hi
    obtain ⟨op', fields', a', hop', he'⟩ := (mem_added hk).mp hj
    exact hk.ids.inj i j op op' ["Posts", d] hop hop' ⟨_, he, rfl⟩ ⟨_, he', rfl⟩
  have honce : ∀ i d d', (i, d) ∈ added w → (i, d') ∈ added w → d = d' := by
    intro i d d' hd hd'
    obtain ⟨op, fields, a, hop, he⟩ := (mem_added hk).mp hd
    obtain ⟨op', fields', a', hop', he'⟩ := (mem_added hk).mp hd'
    obtain rfl : op = op' := Option.some.inj (hop.symm.trans hop')
    exact adds_unique hk hop he he'
  refine ⟨?_, honce, ?_⟩
  · have hcall : ∀ d, ∃ i, ∀ j, (j, d) ∈ added w → i = j := by
      intro d
      by_cases hd : ∃ i, (i, d) ∈ added w
      · obtain ⟨i, hi⟩ := hd
        exact ⟨i, fun j hj => hone i j d hi hj⟩
      · exact ⟨0, fun j hj => absurd ⟨j, hj⟩ hd⟩
    choose call hcall using hcall
    refine ⟨call, ?_, fun i d hd => ⟨hcall d i hd, publishedBy_of_added hk hstorage hposted hd⟩⟩
    rintro d ⟨i, hi⟩ d' ⟨j, hj⟩ heq
    obtain rfl : i = j := by rw [← hcall d i hi, ← hcall d' j hj, heq]
    exact honce i d d' hi hj
  · intro i op u description date data hop hcall hdone
    have hat := hk.code i op hop op.call.linear_code
    rw [hdone, show (host S).code op.call = op.call.code from rfl, hcall] at hat
    obtain ⟨error, houts, hiff⟩ := finished_addData hat
    refine ⟨error, houts, hiff.trans ⟨?_, ?_⟩⟩
    · rintro ⟨fields, d, a, he⟩
      exact ⟨d, (mem_added hk).mpr ⟨op, fields, a, hop, he⟩⟩
    · rintro ⟨d, hd⟩
      obtain ⟨op', fields, a, hop', he⟩ := (mem_added hk).mp hd
      obtain rfl : op = op' := Option.some.inj (hop.symm.trans hop')
      exact ⟨fields, d, a, he⟩

/-- Two devices publish at the same time; the answers of the two calls alternate. -/
def twoUploads : List Action :=
  [.start 0 0 (.addData .sample "hello" 0 [0xFF]),
    .start 1 1 (.addData ⟨"B4F0", by decide⟩ "bye" 1 [0x89]), .serve 1 0 .success,
    .serve 0 0 .success, .deliver 0 0, .deliver 1 0, .act (.thumbnail "B4F0"),
    .act (.thumbnail "7A21"), .serve 0 0 .success, .serve 1 0 .success, .deliver 1 0, .deliver 0 0,
    .serve 1 0 (.documentID "e"), .serve 0 0 (.documentID "d"), .deliver 0 0, .deliver 1 0]

theorem neverMixed_twoUploads : ∃ w,
    Lib.run (step .plain) (initial .empty []) twoUploads = some w ∧
    added w = [(1, "e"), (0, "d")] ∧ NeverMixed .plain w :=
  ⟨_, rfl, rfl, neverMixed_reachable .plain .empty [] (fun _ _ => ⟨rfl, rfl⟩) ⟨twoUploads, rfl⟩⟩

end FirebaseApps.SociallyApp
