import FirebaseApps.Lib.Fresh
import FirebaseApps.SociallyUIKit.Writes

/-!
# Socially-UIKit: the call behind a document

Every document that a run adds to `Posts` was added by one `addData` call, under an id
and an image path that no other call uses.  Whatever a document, a post read from it
or a copy of such a post says about the path or the image of that document goes back
to this call.
-/

namespace FirebaseApps.SociallyUIKit

open Lib (Task)

variable {S : StorageService} {fb : Firebase} {w w' : World} {action : Action}
variable {i j : ℕ} {d : String}

/-- What an `addData` call is given and draws, and the user it publishes as. -/
structure Publication where
  path : UUID
  description : String
  datePublished : Date
  data : Data
  user : Option User

namespace Publication

/-- The call. -/
def call (o : Publication) : Call := .addData o.path o.description o.datePublished o.data

/-- The fields it writes. -/
def fields (o : Publication) : Fields :=
  NewPostViewController.newPost o.description o.datePublished o.user o.path

/-- The URL of the thumbnail made from its image. -/
def thumbnailURL (S : StorageService) (o : Publication) : String :=
  S.downloadURL (thumbPath o.path.uuidString)

end Publication

/-- Operation `i` is the `addData` call `o`, and has added the document `d`. -/
def Added (w : World) (i : ℕ) (o : Publication) (d : String) : Prop :=
  ∃ op, w.ops i = some op ∧ op.call = o.call ∧
    op.history = [ok (upload o.path o.data) none,
      ⟨.addDocument ["Posts"] o.fields, .documentID d, none⟩]

/-- An operation that has added its document is over. -/
theorem Added.step {o : Publication} (h : Added w i o d)
    (hcode : OnCode S (fun _ _ => True) w) (hs : SociallyUIKit.step S w action = some w') :
    Added w' i o d := by
  obtain ⟨op, hop, hcall, hhistory⟩ := h
  obtain ⟨op', hop', hfol⟩ := Lib.World.step_op hs hop
  refine ⟨op', hop', hfol.call.trans hcall, ?_⟩
  rcases hfol.history with heq | ⟨j, choice, r, callback, a, -, ht, -, -⟩
  · rw [heq, hhistory]
  · have hwait := hcode.waiting hop ht
    rw [hcall, hhistory] at hwait
    cases hwait

/-! ## Names -/

/-- The UUID that a call draws. -/
def Call.path? : Call → Option UUID
  | .addData path .. => some path
  | _ => none

/-- Every UUID belongs to one call. -/
abbrev OwnPaths : World → Prop := Lib.World.Own (fun op => (op.call.path? = some ·)) Env.uuids

/-- Every id of a new document was drawn by one call. -/
abbrev OwnDocuments : World → Prop :=
  Lib.World.Own (fun op p => ∃ e ∈ op.history, Firebase.newDocument? e = some p)
    fun env => env.firebase.firestore.used

theorem uuids_exec (device : Device) (code : Code) (env : Env) :
    ((host S).exec device code env).env.uuids = env.uuids :=
  (firebase_exec device code env).2

theorem OwnPaths.step (h : OwnPaths w) (hs : SociallyUIKit.step S w action = some w') :
    OwnPaths w' := by
  refine Lib.World.Own.step_call Call.path? h hs ?_ ?_
  · intro path hpath
    rcases Lib.World.step_cases hs with ⟨i, device, call, env, rfl, hi, ha, rfl⟩ |
      ⟨i, j, choice, op, r, callback, env, a, rfl, hi, ht, hr, rfl⟩ |
      ⟨i, j, op, code, rfl, hi, ht, rfl⟩ | ⟨a, env, rfl, ha, rfl⟩
    · rw [Lib.World.env_resume, uuids_exec]
      cases call <;> simp only [host, Env.accept] at ha <;> split at ha <;> cases ha <;>
        simp [hpath]
    · obtain ⟨firebase, -, rfl⟩ := serve_eq_some hr
      exact hpath
    · rwa [Lib.World.env_resume, uuids_exec]
    · cases a with
      | snapshot device => obtain rfl := Option.some.inj ha; exact hpath
      | signIn device user => obtain rfl := Option.some.inj ha; exact hpath
      | signOut device => obtain rfl := Option.some.inj ha; exact hpath
      | thumbnail name =>
          obtain ⟨firebase, -, rfl⟩ := Option.map_eq_some_iff.mp ha
          exact hpath
  · intro device call env path ha hpath
    cases call with
    | addData path' description date data =>
        obtain rfl := Option.some.inj hpath
        simp only [host, Env.accept] at ha
        split at ha
        next => cases ha
        next hfresh =>
          obtain rfl := Option.some.inj ha
          exact ⟨hfresh, by rw [uuids_exec]; exact List.mem_cons_self⟩
    | checkImageURL post path' => cases hpath
    | updatePost post newDescription => cases hpath
    | deletePost post => cases hpath

theorem OwnDocuments.step (h : OwnDocuments w) (hcode : OnCode S (fun _ _ => True) w)
    (hs : SociallyUIKit.step S w action = some w') : OwnDocuments w' := by
  refine Lib.World.Own.step_served Firebase.newDocument? h hs (used_subset hcode hs) ?_
  intro device r choice env a p hr hp
  obtain ⟨firebase, hfb, rfl⟩ := serve_eq_some hr
  exact Firebase.newDocument?_serve hfb hp

/-- One operation is one call, and has added one document. -/
theorem Added.same_op {o o' : Publication} {d' : String} (h : Added w i o d)
    (h' : Added w i o' d') : o.call = o'.call ∧ o.fields = o'.fields ∧ d = d' := by
  obtain ⟨op, hop, hcall, hhistory⟩ := h
  obtain ⟨op', hop', hcall', hhistory'⟩ := h'
  obtain rfl : op = op' := Option.some.inj (hop.symm.trans hop')
  have hevents := (List.cons.inj (hhistory.symm.trans hhistory')).2
  have hevent := (List.cons.inj hevents).1
  refine ⟨hcall.symm.trans hcall', ?_, ?_⟩
  · exact (Req.addDocument.inj (congrArg Lib.Event.req hevent)).2
  · exact Choice.documentID.inj (congrArg Lib.Event.choice hevent)

/-- A document has been added by one call. -/
theorem Added.unique {o o' : Publication} (hids : OwnDocuments w) (h : Added w i o d)
    (h' : Added w j o' d) : i = j ∧ o.call = o'.call ∧ o.fields = o'.fields := by
  obtain ⟨op, hop, -, hhistory⟩ := id h
  obtain ⟨op', hop', -, hhistory'⟩ := id h'
  obtain rfl : i = j := by
    refine hids.inj i j op op' ["Posts", d] hop hop' ?_ ?_
    · exact ⟨_, by rw [hhistory]; exact List.mem_cons_of_mem _ List.mem_cons_self, rfl⟩
    · exact ⟨_, by rw [hhistory']; exact List.mem_cons_of_mem _ List.mem_cons_self, rfl⟩
  obtain ⟨hcall, hfields, -⟩ := h.same_op h'
  exact ⟨rfl, hcall, hfields⟩

/-- A document has one thumbnail. -/
theorem Added.thumbnailURL_eq {o o' : Publication} (hids : OwnDocuments w) (h : Added w i o d)
    (h' : Added w j o' d) : o'.thumbnailURL S = o.thumbnailURL S := by
  obtain ⟨-, hcall, -⟩ := h.unique hids h'
  rw [Publication.thumbnailURL, Publication.thumbnailURL, (Call.addData.inj hcall).1]

/-- A call is determined by its path. -/
theorem Added.path_inj {o o' : Publication} {d' : String} (hpaths : OwnPaths w)
    (h : Added w i o d) (h' : Added w j o' d') (hpath : o.path = o'.path) : d = d' := by
  obtain ⟨op, hop, hcall, -⟩ := id h
  obtain ⟨op', hop', hcall', -⟩ := id h'
  obtain rfl : i = j := by
    refine hpaths.inj i j op op' o.path hop hop' ?_ ?_
    · rw [hcall]; rfl
    · rw [hcall', hpath]; rfl
  exact (h.same_op h').2.2

/-! ## Soundness of documents and posts -/

/-- What is said about the path and the image of `d` is what its own call made. -/
structure Sound (S : StorageService) (w : World) (d : String) (path imageURL : Option Value) :
    Prop where
  path : ∀ v, path = some v → ∃ i o, Added w i o d ∧ v = .string o.path.uuidString
  imageURL : ∀ v, imageURL = some v → ∃ i o, Added w i o d ∧ v = .string (o.thumbnailURL S)

/-- The document `d` is sound. -/
abbrev SoundDocument (S : StorageService) (w : World) (d : String) (doc : Document) : Prop :=
  Sound S w d (doc "path") (doc "imageURL")

/-- The document is not one that `Posts` held before the run. -/
def New (fb : Firebase) (d : String) : Prop := fb.firestore.get ["Posts", d] = none

/-- The post is about a document, and sound if that document is new. -/
def SoundPost (S : StorageService) (fb : Firebase) (w : World) (post : Post) : Prop :=
  ∃ d, post.id = some d ∧
    (New fb d → Sound S w d (post.path.map .string) (post.imageURL.map .string))

theorem Sound.step {path imageURL : Option Value} (h : Sound S w d path imageURL)
    (hcode : OnCode S (fun _ _ => True) w) (hs : SociallyUIKit.step S w action = some w') :
    Sound S w' d path imageURL where
  path v hv := by
    obtain ⟨i, o, hadd, heq⟩ := h.path v hv
    exact ⟨i, o, hadd.step hcode hs, heq⟩
  imageURL v hv := by
    obtain ⟨i, o, hadd, heq⟩ := h.imageURL v hv
    exact ⟨i, o, hadd.step hcode hs, heq⟩

/-- A post decoded from a sound document is sound. -/
theorem Sound.decode {doc : Document} (h : SoundDocument S w d doc) :
    Sound S w d ((doc.string "path").map .string) ((doc.string "imageURL").map .string) where
  path v hv := h.path v (Value.map_bind_asString hv)
  imageURL v hv := h.imageURL v (Value.map_bind_asString hv)

/-- The invariant of runs: every operation is on its code, names have one owner, and
new documents are sound, wherever they or what was read from them is in use. -/
structure Traced (S : StorageService) (fb : Firebase) (w : World) : Prop where
  code : OnCode S (fun _ _ => True) w
  paths : OwnPaths w
  ids : OwnDocuments w
  checked : ∀ i op post path, w.ops i = some op → op.call = .checkImageURL post path →
    post.path = some path
  docs : ∀ d doc, New fb d → document w d = some doc → SoundDocument S w d doc
  reads : ∀ i op d doc, New fb d → w.ops i = some op →
    ok (.getDocument ["Posts", d]) (some ⟨d, some doc⟩, none) ∈ op.history →
    SoundDocument S w d doc
  posts : Held (SoundPost S fb w) w

theorem traced_initial (S : StorageService) (fb : Firebase) : Traced S fb (initial fb) where
  code := Lib.World.onCode_initial _
  paths := Lib.World.own_initial _
  ids := Lib.World.own_initial _
  checked i op post path h := by cases h
  docs d doc hnew h := by
    rw [document, initial, Lib.World.initial, hnew] at h
    cases h
  reads i op d doc hnew h := by cases h
  posts := held_initial _ fb

/-! ## The writes keep documents sound -/

/-- The `addData` call whose document is written has then added it. -/
theorem added_of_serve {op : Op} {r : Req} {callback : Ans r → Code} {o : Publication}
    (hop : w.ops i = some op) (ht : op.tasks[j]? = some (.waiting r callback))
    (hr : r = .addDocument ["Posts"] o.fields) (hcall : op.call = o.call)
    (hhistory : op.history = [ok (upload o.path o.data) none])
    (hs : step S w (.serve i j (.documentID d)) = some w') : Added w' i o d := by
  subst hr
  obtain ⟨env, a, hserve, rfl⟩ := Lib.World.step_serve hs hop ht
  obtain ⟨firebase, hfb, rfl⟩ := serve_eq_some hserve
  cases Firebase.settled_of_serve hfb
  exact ⟨_, Function.update_self i _ _, hcall, by simp [hhistory]⟩

/-- Documents stay sound. -/
theorem Traced.docs_step (h : Traced S fb w) (hs : SociallyUIKit.step S w action = some w')
    (doc : Document) (hnew : New fb d) (hdoc : document w' d = some doc) :
    SoundDocument S w' d doc := by
  rcases step_write h.code hs with ⟨heq, -⟩ |
    ⟨i, j, choice, op, r, callback, write, rfl, hop, ht, -, happ⟩
  · rw [document, heq] at hdoc
    exact (h.docs d doc hnew hdoc).step h.code hs
  · by_cases hd : d = write.target
    · have hold : SoundDocument S w' d ((document w d).getD .empty) := by
        cases hget : document w d with
        | none => exact ⟨fun v hv => (by cases hv), fun v hv => (by cases hv)⟩
        | some old => exact (h.docs d old hnew hget).step h.code hs
      generalize hfs : w'.env.firebase.firestore = fs' at happ
      rw [document, hfs] at hdoc
      cases happ with
      | @created path description date data d' user hcall hhistory hfresh =>
          obtain rfl : d = d' := hd
          let o : Publication := ⟨path, description, date, data, user⟩
          have hadd : Added w' i o d := added_of_serve (o := o) hop ht rfl hcall hhistory hs
          obtain rfl : Document.empty.merge o.fields = doc := by
            simpa [Publication.fields] using hdoc
          constructor
          · intro v hv
            exact ⟨i, o, hadd, (Option.some.inj hv).symm⟩
          · intro v hv
            cases hv
      | @described post description d' hcall hid =>
          obtain rfl : d = d' := hd
          obtain rfl := by simpa using hdoc
          exact hold
      | @linked post path d' hcall hid =>
          obtain rfl : d = d' := hd
          obtain rfl := by simpa using hdoc
          -- the path comes from a post about `d`, so it is the path of `d`'s own call
          have hpath := h.checked i op post path hop hcall
          obtain ⟨d', hid', hpost⟩ := h.posts.called i op post hop (by rw [hcall]; rfl)
          obtain rfl : d = d' := Option.some.inj (hid.symm.trans hid')
          obtain ⟨k, o, hadd, heq⟩ := (hpost hnew).path (.string path) (by simp [hpath])
          refine ⟨hold.path, fun v hv => ⟨k, o, hadd.step h.code hs, ?_⟩⟩
          rw [← Option.some.inj hv, Publication.thumbnailURL, ← Value.string.inj heq]
      | @deleted post d' hcall hid =>
          obtain rfl : d = d' := hd
          simp at hdoc
    · rw [document, happ.frame hd] at hdoc
      exact (h.docs d doc hnew hdoc).step h.code hs

/-- A document that was read back was there when it was read. -/
theorem Traced.reads_step (h : Traced S fb w) (hs : SociallyUIKit.step S w action = some w')
    {op' : Op} (doc : Document) (hnew : New fb d) (hop' : w'.ops i = some op')
    (hread : ok (.getDocument ["Posts", d]) (some ⟨d, some doc⟩, none) ∈ op'.history) :
    SoundDocument S w' d doc := by
  obtain ⟨op, hop, -, hread | ⟨j, -, hr⟩⟩ := Lib.World.event_of_step hs hop' hread
  · exact (h.reads i op d doc hnew hop hread).step h.code hs
  · obtain ⟨firebase, hfb, -⟩ := serve_eq_some hr
    exact (h.docs d doc hnew (Firebase.data_of_serve hfb)).step h.code hs

/-- **The invariant is kept by every step.** -/
theorem Traced.step (h : Traced S fb w) (hs : SociallyUIKit.step S w action = some w') :
    Traced S fb w' where
  code := onCode_step_any h.code hs
  paths := h.paths.step hs
  ids := h.ids.step h.code hs
  checked i op' post path hop' hcall := by
    rcases Lib.World.op_of_step hs hop' with ⟨env, -, -, ha, -, -⟩ | ⟨op, hop, hfol⟩
    · rw [hcall] at ha
      simp only [host, Env.accept, Option.ite_none_right_eq_some] at ha
      exact ha.1.2
    · exact h.checked i op post path hop (hfol.call ▸ hcall)
  docs d doc hnew hdoc := h.docs_step hs doc hnew hdoc
  reads i op' d doc hnew hop' hread := h.reads_step hs doc hnew hop' hread
  posts := by
    refine h.posts.step h.code hs ?_ ?_ ?_
    · rintro post ⟨d, hid, hpost⟩
      exact ⟨d, hid, fun hnew => (hpost hnew).step h.code hs⟩
    · intro post hpost
      obtain ⟨d, data, hget, hinit⟩ := mem_feed hpost
      obtain rfl := Option.some.inj hinit
      exact ⟨d, rfl, fun hnew => (h.docs d data hnew hget).decode.step h.code hs⟩
    · rintro i op post newDescription postId data edited hop hcall - hid hread hedit
      obtain ⟨description, imageURL, datePublished, -, himage, -, rfl⟩ :=
        PostService.updatedPost_eq_some hedit
      refine ⟨postId, rfl, fun hnew => ⟨fun v hv => (by cases hv), fun v hv => ?_⟩⟩
      have hdecoded := (h.reads i op postId data hnew hop hread).decode.step h.code hs
      exact hdecoded.imageURL v (by rw [himage]; exact hv)

theorem traced_reachable (h : Reachable S fb w) : Traced S fb w :=
  h.invariant (traced_initial S fb) fun _ _ _ ht hs => ht.step hs

end FirebaseApps.SociallyUIKit
