import FirebaseApps.Firebase.Changes
import FirebaseApps.SociallyUIKit.Publications

/-!
# Socially-UIKit: concurrent edits and thumbnail writes

Each document of `Posts` is the replay of the writes that were applied to it, and a
document that a run adds is created by the first of them.  Until it is deleted, the
rest are descriptions and thumbnail links, which name different fields: the
description is the last one written, the image URL that of the document's own
thumbnail, and the other fields are as they were created.  So what such a document holds
does not depend on how its edits and thumbnail writes were interleaved
(`editsKept_reachable`).
-/

namespace FirebaseApps.SociallyUIKit

variable {S : StorageService} {fb fb' : Firebase} {w w' : World} {action : Action} {d : String}

/-! ## Documents as replays -/

/-- The change that a write makes to its document. -/
def Write.change : Write → Change
  | .created _ fields => .create fields
  | .described _ description => .merge [("description", .value (.string description))]
  | .linked _ url => .merge (Post.thumbnailFields url)
  | .deleted _ => .delete

/-- The writes to the document `d`. -/
def writesTo (d : String) (ws : List Write) : List Write := ws.filter (·.target = d)

@[simp] theorem mem_writesTo {ws : List Write} {write : Write} :
    write ∈ writesTo d ws ↔ write ∈ ws ∧ write.target = d := by
  simp [writesTo]

theorem writesTo_append (d : String) (ws ws' : List Write) :
    writesTo d (ws ++ ws') = writesTo d ws ++ writesTo d ws' :=
  List.filter_append _ _

/-- A write changes its document as its change says. -/
theorem Applies.change {fs fs' : Firestore} {op : Op} {r : Req} {choice : Choice} {write : Write}
    (h : Applies S fs op r choice write fs') :
    fs'.get ["Posts", write.target] = write.change.apply (fs.get ["Posts", write.target]) := by
  cases h <;> simp [Write.target, Write.change, Change.apply]

/-- After a write its path is used. -/
theorem Applies.target_used {fs fs' : Firestore} {op : Op} {r : Req} {choice : Choice}
    {write : Write} (h : Applies S fs op r choice write fs') :
    ["Posts", write.target] ∈ fs'.used := by
  cases h <;> exact List.mem_cons_self

/-- A document is created at a path that was never used. -/
theorem Applies.fresh {fs fs' : Firestore} {op : Op} {r : Req} {choice : Choice} {fields : Fields}
    (h : Applies S fs op r choice (.created d fields) fs') : ["Posts", d] ∉ fs.used := by
  generalize hwrite : Write.created d fields = write at h
  cases h with
  | created user hcall hhistory hfresh => rwa [(Write.created.inj hwrite).1]
  | _ => cases hwrite

/-- The documents are what the writes applied so far make of them. -/
structure Written (fb : Firebase) (w : World) : Prop where
  used : ∀ p ∈ fb.firestore.used, p ∈ w.env.firebase.firestore.used
  targets : ∀ write ∈ writes w, ["Posts", write.target] ∈ w.env.firebase.firestore.used
  replay : ∀ d, document w d =
    ((writesTo d (writes w)).map Write.change).foldl Change.apply (fb.firestore.get ["Posts", d])
  /-- A document that was added was created by its first write, and by that one only. -/
  created : ∀ d fields, .created d fields ∈ writes w → ["Posts", d] ∉ fb.firestore.used ∧
    ∃ rest, writesTo d (writes w) = .created d fields :: rest ∧ ∀ f, .created d f ∉ rest

theorem written_initial (fb : Firebase) : Written fb (initial fb) where
  used p hp := hp
  targets write h := by cases h
  replay d := rfl
  created d fields h := by cases h

theorem Written.step (h : Written fb w) (hcode : OnCode S (fun _ _ => True) w)
    (hs : SociallyUIKit.step S w action = some w') : Written fb w' := by
  rcases step_write hcode hs with ⟨hfs, hw⟩ |
    ⟨i, j, choice, op, r, callback, write, -, hop, ht, hw, happ⟩
  · constructor
    · rw [hfs]; exact h.used
    · rw [hfs, hw]; exact h.targets
    · intro d; rw [document, hfs, hw]; exact h.replay d
    · rw [hw]; exact h.created
  · constructor
    · exact fun p hp => happ.used_subset p (h.used p hp)
    · intro write' hmem
      rw [hw, List.mem_append, List.mem_singleton] at hmem
      rcases hmem with hmem | rfl
      · exact happ.used_subset _ (h.targets write' hmem)
      · exact happ.target_used
    · intro d
      rw [hw, writesTo_append]
      by_cases hd : write.target = d
      · subst hd
        rw [document, happ.change]
        rw [← document, h.replay]
        simp [writesTo]
      · rw [document, happ.frame (Ne.symm hd)]
        simpa [writesTo, hd] using h.replay d
    · intro d fields hmem
      rw [hw, List.mem_append, List.mem_singleton] at hmem
      rcases hmem with hmem | rfl
      · obtain ⟨hfb, rest, hrest, hno⟩ := h.created d fields hmem
        refine ⟨hfb, rest ++ writesTo d [write], ?_, fun f hf => ?_⟩
        · rw [hw, writesTo_append, hrest, List.cons_append]
        · rcases List.mem_append.mp hf with hf | hf
          · exact hno f hf
          · -- the document's path is used up by now
            obtain ⟨hf, -⟩ := mem_writesTo.mp hf
            obtain rfl := List.mem_singleton.mp hf
            exact happ.fresh (h.targets _ hmem)
      · have hnone : writesTo d (writes w) = [] := by
          refine List.eq_nil_iff_forall_not_mem.mpr fun write' hmem => ?_
          obtain ⟨hwrite, rfl⟩ := mem_writesTo.mp hmem
          exact happ.fresh (h.targets _ hwrite)
        refine ⟨fun hp => happ.fresh (h.used _ hp), [], ?_, fun f hf => by cases hf⟩
        rw [hw, writesTo_append, hnone]
        simp [writesTo, Write.target]

/-! ## The fields of a document that nobody deletes -/

/-- The fields that an edit of an existing document names. -/
def Write.edit? : Write → Option Fields
  | .described _ description => some [("description", .value (.string description))]
  | .linked _ url => some (Post.thumbnailFields url)
  | _ => none

/-- Writes that edit are merges. -/
theorem map_change {ws : List Write} (h : ∀ write ∈ ws, write.edit?.isSome) :
    ws.map Write.change = (ws.filterMap Write.edit?).map Change.merge := by
  have hedit : ∀ write ∈ ws, write.edit?.map Change.merge = some write.change := by
    intro write hmem
    have hsome := h write hmem
    cases write with
    | created d fields => cases hsome
    | deleted d => cases hsome
    | described d description => rfl
    | linked d url => rfl
  rw [List.map_filterMap, List.filterMap_congr hedit, List.filterMap_eq_map']

/-- The description that a write sets. -/
def Write.description? : Write → Option String
  | .described _ description => some description
  | _ => none

/-- The thumbnail that a write links. -/
def Write.thumbnail? : Write → Option String
  | .linked _ url => some url
  | _ => none

/-- The descriptions written to `d`, oldest first. -/
def descriptions (d : String) (ws : List Write) : List String :=
  (writesTo d ws).filterMap Write.description?

/-- The thumbnail URLs written to `d`, oldest first. -/
def thumbnails (d : String) (ws : List Write) : List String :=
  (writesTo d ws).filterMap Write.thumbnail?

theorem lastEdit_description (ws : List Write) :
    Document.lastEdit (ws.filterMap Write.edit?) "description" =
      (ws.filterMap Write.description?).getLast?.map fun s => .value (.string s) := by
  rw [Document.lastEdit, List.filterMap_filterMap, ← List.getLast?_map, List.map_filterMap]
  congr 2
  funext write
  cases write <;> rfl

theorem lastEdit_imageURL (ws : List Write) :
    Document.lastEdit (ws.filterMap Write.edit?) "imageURL" =
      (ws.filterMap Write.thumbnail?).getLast?.map fun s => .value (.string s) := by
  rw [Document.lastEdit, List.filterMap_filterMap, ← List.getLast?_map, List.map_filterMap]
  congr 2
  funext write
  cases write <;> rfl

/-- No edit names another field, but for the misspelt one. -/
theorem lastEdit_other (ws : List Write) {key : String} (hdesc : key ≠ "description")
    (himage : key ≠ "imageURL") (hpaht : key ≠ "paht") :
    Document.lastEdit (ws.filterMap Write.edit?) key = none := by
  rw [Document.lastEdit, List.filterMap_filterMap, List.getLast?_eq_none_iff,
    List.filterMap_eq_nil_iff]
  intro write _
  cases write <;> simp [Write.edit?, Post.thumbnailFields, List.lookup_cons,
    beq_false_of_ne hdesc, beq_false_of_ne himage, beq_false_of_ne hpaht]

/-- **A document that nobody deletes** is its first write with the edits replayed. -/
theorem Written.document_eq (h : Written fb w) {fields : Fields}
    (hcreated : .created d fields ∈ writes w) (hdel : .deleted d ∉ writes w) :
    ∃ rest, writesTo d (writes w) = .created d fields :: rest ∧
      document w d = some ((Document.empty.merge fields).replay (rest.filterMap Write.edit?)) := by
  obtain ⟨-, rest, hrest, hno⟩ := h.created d fields hcreated
  refine ⟨rest, hrest, ?_⟩
  have hmerges : rest.map Write.change = (rest.filterMap Write.edit?).map Change.merge := by
    refine map_change fun write hmem => ?_
    have hto : write ∈ writesTo d (writes w) := by
      rw [hrest]
      exact List.mem_cons_of_mem _ hmem
    obtain ⟨hwrite, rfl⟩ := mem_writesTo.mp hto
    cases write with
    | created d f => exact absurd hmem (hno f)
    | deleted d => exact absurd hwrite hdel
    | described d description => rfl
    | linked d url => rfl
  rw [h.replay, hrest, List.map_cons, List.foldl_cons, hmerges]
  exact Document.foldl_apply_merge _ _

theorem written_reachable (h : Reachable S fb w) : Written fb w := by
  have hinv : Traced S fb w ∧ Written fb w :=
    Lib.Reachable.invariant (P := fun w => Traced S fb w ∧ Written fb w) h
      ⟨traced_initial S fb, written_initial fb⟩
      fun _ _ _ ht hs => ⟨ht.1.step hs, ht.2.step ht.1.code hs⟩
  exact hinv.2

theorem logged_reachable (h : Reachable S fb w) : Lib.World.Logged w :=
  Lib.Reachable.invariant (P := Lib.World.Logged) h (Lib.World.logged_initial _)
    fun _ _ _ hl hs => hl.step hs

/-- A document that has been added was created by a write. -/
theorem Added.created {i : ℕ} {o : Publication} (h : Added w i o d) (hlog : Lib.World.Logged w) :
    .created d o.fields ∈ writes w := by
  obtain ⟨op, hop, hcall, hhistory⟩ := h
  have hmem := hlog.served i op _ hop (by
    rw [hhistory]
    exact List.mem_cons_of_mem _ List.mem_cons_self)
  rw [hcall] at hmem
  exact List.mem_filterMap.mpr ⟨_, hmem, rfl⟩

/-- A document that has been added was not there before the run. -/
theorem Added.new {i : ℕ} {o : Publication} (h : Added w i o d) (hw : Written fb w)
    (hlog : Lib.World.Logged w) : New fb d := by
  have hfresh := (hw.created d _ (h.created hlog)).1
  cases hget : fb.firestore.get ["Posts", d] with
  | none => exact hget
  | some old => exact absurd (Firestore.mem_used_of_get hget) hfresh

/-- What the document that the call `o` added holds after the writes so far. -/
structure Kept (S : StorageService) (w : World) (d : String) (o : Publication) (doc : Document) :
    Prop where
  userId : doc "userId" = some (.string ((o.user.map User.uid).getD ""))
  userName : doc "userName" = some (.string ((o.user.bind User.displayName).getD "Unknown"))
  datePublished : doc "datePublished" = some (.timestamp o.datePublished)
  description :
    doc "description" = some (.string ((descriptions d (writes w)).getLastD o.description))
  unlinked : thumbnails d (writes w) = [] → doc "imageURL" = none
  linked : thumbnails d (writes w) ≠ [] → doc "imageURL" = some (.string (o.thumbnailURL S))

/-- Every document that was added and not deleted holds what it should. -/
def EditsKept (S : StorageService) (w : World) : Prop :=
  ∀ i o d, Added w i o d → .deleted d ∉ writes w → ∃ doc, document w d = some doc ∧ Kept S w d o doc

/-- Runs that apply the same descriptions in the same order and link the same set of
thumbnails to a document agree on both fields, however the two were interleaved. -/
def SameEdits (w w' : World) : Prop :=
  ∀ i j o d doc doc', Added w i o d → Added w' j o d → .deleted d ∉ writes w →
    .deleted d ∉ writes w' → document w d = some doc → document w' d = some doc' →
    descriptions d (writes w) = descriptions d (writes w') →
    (∀ url, url ∈ thumbnails d (writes w) ↔ url ∈ thumbnails d (writes w')) →
    doc "description" = doc' "description" ∧ doc "imageURL" = doc' "imageURL"

theorem kept_of_written {i : ℕ} {o : Publication} (ht : Traced S fb w) (hw : Written fb w)
    (hlog : Lib.World.Logged w) (hadd : Added w i o d) (hdel : .deleted d ∉ writes w) :
    ∃ doc, document w d = some doc ∧ Kept S w d o doc := by
  obtain ⟨rest, hrest, hdoc⟩ := hw.document_eq (hadd.created hlog) hdel
  refine ⟨_, hdoc, ?_⟩
  have hdescriptions : descriptions d (writes w) = rest.filterMap Write.description? := by
    rw [descriptions, hrest]
    rfl
  have hthumbnails : thumbnails d (writes w) = rest.filterMap Write.thumbnail? := by
    rw [thumbnails, hrest]
    rfl
  constructor
  · rw [Document.replay_key, lastEdit_other rest (by decide) (by decide) (by decide)]
    rfl
  · rw [Document.replay_key, lastEdit_other rest (by decide) (by decide) (by decide)]
    rfl
  · rw [Document.replay_key, lastEdit_other rest (by decide) (by decide) (by decide)]
    rfl
  · rw [Document.replay_key, lastEdit_description, hdescriptions, List.getLastD_eq_getLast?]
    cases (rest.filterMap Write.description?).getLast? <;> rfl
  · intro hnil
    rw [Document.replay_key, lastEdit_imageURL, ← hthumbnails, hnil]
    rfl
  · intro hne
    obtain ⟨url, hurl⟩ : ∃ url, (rest.filterMap Write.thumbnail?).getLast? = some url :=
      ⟨_, List.getLast?_eq_some_getLast (hthumbnails ▸ hne)⟩
    have himage : ((Document.empty.merge o.fields).replay (rest.filterMap Write.edit?)) "imageURL" =
        some (.string url) := by
      rw [Document.replay_key, lastEdit_imageURL, hurl]
      rfl
    -- the URL that is there can only be that of the document's own thumbnail
    obtain ⟨j, o', hadd', heq⟩ := (ht.docs d _ (hadd.new hw hlog) hdoc).imageURL _ himage
    rw [himage, heq, hadd.thumbnailURL_eq ht.ids hadd']

/-- **Concurrent edits and thumbnail writes lose nothing**: every document that is
added and not deleted keeps the values of `addData`, the last description and its own
thumbnail, and how the edits and the thumbnail writes of a run were interleaved does
not matter. -/
theorem editsKept_reachable (S : StorageService) (fb fb' : Firebase) (h : Reachable S fb w)
    (h' : Reachable S fb' w') : EditsKept S w ∧ SameEdits w w' := by
  have hkept : ∀ i o d, Added w i o d → .deleted d ∉ writes w →
      ∃ doc, document w d = some doc ∧ Kept S w d o doc := fun i o d hadd hdel =>
    kept_of_written (traced_reachable h) (written_reachable h) (logged_reachable h) hadd hdel
  refine ⟨hkept, ?_⟩
  intro i j o d doc₁ doc₁' hadd hadd' hdel hdel' hdoc hdoc' hdesc hthumb
  obtain ⟨doc, hget, hk⟩ := hkept i o d hadd hdel
  obtain ⟨doc', hget', hk'⟩ := kept_of_written (traced_reachable h') (written_reachable h')
    (logged_reachable h') hadd' hdel'
  obtain rfl : doc = doc₁ := Option.some.inj (hget.symm.trans hdoc)
  obtain rfl : doc' = doc₁' := Option.some.inj (hget'.symm.trans hdoc')
  refine ⟨?_, ?_⟩
  · rw [hk.description, hk'.description, hdesc]
  · by_cases hnil : thumbnails d (writes w) = []
    · have hnil' : thumbnails d (writes w') = [] := by
        refine List.eq_nil_iff_forall_not_mem.mpr fun url hurl => ?_
        have hmem := (hthumb url).mpr hurl
        simp [hnil] at hmem
      rw [hk.unlinked hnil, hk'.unlinked hnil']
    · have hne : thumbnails d (writes w') ≠ [] := by
        obtain ⟨url, hurl⟩ := List.exists_mem_of_ne_nil _ hnil
        exact List.ne_nil_of_mem ((hthumb url).mp hurl)
      rw [hk.linked hnil, hk'.linked hne]

/-- Device `0` publishes a post and two devices are shown it; one edits it and the
other links its thumbnail, in the order that `order` gives. -/
def editRun (order : List Action) : List Action :=
  let path : UUID := .sample
  let shown : Post :=
    { id := some "d", userName := some "Unknown", description := some "hello",
      path := some "7A21" }
  ([.start 0 0 (.addData path "hello" 0 [0xFF]), .serve 0 0 .success, .deliver 0 0,
    .serve 0 0 (.documentID "d"), .act (.thumbnail "7A21"), .act (.snapshot 0),
    .act (.snapshot 1), .start 1 0 (.updatePost shown "bye"),
    .start 2 1 (.checkImageURL shown "7A21"), .serve 2 0 .success,
    .deliver 2 0] : List Action) ++ order

theorem editsKept_editRun : ∃ w w' doc doc',
    Lib.run (step .plain) (initial .empty) (editRun [.serve 1 0 .success, .serve 2 0 .success]) =
      some w ∧
    Lib.run (step .plain) (initial .empty) (editRun [.serve 2 0 .success, .serve 1 0 .success]) =
      some w' ∧
    document w "d" = some doc ∧ document w' "d" = some doc' ∧
    descriptions "d" (writes w) = ["bye"] ∧ thumbnails "d" (writes w) ≠ [] ∧
    doc "description" = doc' "description" ∧ doc "imageURL" = doc' "imageURL" := by
  let o : Publication := ⟨.sample, "hello", 0, [0xFF], none⟩
  obtain ⟨w, doc, hw, hdoc, hadd, hdel, hdesc, hthumb⟩ : ∃ w doc,
      Lib.run (step .plain) (initial .empty) (editRun [.serve 1 0 .success, .serve 2 0 .success]) =
        some w ∧
      document w "d" = some doc ∧ Added w 0 o "d" ∧ .deleted "d" ∉ writes w ∧
      descriptions "d" (writes w) = ["bye"] ∧
      thumbnails "d" (writes w) = [o.thumbnailURL .plain] :=
    ⟨_, _, rfl, rfl, ⟨_, rfl, rfl, rfl⟩, by decide, by decide, by decide⟩
  obtain ⟨w', doc', hw', hdoc', hadd', hdel', hdesc', hthumb'⟩ : ∃ w doc,
      Lib.run (step .plain) (initial .empty) (editRun [.serve 2 0 .success, .serve 1 0 .success]) =
        some w ∧
      document w "d" = some doc ∧ Added w 0 o "d" ∧ .deleted "d" ∉ writes w ∧
      descriptions "d" (writes w) = ["bye"] ∧
      thumbnails "d" (writes w) = [o.thumbnailURL .plain] :=
    ⟨_, _, rfl, rfl, ⟨_, rfl, rfl, rfl⟩, by decide, by decide, by decide⟩
  refine ⟨w, w', doc, doc', hw, hw', hdoc, hdoc', hdesc, by simp [hthumb], ?_⟩
  exact (editsKept_reachable .plain .empty .empty ⟨_, hw⟩ ⟨_, hw'⟩).2 0 0 o "d" doc doc' hadd hadd'
    hdel hdel' hdoc hdoc' (hdesc.trans hdesc'.symm) fun url => by rw [hthumb, hthumb']

end FirebaseApps.SociallyUIKit
