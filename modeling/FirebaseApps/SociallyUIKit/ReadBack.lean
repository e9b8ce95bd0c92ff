import FirebaseApps.Lib.Interleaving
import FirebaseApps.SociallyUIKit.Board
import FirebaseApps.SociallyUIKit.Edits

/-!
# Socially-UIKit: edits read back

`updatePost` writes a description and reads the document back, in two requests, and any
number of other writes may be served in between.  What it reports is still what one edit at
one point of the log would have reported: the write is in the log, the read comes after it,
nobody had deleted the post by then, and the description is the last one written from the
one to the other, its own unless another edit overtook it (`linearized_of_updated`).
-/

namespace FirebaseApps.SociallyUIKit

variable {S : StorageService} {fb : Firebase} {w w' : World} {action : Action} {d : String}

/-! ## What a read finds -/

/-- What the writes leave of the document `d`, which starts as the backend has it. -/
def documentAfter (fb : Firebase) (d : String) (ws : List Write) : Option Document :=
  ((writesTo d ws).map Write.change).foldl Change.apply (fb.firestore.get ["Posts", d])

/-- A document that was read is what the writes before the read have left, and if the feed
would list it then none of them has deleted it. -/
def ReadsPrefix (fb : Firebase) (log : List Entry) (entry : Entry) : Prop :=
  ∀ i call d data, entry = ⟨i, call, ok (.getDocument ["Posts", d]) (some ⟨d, some data⟩, none)⟩ →
    documentAfter fb d (log.filterMap write?) = some data ∧
      (isListed data = true → .deleted d ∉ log.filterMap write?)

/-- What is known of the log of a run. -/
structure ReadBack (S : StorageService) (fb : Firebase) (w : World) : Prop where
  code : OnCode S (fun _ _ => True) w
  written : Written fb w
  gone : ∀ d, .deleted d ∈ writes w → Gone w d
  interleaved : Lib.World.Interleaved w
  reads : Lib.World.Recorded (ReadsPrefix fb) w

theorem readBack_initial (S : StorageService) (fb : Firebase) : ReadBack S fb (initial fb) where
  code := Lib.World.onCode_initial _
  written := written_initial fb
  gone d hd := by cases hd
  interleaved := Lib.World.interleaved_initial _
  reads := Lib.World.recorded_initial _

/-- The entry that a step writes, when it is a read. -/
theorem ReadBack.read (h : ReadBack S fb w) (hs : SociallyUIKit.step S w action = some w')
    {entry : Entry} (hentry : w'.log = w.log ++ [entry]) : ReadsPrefix fb w.log entry := by
  rintro i call d data rfl
  rcases Lib.World.step_cases hs with ⟨k, device, call', env, rfl, hk, ha, rfl⟩ |
    ⟨k, j, choice, op, r, callback, env, a, rfl, hk, ht, hr, rfl⟩ |
    ⟨k, j, op, code, rfl, hk, ht, rfl⟩ | ⟨a, env, rfl, ha, rfl⟩
  · simp at hentry
  · obtain ⟨firebase, hfb, -⟩ := serve_eq_some hr
    rw [Lib.World.log_answer] at hentry
    have heq := List.append_cancel_left hentry
    simp only [List.cons.injEq, Lib.Entry.mk.injEq, and_true] at heq
    obtain ⟨rfl, rfl, hevent⟩ := heq
    cases hevent
    have hget : document w d = some data := Firebase.data_of_serve hfb
    refine ⟨?_, fun hlisted hdel => ?_⟩
    · rw [← hget, h.written.replay d]
      rfl
    · -- the board would have nothing at `d`
      have hentry : (board (database w)).entry d = some data :=
        Option.filter_eq_some_iff.mpr ⟨hget, hlisted⟩
      rw [(h.gone d hdel).2] at hentry
      cases hentry
  · simp at hentry
  · simp at hentry

theorem ReadBack.step (h : ReadBack S fb w) (hs : SociallyUIKit.step S w action = some w') :
    ReadBack S fb w' where
  code := onCode_step_any h.code hs
  written := h.written.step h.code hs
  gone := gone_step h.code h.gone hs
  interleaved := h.interleaved.step hs
  reads := h.reads.step hs fun _ => h.read hs

theorem readBack_reachable (h : Reachable S fb w) : ReadBack S fb w :=
  h.invariant (readBack_initial S fb) fun _ _ _ hinv hs => hinv.step hs

/-! ## Edits -/

/-- A document is created by the first write to it. -/
theorem Written.not_created_after (h : Written fb w) {ws ws' : List Write} {write : Write}
    (hw : writes w = ws ++ write :: ws') (hd : write.target = d) {fields : Fields} :
    .created d fields ∉ ws' := by
  intro hmem
  have hall : .created d fields ∈ writes w := by
    rw [hw]
    exact List.mem_append_right _ (List.mem_cons_of_mem _ hmem)
  obtain ⟨-, rest, hrest, hno⟩ := h.created d fields hall
  rw [hw, writesTo_append] at hrest
  have hlater : .created d fields ∈ writesTo d ws' := mem_writesTo.mpr ⟨hmem, rfl⟩
  have hcons : writesTo d (write :: ws') = write :: writesTo d ws' := by
    simp [writesTo, hd]
  rw [hcons] at hrest
  cases hfirst : writesTo d ws with
  | nil =>
      rw [hfirst, List.nil_append] at hrest
      obtain ⟨-, rfl⟩ := List.cons.inj hrest
      exact hno fields hlater
  | cons first others =>
      rw [hfirst, List.cons_append] at hrest
      obtain ⟨-, rfl⟩ := List.cons.inj hrest
      exact hno fields (List.mem_append_right _ (List.mem_cons_of_mem _ hlater))

/-- The description after an edit, when the document is neither created nor deleted later. -/
theorem description_documentAfter {ws ws' : List Write} {s : String} {data : Document}
    (hcreated : ∀ fields, .created d fields ∉ ws') (hdel : .deleted d ∉ ws')
    (h : documentAfter fb d (ws ++ .described d s :: ws') = some data) :
    data "description" = some (.string ((descriptions d ws').getLastD s)) := by
  have hedits : ∀ write ∈ writesTo d ws', write.edit?.isSome := by
    intro write hmem
    obtain ⟨hwrite, rfl⟩ := mem_writesTo.mp hmem
    cases write with
    | created d fields => exact absurd hwrite (hcreated fields)
    | deleted d => exact absurd hwrite hdel
    | described d description => rfl
    | linked d url => rfl
  have hwrites : writesTo d (ws ++ .described d s :: ws') =
      writesTo d ws ++ .described d s :: writesTo d ws' := by
    simp [writesTo, Write.target]
  rw [documentAfter, hwrites, List.map_append, List.foldl_append, List.map_cons, List.foldl_cons,
    map_change hedits] at h
  -- what was there before the edit does not matter
  generalize ((writesTo d ws).map Write.change).foldl Change.apply (fb.firestore.get ["Posts", d]) =
    old at h
  rw [Write.change, Change.apply, Document.foldl_apply_merge] at h
  obtain rfl := Option.some.inj h
  rw [Document.replay_key, lastEdit_description, descriptions, List.getLastD_eq_getLast?]
  cases ((writesTo d ws').filterMap Write.description?).getLast? <;> rfl

/-- The entry of the write of an edit. -/
abbrev describeEntry (i : ℕ) (post : Post) (d newDescription : String) : Entry :=
  ⟨i, .updatePost post newDescription, ok (describe d newDescription) none⟩

/-- The entry of the read of an edit that has found `data`. -/
abbrev readEntry (i : ℕ) (post : Post) (d newDescription : String) (data : Document) : Entry :=
  ⟨i, .updatePost post newDescription,
    ok (.getDocument ["Posts", d]) (some ⟨d, some data⟩, none)⟩

/-- The writes of a log with the write of an edit in it. -/
theorem writes_describeEntry (i : ℕ) (post : Post) (newDescription : String)
    (before between : List Entry) :
    (before ++ describeEntry i post d newDescription :: between).filterMap write? =
      before.filterMap write? ++ .described d newDescription :: between.filterMap write? := by
  rw [List.filterMap_append, List.filterMap_cons]
  rfl

/-- What an edit reads when the feed would list what it has found. -/
theorem ReadBack.edit_reads (h : ReadBack S fb w) {i : ℕ} {post : Post} {newDescription : String}
    {data : Document} {before between after : List Entry}
    (hlog : w.log = before ++ describeEntry i post d newDescription :: between ++
      readEntry i post d newDescription data :: after) (hlisted : isListed data = true) :
    .deleted d ∉ (before ++ between).filterMap write? ∧ data "description" =
      some (.string ((descriptions d (between.filterMap write?)).getLastD newDescription)) := by
  obtain ⟨hdata, hkept⟩ := h.reads _ _ _ hlog i _ d data rfl
  have hdel := hkept hlisted
  rw [writes_describeEntry] at hdata hdel
  have hwrites : writes w = before.filterMap write? ++ .described d newDescription ::
      (between ++ readEntry i post d newDescription data :: after).filterMap write? := by
    rw [writes, hlog, List.append_assoc, List.cons_append, writes_describeEntry]
  refine ⟨?_, description_documentAfter (fun fields hmem => ?_) ?_ hdata⟩
  · rw [List.filterMap_append]
    simpa using hdel
  · have hno : Write.created d fields ∉ _ := h.written.not_created_after hwrites rfl
    rw [List.filterMap_append] at hno
    exact hno (List.mem_append_left _ hmem)
  · intro hmem
    exact hdel (List.mem_append_right _ (List.mem_cons_of_mem _ hmem))

/-- The edit of operation `i`, as its place in the log shows it: its write and its read are in
the log, the post was not deleted before the read, and what it has reported is the last
description written from its own write to its read. -/
def Linearized (w : World) (i : ℕ) (post : Post) (newDescription : String) (edited : Post) : Prop :=
  ∃ d before between after data, post.id = some d ∧ edited.id = some d ∧
    w.log = before ++ describeEntry i post d newDescription :: between ++
      readEntry i post d newDescription data :: after ∧
    (∀ entry ∈ between, entry.op ≠ i) ∧
    .deleted d ∉ (before ++ between).filterMap write? ∧
    edited.description =
      some ((descriptions d (between.filterMap write?)).getLastD newDescription)

/-- **Edits that report success are linearized**, where their reads are answered by the server
while the device has no later write to the document pending. -/
theorem linearized_of_updated (h : Reachable S fb w) {i : ℕ} {op : Op} {post edited : Post}
    {newDescription : String} (hop : w.ops i = some op)
    (hcall : op.call = .updatePost post newDescription)
    (hout : .updated (.ok edited) ∈ op.outs) : Linearized w i post newDescription edited := by
  have hinv := readBack_reachable h
  obtain ⟨hat, hmeets⟩ := hinv.code.at_meets hop
  obtain ⟨served, ⟨rest, hhistory⟩, hreport⟩ := Lib.Code.At.reported hmeets hat hout
  rw [hcall] at hreport
  cases hreport with
  | @updated _ _ d data _ hid hedit =>
    obtain ⟨before, between, after, hlog, hothers⟩ := hinv.interleaved.split hop hhistory.symm
    rw [hcall] at hlog
    obtain ⟨description, imageURL, date, hdescription, -, hdate, rfl⟩ :=
      PostService.updatedPost_eq_some hedit
    have hlisted : isListed data = true := by
      obtain ⟨v, hv, -⟩ := Option.bind_eq_some_iff.mp hdate
      rw [isListed, hv]
      rfl
    obtain ⟨hdel, hvalue⟩ := hinv.edit_reads hlog hlisted
    refine ⟨d, before, between, after, data, hid, rfl, hlog, hothers, hdel, ?_⟩
    rw [Document.string, hvalue] at hdescription
    exact hdescription.symm

/-- The post that the feed shows before its thumbnail is linked. -/
def shownFirst : Post :=
  { id := some "a", userName := some "Unknown", description := some "first", path := some "7A21" }

/-- Two edits of one post; the second writes before the first reads. -/
def overtakenEditRun : List Action :=
  [.start 0 0 (.addData .sample "first" 0 [0xFF]), .serve 0 0 .success, .deliver 0 0,
    .serve 0 0 (.documentID "a"), .act (.thumbnail "7A21"), .act (.snapshot 0),
    .start 1 0 (.checkImageURL shownFirst "7A21"), .serve 1 0 .success, .deliver 1 0,
    .serve 1 0 .success, .start 2 0 (.updatePost shownFirst "one"),
    .start 3 0 (.updatePost shownFirst "two"), .serve 2 0 .success, .serve 3 0 .success,
    .deliver 2 0, .serve 2 0 .success, .deliver 2 0]

/-- The first edit reports what the second has written. -/
theorem linearized_overtaken : ∃ w,
    Lib.run (step .plain) (initial .empty) overtakenEditRun = some w ∧
    Linearized w 2 shownFirst "one"
      (Post.initValues "a" "two" "https://storage/thumbs/7A21_320x200" 0) := by
  have hrun : ∃ w op, Lib.run (step .plain) (initial .empty) overtakenEditRun = some w ∧
      w.ops 2 = some op ∧ op.call = .updatePost shownFirst "one" ∧
      op.outs = [.updated (.ok
        (Post.initValues "a" "two" "https://storage/thumbs/7A21_320x200" 0))] :=
    ⟨_, _, rfl, rfl, rfl, rfl⟩
  obtain ⟨w, op, hw, hop, hcall, houts⟩ := hrun
  have hreach : Reachable .plain .empty w := ⟨_, hw⟩
  exact ⟨w, hw, linearized_of_updated hreach hop hcall (by simp [houts])⟩

end FirebaseApps.SociallyUIKit
