import FirebaseApps.SociallyUIKit.Writes

/-!
# Socially-UIKit: does a deleted post stay deleted?

`updatePost` and `checkImageURL` write with `setData(…, merge: true)`, which creates
the document when it is absent.  A post deleted while such a write is under way
therefore comes back, as a document with that one field.  The exact condition for a
run without such a return is that every merge write finds its document
(`always_neverBack_iff`).
-/

namespace FirebaseApps.SociallyUIKit

open Lib (Always StepsMeet)

variable {S : StorageService} {fb : Firebase} {w w' : World} {action : Action} {d : String}

/-- No document exists that was deleted before. -/
def NeverBack (w : World) : Prop := ∀ d, .deleted d ∈ writes w → document w d = none

/-- The document exists, or has been deleted. -/
def Known (w : World) (d : String) : Prop := (document w d).isSome ∨ .deleted d ∈ writes w

/-- What was once there stays known. -/
theorem Known.step (h : Known w d) (hcode : OnCode S (fun _ _ => True) w)
    (hs : SociallyUIKit.step S w action = some w') : Known w' d := by
  rcases h with h | h
  · rcases step_write hcode hs with ⟨heq, -⟩ | ⟨_, _, _, op, _, _, write, -, -, -, hw, happ⟩
    · exact .inl (by rwa [document, heq])
    · by_cases hd : d = write.target
      · subst hd
        rcases happ.exists_target with hsome | ⟨d', rfl⟩
        · exact .inl hsome
        · exact .inr (by simp [hw, Write.target])
      · exact .inl (by rwa [document, happ.frame hd])
  · exact .inr (writes_subset hcode hs _ h)

/-- The invariant behind the condition: posts in use have known documents, and
deleted ids are used up. -/
structure Tracked (S : StorageService) (w : World) : Prop where
  code : OnCode S (fun _ _ => True) w
  known : Held (fun p => ∀ d, p.id = some d → Known w d) w
  used : ∀ d, .deleted d ∈ writes w → ["Posts", d] ∈ w.env.firebase.firestore.used

theorem tracked_initial (S : StorageService) (fb : Firebase) : Tracked S (initial fb) where
  code := Lib.World.onCode_initial _
  known := held_initial _ fb
  used _ h := by simp [writes, initial, Lib.World.initial] at h

theorem Tracked.step (h : Tracked S w) (hs : SociallyUIKit.step S w action = some w') :
    Tracked S w' where
  code := onCode_step_any h.code hs
  known := by
    refine h.known.step h.code hs (fun p hp d hid => (hp d hid).step h.code hs) ?_ ?_
    · intro p hp d hid
      obtain ⟨d', data, hget, hinit⟩ := mem_feed hp
      obtain rfl := Option.some.inj hinit
      obtain rfl := Option.some.inj hid
      exact Known.step (.inl (by simp [hget])) h.code hs
    · intro i op p newDescription postId data edited _ _ hp hid _ hedit d hd
      obtain ⟨_, _, _, -, -, -, rfl⟩ := PostService.updatedPost_eq_some hedit
      exact (hp d (hid.trans hd)).step h.code hs
  used := by
    intro d hd
    rcases step_write h.code hs with ⟨heq, hw⟩ | ⟨_, _, _, op, _, _, write, -, -, -, hw, happ⟩
    · rw [heq]
      exact h.used d (hw ▸ hd)
    · rw [hw, List.mem_append, List.mem_singleton] at hd
      rcases hd with hd | rfl
      · exact happ.used_subset _ (h.used d hd)
      · generalize w'.env.firebase.firestore = fs at happ ⊢
        cases happ
        exact List.mem_cons_self

/-- Each merge write that is applied finds its document. -/
def MergeFindsDocument (w : World) (action : Action) : Prop :=
  ∀ i j op d fields callback, action = .serve i j .success → w.ops i = some op →
    op.tasks[j]? = some (.waiting (.setData ["Posts", d] fields true) callback) →
    (document w d).isSome

/-- After a merge write its document exists. -/
theorem document_of_merge {i j : ℕ} {op : Op} {fields : Fields}
    {callback : Option NSError → Code} (hop : w.ops i = some op)
    (ht : op.tasks[j]? = some (.waiting (.setData ["Posts", d] fields true) callback))
    (hs : step S w (.serve i j .success) = some w') : (document w' d).isSome := by
  let merged := ((document w d).getD .empty).merge fields
  have hserve : (host S).serve w.env op.client (.setData ["Posts", d] fields true) .success =
      some ({ w.env with firebase := w.env.firebase.setDocument ["Posts", d] merged }, none) := rfl
  simp only [step, Lib.World.step, hop, ht, hserve, Option.bind_some, Option.map_some,
    Option.some.injEq] at hs
  subst hs
  simp [document]

/-- A step keeps deleted posts deleted if and only if the merge write it may apply
finds its document. -/
theorem neverBack_step_iff (h : Tracked S w) (hp : NeverBack w)
    (hs : step S w action = some w') : NeverBack w' ↔ MergeFindsDocument w action := by
  constructor
  · rintro hp' i j op d fields callback rfl hop ht
    have hknown : Known w d := by
      have hwait := h.code.waiting hop ht
      obtain ⟨client, call, origin, history, outs, tasks⟩ := op
      cases hwait with
      | link hid => exact h.known.called i _ _ hop rfl d hid
      | describe hid => exact h.known.called i _ _ hop rfl d hid
    rcases hknown with hsome | hdel
    · exact hsome
    · -- a write to a deleted document would bring it back
      have hback := document_of_merge hop ht hs
      exact absurd (hp' d (writes_subset h.code hs _ hdel)) (Option.isSome_iff_ne_none.mp hback)
  · intro hfind d hd
    rcases step_write h.code hs with ⟨heq, hw⟩ |
      ⟨i, j, choice, op, r, callback, write, rfl, hop, ht, hw, happ⟩
    · rw [document, heq]
      exact hp d (hw ▸ hd)
    · rw [hw, List.mem_append, List.mem_singleton] at hd
      by_cases htarget : d = write.target
      · subst htarget
        generalize hfs' : w'.env.firebase.firestore = fs' at happ
        cases happ with
        | created user hcall hhistory hfresh =>
            obtain hd | hd := hd
            · exact absurd (h.used _ hd) hfresh
            · cases hd
        | described hcall hid =>
            obtain hd | hd := hd
            · have hsome := hfind i j op _ _ callback rfl hop ht
              exact absurd (hp _ hd) (Option.isSome_iff_ne_none.mp hsome)
            · cases hd
        | linked hcall hid =>
            obtain hd | hd := hd
            · have hsome := hfind i j op _ _ callback rfl hop ht
              exact absurd (hp _ hd) (Option.isSome_iff_ne_none.mp hsome)
            · cases hd
        | deleted hcall hid => simp [document, hfs', Write.target]
      · rw [document, happ.frame htarget]
        obtain hd | rfl := hd
        · exact hp d hd
        · exact absurd rfl htarget

/-- **Deleted posts stay deleted exactly when merge writes find their documents.** -/
theorem always_neverBack_iff (S : StorageService) (fb : Firebase) (as : List Action) :
    Always (step S) NeverBack (initial fb) as ↔
      StepsMeet (step S) (fun w action _ => MergeFindsDocument w action) (initial fb) as := by
  refine Lib.always_iff_stepsMeet (I := Tracked S) (fun w action w' h hs => h.step hs)
    (fun w action w' h hp hs => neverBack_step_iff h hp hs) (tracked_initial S fb) ?_
  intro d hd
  simp [writes, initial, Lib.World.initial] at hd

/-- Device `0` publishes a post, the feed shows it and looks its thumbnail up; the lookup is
answered, and the post is deleted before the answer is delivered.  So the merge write is sent
after the deletion, and is applied after it. -/
def lateThumbnailRun : List Action :=
  let path : UUID := .sample
  let shown : Post :=
    { id := some "d", userName := some "Unknown", description := some "hello",
      path := some "7A21" }
  [.start 0 0 (.addData path "hello" 0 [0xFF]), .serve 0 0 .success, .deliver 0 0,
    .serve 0 0 (.documentID "d"), .act (.thumbnail "7A21"), .act (.snapshot 0),
    .start 1 0 (.checkImageURL shown "7A21"), .serve 1 0 .success,
    .start 2 0 (.deletePost shown), .serve 2 0 .success, .deliver 1 0, .serve 1 0 .success]

/-- A deleted post comes back: after `lateThumbnailRun` the document exists again. -/
theorem deletedPost_returns : ¬ ∀ (S : StorageService) (fb : Firebase) (as : List Action),
    Always (step S) NeverBack (initial fb) as := by
  intro h
  have hrun : ∃ w, Lib.run (step .plain) (initial .empty) lateThumbnailRun = some w ∧
      .deleted "d" ∈ writes w ∧ (document w "d").isSome := ⟨_, rfl, by decide, by decide⟩
  obtain ⟨w, hw, hdel, hsome⟩ := hrun
  exact absurd ((h .plain .empty lateThumbnailRun).last hw "d" hdel)
    (Option.isSome_iff_ne_none.mp hsome)

end FirebaseApps.SociallyUIKit
