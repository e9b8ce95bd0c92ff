import FirebaseApps.NoteApp.Moves

/-!
# NoteApp: whose notes does a note list use?

The lazy `databaseReference` of a `NoteViewModel` is made for the account that is
signed in when it is first used, and kept while the note list is shown.  The list goes
away only when the auth-state listener delivers `nil`, so an account that replaces
another one directly finds the collection of its predecessor in use.

Notes stay with the signed-in account exactly as long as no other account is signed in under
a reference that is in use (`notesStay_of_sameAccount`).
-/

namespace FirebaseApps.NoteApp

open Lib (Always StepsMeet)
open Relation (ReflTransGen)

variable {S : StorageService} {fb : Firebase} {w w' : World} {env env' : Env} {action : Action}

/-- The collections that an operation used: those it listens to, and those its
requests add to or change. -/
def collections (w : World) (i : ℕ) (op : Op) : List Path :=
  op.outs.filterMap Out.collection? ++ (w.requests i).filterMap collection?

/-- Every Firestore path that a note call used while a user was signed in is in the
collection of this user. -/
def NotesStay (w : World) : Prop :=
  ∀ i op, w.ops i = some op → op.call.isNote → ∀ user, op.origin.currentUser = some user →
    ∀ c ∈ collections w i op, c = posts user.uid

/-- A sign-in or sign-up is completed on a device only for the account whose
collection the live view model of the device holds, if it holds one. -/
def SameAccount (w : World) : Action → Prop
  | .serve i _ (.account user) => ∀ op, w.ops i = some op →
      ∀ c, (w.env.screens.viewModel op.client).cached = some c → c = posts user.uid
  | _ => True

instance (w : World) : (action : Action) → Decidable (SameAccount w action)
  | .serve i j (.account user) => by unfold SameAccount; infer_instance
  | .serve _ _ .success | .serve _ _ (.failure _) | .serve _ _ .neither
  | .serve _ _ (.documentID _) | .start .. | .deliver .. | .act _ => isTrue trivial

/-- The reference that a device holds is that of the user who is signed in there. -/
def OwnReference (env : Env) : Prop :=
  ∀ device c, (env.screens.viewModel device).cached = some c →
    ∀ user, env.firebase.currentUser device = some user → c = posts user.uid

theorem ownReference_initial (fb : Firebase) : OwnReference (initial fb).env := by
  intro device c hc
  cases hc

/-- Nothing but a sign-in puts a reference under another account. -/
theorem OwnReference.move (h : OwnReference env) (hm : Move env env') : OwnReference env' := by
  intro device c hc user huser
  cases hm with
  | @load d m hlive =>
      rw [Env.firebase_load] at huser
      by_cases hd : device = d
      · subst hd
        rw [env.viewModel_load hlive, NoteViewModel.cached, Option.join_some] at hc
        rcases Env.reference_cases hc with hcached | ⟨user', huser', rfl⟩
        · exact h device c hcached user huser
        · -- the reference is made now, for the signed-in user
          rw [Option.some.inj (huser.symm.trans huser')]
      · rw [env.viewModel_load_of_ne hd] at hc
        exact h device c hc user huser
  | @signOut d =>
      by_cases hd : device = d
      · simp [hd] at huser
      · exact h device c hc user (by simpa [hd] using huser)
  | @authState d =>
      rcases env.screens.viewModel_setUser d (env.firebase.currentUser d) device with heq | heq
      · exact h device c (by rwa [heq] at hc) user huser
      · rw [heq] at hc
        cases hc
  | @deliver s hm hs =>
      rw [Screens.viewModel_setViewModel] at hc
      split at hc
      next hlive =>
        refine h device c ?_ user huser
        rw [env.screens.viewModel_of_live hlive]
        exact hc
      next => exact h device c hc user huser
  | listen hlive hcached => exact h device c hc user huser
  | listenToAuthState => exact h device c hc user huser
  | listenerError => exact h device c hc user huser
  | takeSnapshot hl => exact h device c hc user huser

theorem OwnReference.step (h : OwnReference w.env) (hasked : Lib.World.Asked Asks w)
    (hsame : SameAccount w action) (hs : NoteApp.step S w action = some w') :
    OwnReference w'.env := by
  rcases env_step hasked hs with ⟨i, j, choice, op, r, a, firebase, rfl, hserved⟩ | ⟨-, hmoves, -⟩
  · rw [hserved.env_eq]
    intro device c hc user huser
    have hcurrent := Firebase.currentUser_serve hserved.serve
    simp only at hc huser
    rw [hcurrent] at huser
    cases choice with
    | account user' =>
        by_cases hd : device = op.client
        · subst hd
          obtain rfl : user' = user := by simpa using huser
          exact hsame op hserved.op_eq c hc
        · exact h device c hc user (by simpa [hd] using huser)
    | _ => exact h device c hc user huser
  · generalize w'.env = env' at hmoves
    induction hmoves with
    | refl => exact h
    | tail _ hmove ih => exact ih.move hmove

/-- Note calls made under one's own reference use one's own collection. -/
theorem notesStay_of_atOnce (h : Lib.World.AtOnce (host S) OwnReference w) : NotesStay w := by
  intro i op hop hcall user huser c hc
  obtain ⟨before, env, hown, horigin, haccept, houts, hrequests⟩ :=
    (h i op hop (Call.immediate_code hcall)).work
  have heffect := exec_note (S := S) hcall haccept
  obtain rfl := accept_eq haccept
  have huse : env.reference op.client = some c := by
    rw [collections, houts, hrequests] at hc
    rcases List.mem_append.mp hc with hc | hc
    · exact heffect.listens c hc
    · exact heffect.sends c hc
  have hcurrent : env.firebase.currentUser op.client = some user := by
    rw [horigin] at huser
    exact huser
  rcases Env.reference_cases huse with hcached | ⟨user', huser', rfl⟩
  · exact hown op.client c hcached user hcurrent
  · rw [Option.some.inj (hcurrent.symm.trans huser')]

/-- A note that is added under the reference of another account. -/
theorem addData_uses {i m : ℕ} {device : Device} {title : String} {c : Path} {user : User}
    (hi : w.ops i = none) (hlive : w.env.screens.live device = some m)
    (hc : (w.env.screens.viewModel device).cached = some c)
    (huser : w.env.firebase.currentUser device = some user) (hne : c ≠ posts user.uid) :
    ∃ w', step S w (.start i device (.addData title)) = some w' ∧ ¬ NotesStay w' := by
  have haccept : (host S).accept w.env device (.addData title) = some w.env := by
    simp [host, Env.accept, hlive]
  have hstart : step S w (.start i device (.addData title)) =
      some (w.resume (host S) i (Lib.World.opening (host S) w.env device (.addData title)) w.env
        (NoteViewModel.addData title)) := by
    simp only [Lib.World.step, hi, haccept]
    rfl
  refine ⟨_, hstart, fun hstay => hne ?_⟩
  refine hstay i _ (Function.update_self i _ _) rfl user huser c (List.mem_append_right _ ?_)
  have hreference : w.env.reference device = some c := by
    rw [NoteViewModel.cached, Option.join_eq_some_iff] at hc
    simp [Env.reference, NoteViewModel.reference, Env.view, hc]
  rw [Lib.World.requests_resume, if_pos rfl, List.filterMap_append]
  refine List.mem_append_right _ ?_
  rw [Lib.World.opening, requests_addData hreference]
  exact List.mem_cons_self

/-- **Where another account is signed in under a reference that is in use**, the next
note goes to the collection of its predecessor. -/
theorem addData_astray (hs : step S w action = some w') (hbad : ¬ SameAccount w action) :
    ∃ device, ∀ i title, w'.ops i = none →
      ∃ w'', step S w' (.start i device (.addData title)) = some w'' ∧ ¬ NotesStay w'' := by
  rcases Lib.World.step_cases hs with ⟨i, device, call, env, rfl, -⟩ |
    ⟨i, j, choice, op, r, callback, env, a, rfl, hi, ht, hr, rfl⟩ | ⟨i, j, op, code, rfl, -⟩ |
    ⟨a, env, rfl, -⟩
  · exact absurd trivial hbad
  · cases choice with
    | account user =>
        simp only [SameAccount, hi, Option.some.injEq, forall_eq', not_forall] at hbad
        obtain ⟨c, hc, hne⟩ := hbad
        obtain ⟨firebase, hserve, rfl⟩ := serve_eq_some hr
        have hcurrent : firebase.currentUser op.client = some user := by
          rw [Firebase.currentUser_serve hserve]
          exact Function.update_self _ _ _
        obtain ⟨m, hlive⟩ := Screens.live_of_cached hc
        exact ⟨op.client, fun k title hk => addData_uses hk hlive hc hcurrent hne⟩
    | _ => exact absurd trivial hbad
  · exact absurd trivial hbad
  · exact absurd trivial hbad

/-- **Notes stay with the signed-in account** in every run in which a sign-in or
sign-up completes only for the account whose reference is in use on the device, if one
is; otherwise the next note of that device goes astray. -/
theorem notesStay_of_sameAccount (S : StorageService) (fb : Firebase) :
    (∀ as, StepsMeet (step S) (fun w action _ => SameAccount w action) (initial fb) as →
      Always (step S) NotesStay (initial fb) as) ∧
    ∀ w action w', step S w action = some w' → ¬ SameAccount w action →
      ∃ device, ∀ i title, w'.ops i = none →
        ∃ w'', step S w' (.start i device (.addData title)) = some w'' ∧ ¬ NotesStay w'' := by
  refine ⟨fun as h => ?_, fun w action w' => addData_astray⟩
  let P : World → Prop := fun w => OwnReference w.env ∧ Lib.World.AtOnce (host S) OwnReference w
  have hP : Always (step S) P (initial fb) as := by
    refine Lib.always_of_stepsMeet (I := Calls) (fun w action w' hI hs => hI.step hs) ?_
      (calls_initial fb) ⟨ownReference_initial fb, Lib.World.atOnce_initial _⟩ h
    intro w action w' hI hP hsame hs
    exact ⟨hP.1.step hI.asked hsame hs, hP.2.step hI.accounted hP.1 hs⟩
  exact hP.mono fun w hw => notesStay_of_atOnce hw.2

/-- Two accounts that are used on one device. -/
def ana : User := ⟨"ana", some "ana@notes.app", none⟩

def ben : User := ⟨"ben", some "ben@notes.app", none⟩

/-- Ana signs in and opens her notes, and signs out before Ben signs in. -/
def oneAfterTheOther : List Action :=
  [.start 0 0 .listenToAuthState, .start 1 0 (.signIn "ana@notes.app" "secret"),
    .serve 1 0 (.account ana), .act (.authState 0), .start 2 0 .fetchData,
    .start 3 0 (.addData "milk"), .start 4 0 .signOut, .act (.authState 0),
    .start 5 0 (.signIn "ben@notes.app" "secret"), .serve 5 0 (.account ben),
    .act (.authState 0), .start 6 0 .fetchData, .start 7 0 (.addData "tea")]

theorem notesStay_oneAfterTheOther : ∃ w,
    Lib.run (step .plain) (initial .empty) oneAfterTheOther = some w ∧
      w.requests 7 = [.addDocument (posts "ben") (titleField "tea")] ∧ NotesStay w := by
  refine ⟨_, rfl, rfl, ?_⟩
  have h := (notesStay_of_sameAccount .plain .empty).1 oneAfterTheOther (by decide)
  exact h.last rfl

/-- Ana and Ben both ask to sign in; Ben's sign-in completes when Ana's notes are open. -/
def bothSignIn : List Action :=
  [.start 0 0 .listenToAuthState, .start 1 0 (.signIn "ana@notes.app" "secret"),
    .start 2 0 (.signIn "ben@notes.app" "secret"), .serve 1 0 (.account ana),
    .act (.authState 0), .start 3 0 .fetchData, .serve 2 0 (.account ben), .act (.authState 0),
    .start 4 0 (.addData "tea")]

/-- Notes go astray: Ben's note is added to the collection of Ana. -/
theorem notesAstray : ¬ ∀ (S : StorageService) (fb : Firebase) (as : List Action),
    Always (step S) NotesStay (initial fb) as := by
  intro h
  have hrun : ∃ w, Lib.run (step .plain) (initial .empty) bothSignIn = some w ∧ ¬ NotesStay w := by
    refine ⟨_, rfl, fun hstay => ?_⟩
    have hbad := hstay 4 _ rfl rfl ben rfl (posts "ana") List.mem_cons_self
    exact absurd hbad (by decide)
  obtain ⟨w, hw, hbad⟩ := hrun
  exact hbad ((h .plain .empty bothSignIn).last hw)

end FirebaseApps.NoteApp
