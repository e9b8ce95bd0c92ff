import FirebaseApps.NoteApp.Accounts
import FirebaseApps.SociallyApp.AuthState
import FirebaseApps.SociallyApp.ProfileImages

/-!
# Listener registrations

NoteApp and SociallyApp never remove a listener: `fetchData` and `listenToAuthState`
register one on each appearance of their view and drop the handle, and a snapshot
listener of NoteApp keeps its view model.  The SDK removes only the listeners of a query
that ended with an error.  So registrations pile up, and `noPileUp_iff` says exactly when
they do not.
-/

namespace FirebaseApps.Listeners

open Lib (Always StepsMeet)

variable {S : StorageService}

/-! ## NoteApp -/

section noteApp
open NoteApp
variable {w w' : World} {env env' : Env} {device : Device} {action : Action}

/-- Each view model has one snapshot listener at most, each `AuthViewModel` one auth-state
listener at most, and a view model with a listener is shown. -/
structure NoPileUp (env : Env) : Prop where
  snapshot : ∀ m, env.listeners.countP (·.viewModel = m) ≤ 1
  auth : ∀ device, env.authListeners device ≤ 1
  /-- No listener is left from a note list that was closed. -/
  shown : ∀ l ∈ env.listeners, ∃ device, env.screens.live device = some l.viewModel

/-- The note list that a device shows has a listener. -/
def Fetched (env : Env) (device : Device) : Prop :=
  ∃ l ∈ env.listeners, env.screens.live device = some l.viewModel

instance (env : Env) (device : Device) : Decidable (Fetched env device) :=
  inferInstanceAs (Decidable (∃ l ∈ env.listeners, env.screens.live device = some l.viewModel))

/-- `fetchData` is called without a reference or before the note list has a listener,
`listenToAuthState` before the device has one, and a sign-out is delivered before the note
list has a listener. -/
def Fresh (w : World) : Action → Prop
  | .start _ device .fetchData => w.env.reference device = none ∨ ¬ Fetched w.env device
  | .start _ device .listenToAuthState => w.env.authListeners device = 0
  | .act (.authState device) =>
      w.env.firebase.currentUser device = none → ¬ Fetched w.env device
  | _ => True

instance (w : World) : (action : Action) → Decidable (Fresh w action)
  | .start _ device .fetchData =>
      inferInstanceAs (Decidable (w.env.reference device = none ∨ ¬ Fetched w.env device))
  | .start _ device .listenToAuthState =>
      inferInstanceAs (Decidable (w.env.authListeners device = 0))
  | .act (.authState device) => inferInstanceAs (Decidable
      (w.env.firebase.currentUser device = none → ¬ Fetched w.env device))
  | .start _ _ (.signIn ..) | .start _ _ (.signUp ..) | .start _ _ .signOut
  | .start _ _ (.addData _) | .start _ _ (.updateData ..) | .start _ _ (.deleteData _)
  | .serve .. | .deliver .. | .act (.takeSnapshot _) | .act (.deliverSnapshot _)
  | .act (.listenerError _) => isTrue trivial

/-- What is registered, and what is shown, is the same. -/
structure SameRegistrations (env env' : Env) : Prop where
  listeners : env'.listeners = env.listeners
  authListeners : env'.authListeners = env.authListeners
  live : env'.screens.live = env.screens.live

theorem SameRegistrations.refl (env : Env) : SameRegistrations env env := ⟨rfl, rfl, rfl⟩

theorem SameRegistrations.trans {env'' : Env} (h : SameRegistrations env env')
    (h' : SameRegistrations env' env'') : SameRegistrations env env'' :=
  ⟨h'.listeners.trans h.listeners, h'.authListeners.trans h.authListeners, h'.live.trans h.live⟩

theorem SameRegistrations.load (env : Env) (device : Device) :
    SameRegistrations env (env.load device) := by
  refine ⟨?_, ?_, env.live_load device⟩ <;>
  · unfold Env.load
    split <;> rfl

/-- A use of the reference registers what is registered with its value. -/
theorem SameRegistrations.use {k : Option Path → Code}
    (h : SameRegistrations (env.load device)
      ((host S).exec device (k (env.reference device)) (env.load device)).env) :
    SameRegistrations env
      ((host S).exec device (NoteViewModel.useDatabaseReference k) env).env := by
  obtain ⟨loads, -, heq⟩ := exec_useDatabaseReference (S := S) k env device
  rw [heq]
  exact (SameRegistrations.load env device).trans h

theorem SameRegistrations.deleteEach (indices : List ℕ) (env : Env) (device : Device) :
    SameRegistrations env ((host S).exec device (NoteViewModel.deleteEach indices) env).env := by
  induction indices generalizing env with
  | nil => exact .refl env
  | cons index indices ih =>
      rw [NoteViewModel.deleteEach, Lib.Host.exec]
      cases hnote : ((host S).view env device).viewModel.notes[index]? with
      | none => exact .refl env
      | some note =>
          refine .use ?_
          cases env.reference device with
          | none => exact ih _
          | some collection => exact ih _

/-- Nothing new is registered, and what is shown is the same. -/
structure FewerRegistrations (env env' : Env) : Prop where
  listeners : env'.listeners.Sublist env.listeners
  authListeners : env'.authListeners = env.authListeners
  live : env'.screens.live = env.screens.live

theorem SameRegistrations.fewer (h : SameRegistrations env env') : FewerRegistrations env env' :=
  ⟨h.listeners ▸ .refl _, h.authListeners, h.live⟩

theorem FewerRegistrations.refl (env : Env) : FewerRegistrations env env := ⟨.refl _, rfl, rfl⟩

/-- The listener that `fetchData` registers. -/
theorem listeners_fetchData {m : ℕ} {c : Path} (hlive : env.screens.live device = some m)
    (hc : env.reference device = some c) :
    let env' := ((host S).exec device NoteViewModel.fetchData env).env
    env'.listeners = env.listeners ++ [⟨device, m, c⟩] ∧
      env'.authListeners = env.authListeners ∧ env'.screens.live = env.screens.live := by
  have hload := SameRegistrations.load env device
  have hlive' : (env.load device).screens.live device = some m := by simpa using hlive
  have henv : ((host S).exec device NoteViewModel.fetchData env).env =
      { env.load device with listeners := (env.load device).listeners ++ [⟨device, m, c⟩] } := by
    obtain ⟨loads, -, heq⟩ := exec_useDatabaseReference (S := S) _ env device
    rw [NoteViewModel.fetchData, heq, hc]
    simp [Lib.Host.exec, host, Env.emit, hlive']
  simp only [henv]
  exact ⟨by rw [hload.listeners], hload.authListeners, hload.live⟩

/-- **What a step does to the registrations**: `fetchData` and `listenToAuthState` register
a listener, the auth state changes what is shown, and other steps register nothing. -/
theorem registrations_step (hasked : Lib.World.Asked Asks w) (hs : step S w action = some w') :
    (∃ i device m c, action = .start i device .fetchData ∧ w.env.reference device = some c ∧
      w.env.screens.live device = some m ∧
      w'.env.listeners = w.env.listeners ++ [⟨device, m, c⟩] ∧
      w'.env.authListeners = w.env.authListeners ∧ w'.env.screens.live = w.env.screens.live) ∨
    (∃ i device, action = .start i device .listenToAuthState ∧
      w'.env.listeners = w.env.listeners ∧ w'.env.authListeners =
        Function.update w.env.authListeners device (w.env.authListeners device + 1) ∧
      w'.env.screens.live = w.env.screens.live) ∨
    (∃ device, action = .act (.authState device) ∧ w'.env = { w.env with
      screens := w.env.screens.setUser device (w.env.firebase.currentUser device) }) ∨
    (Fresh w action ∧ FewerRegistrations w.env w'.env) := by
  rcases Lib.World.step_cases hs with ⟨i, device, call, env, rfl, hi, ha, rfl⟩ |
    ⟨i, j, choice, op, r, callback, env, a, rfl, hi, ht, hr, rfl⟩ |
    ⟨i, j, op, code, rfl, hi, ht, rfl⟩ | ⟨a, env, rfl, ha, rfl⟩
  · have haccept : w.env.accept device call = some env := ha
    obtain rfl := accept_eq haccept
    simp only [Lib.World.env_resume, Lib.World.opening]
    cases call with
    | fetchData =>
        obtain ⟨m, hlive⟩ := live_of_accept rfl haccept
        cases hc : w.env.reference device with
        | none =>
            refine .inr (.inr (.inr ⟨.inl hc, ?_⟩))
            refine (SameRegistrations.use ?_).fewer
            rw [hc]
            exact .refl _
        | some c =>
            exact .inl ⟨i, device, m, c, rfl, hc, hlive, listeners_fetchData hlive hc⟩
    | listenToAuthState => exact .inr (.inl ⟨i, device, rfl, rfl, rfl, rfl⟩)
    | addData title =>
        refine .inr (.inr (.inr ⟨trivial, (SameRegistrations.use ?_).fewer⟩))
        cases w.env.reference device <;> exact .refl _
    | updateData title id =>
        refine .inr (.inr (.inr ⟨trivial, (SameRegistrations.use ?_).fewer⟩))
        cases w.env.reference device <;> exact .refl _
    | deleteData indexSet =>
        exact .inr (.inr (.inr ⟨trivial, (SameRegistrations.deleteEach _ _ _).fewer⟩))
    | signIn email password => exact .inr (.inr (.inr ⟨trivial, .refl _⟩))
    | signUp email password => exact .inr (.inr (.inr ⟨trivial, .refl _⟩))
    | signOut => exact .inr (.inr (.inr ⟨trivial, .refl _, rfl, rfl⟩))
  · obtain ⟨firebase, -, rfl⟩ := serve_eq_some hr
    exact .inr (.inr (.inr ⟨trivial, .refl _, rfl, rfl⟩))
  · have hsilent : code.Silent (Asks op.call) := hasked i op hi _ (List.mem_of_getElem? ht)
    rw [Lib.World.env_resume, hsilent.env_exec]
    exact .inr (.inr (.inr ⟨trivial, .refl _⟩))
  · cases a with
    | authState device =>
        obtain ⟨-, heq⟩ := Option.ite_none_left_eq_some.mp ha
        obtain rfl := Option.some.inj heq
        exact .inr (.inr (.inl ⟨device, rfl, rfl⟩))
    | takeSnapshot listener =>
        obtain ⟨l, -, rfl⟩ := Option.map_eq_some_iff.mp ha
        exact .inr (.inr (.inr ⟨trivial, .refl _, rfl, rfl⟩))
    | deliverSnapshot snapshot =>
        obtain ⟨s, -, hreceive⟩ := Option.bind_eq_some_iff.mp ha
        obtain ⟨hm, heq⟩ := Option.dite_none_right_eq_some.mp hreceive
        obtain rfl := Option.some.inj heq
        exact .inr (.inr (.inr ⟨trivial, .refl _, rfl, rfl⟩))
    | listenerError listener =>
        obtain ⟨l, -, ha⟩ := Option.bind_eq_some_iff.mp ha
        obtain ⟨env, hreceive, rfl⟩ := Option.map_eq_some_iff.mp ha
        obtain rfl := receive_none hreceive
        exact .inr (.inr (.inr ⟨trivial, List.filter_sublist, rfl, rfl⟩))

/-- A sign-out closes the note list. -/
theorem live_setUser_none (s : Screens) (device : Device) :
    (s.setUser device none).live = Function.update s.live device none := by
  unfold Screens.setUser
  split
  · rfl
  next heq _ => cases heq
  next heq _ => cases heq

/-- A note list that is shown stays while there is a user. -/
theorem live_setUser_some (s : Screens) {device d : Device} {m : ℕ} (user : User)
    (h : s.live d = some m) : (s.setUser device (some user)).live d = some m := by
  by_cases hd : d = device
  · subst hd
    unfold Screens.setUser
    split
    next heq => cases heq
    · exact h
    next hnone => cases hnone.symm.trans h
  · rw [(s.live_setUser device (some user)).1 d hd, h]

/-- Registrations that are removed do not pile up. -/
theorem NoPileUp.fewer (h : NoPileUp env) (hfewer : FewerRegistrations env env') :
    NoPileUp env' := by
  refine ⟨fun m => (hfewer.listeners.countP_le).trans (h.snapshot m),
    hfewer.authListeners ▸ h.auth, fun l hl => ?_⟩
  rw [hfewer.live]
  exact h.shown l (hfewer.listeners.subset hl)

/-- A listener more. -/
theorem NoPileUp.fetch_iff (h : NoPileUp env) {m : ℕ} {c : Path}
    (hlive : env.screens.live device = some m)
    (hlisteners : env'.listeners = env.listeners ++ [⟨device, m, c⟩])
    (hauth : env'.authListeners = env.authListeners)
    (hsame : env'.screens.live = env.screens.live) :
    NoPileUp env' ↔ ¬ Fetched env device := by
  constructor
  · rintro h' ⟨l, hl, hshown⟩
    obtain rfl : m = l.viewModel := Option.some.inj (hlive.symm.trans hshown)
    have hpos : 0 < env.listeners.countP (·.viewModel = l.viewModel) :=
      List.countP_pos_iff.mpr ⟨l, hl, by simp⟩
    have htwo := h'.snapshot l.viewModel
    rw [hlisteners, List.countP_append, List.countP_singleton] at htwo
    simp only [decide_true, if_true] at htwo
    omega
  · intro hfetched
    refine ⟨fun n => ?_, hauth ▸ h.auth, fun l hl => ?_⟩
    · rw [hlisteners, List.countP_append, List.countP_singleton]
      by_cases hn : m = n
      · subst hn
        have hzero : env.listeners.countP (·.viewModel = m) = 0 :=
          List.countP_eq_zero.mpr fun l hl heq =>
            hfetched ⟨l, hl, by rw [hlive, of_decide_eq_true heq]⟩
        simp [hzero]
      · simpa [hn] using h.snapshot n
    · rw [hlisteners, List.mem_append, List.mem_singleton] at hl
      rw [hsame]
      rcases hl with hl | rfl
      · exact h.shown l hl
      · exact ⟨device, hlive⟩

/-- An auth-state listener more. -/
theorem NoPileUp.listen_iff (h : NoPileUp env) (hlisteners : env'.listeners = env.listeners)
    (hauth : env'.authListeners =
      Function.update env.authListeners device (env.authListeners device + 1))
    (hsame : env'.screens.live = env.screens.live) :
    NoPileUp env' ↔ env.authListeners device = 0 := by
  constructor
  · intro h'
    have hone := h'.auth device
    rw [hauth, Function.update_self] at hone
    omega
  · intro hzero
    refine ⟨hlisteners ▸ h.snapshot, fun d => ?_, by rw [hlisteners, hsame]; exact h.shown⟩
    rw [hauth]
    by_cases hd : d = device
    · subst hd
      rw [Function.update_self, hzero]
    · rw [Function.update_of_ne hd]
      exact h.auth d

/-- The auth state is delivered. -/
theorem NoPileUp.authState_iff (h : NoPileUp env) (user : Option User) :
    NoPileUp { env with screens := env.screens.setUser device user } ↔
      (user = none → ¬ Fetched env device) := by
  cases user with
  | some user =>
      refine ⟨fun _ hnone => (by cases hnone), fun _ => ⟨h.snapshot, h.auth, fun l hl => ?_⟩⟩
      obtain ⟨d, hd⟩ := h.shown l hl
      exact ⟨d, live_setUser_some _ user hd⟩
  | none =>
      have hlive := live_setUser_none env.screens device
      constructor
      · rintro h' - ⟨l, hl, hshown⟩
        obtain ⟨d, hd⟩ := h'.shown l hl
        rw [hlive] at hd
        by_cases hdev : d = device
        · simp [hdev] at hd
        · rw [Function.update_of_ne hdev] at hd
          exact hdev (env.screens.own d device _ hd hshown)
      · intro hfetched
        refine ⟨h.snapshot, h.auth, fun l hl => ?_⟩
        obtain ⟨d, hd⟩ := h.shown l hl
        have hdev : d ≠ device := by
          rintro rfl
          exact hfetched rfl ⟨l, hl, hd⟩
        exact ⟨d, by rw [hlive, Function.update_of_ne hdev, hd]⟩

/-- **One step**: registrations do not pile up in it if and only if it is `Fresh`. -/
theorem NoPileUp.step_iff (hasked : Lib.World.Asked Asks w) (h : NoPileUp w.env)
    (hs : step S w action = some w') : NoPileUp w'.env ↔ Fresh w action := by
  rcases registrations_step hasked hs with
    ⟨i, device, m, c, rfl, hc, hlive, hlisteners, hauth, hsame⟩ |
    ⟨i, device, rfl, hlisteners, hauth, hsame⟩ | ⟨device, rfl, henv⟩ | ⟨hfresh, hfewer⟩
  · rw [h.fetch_iff hlive hlisteners hauth hsame]
    simp [Fresh, hc]
  · exact h.listen_iff hlisteners hauth hsame
  · rw [henv]
    exact h.authState_iff _
  · exact ⟨fun _ => hfresh, fun _ => h.fewer hfewer⟩

end noteApp

/-! ## SociallyApp -/

section sociallyApp
open SociallyApp.AuthState
variable {w w' : World} {action : Action}

/-- Each `AuthViewModel` has one auth-state listener at most. -/
def OneListener (env : Env) : Prop := ∀ device, (env.listeners device).length ≤ 1

/-- `listenToAuthState` is called only where nothing is registered. -/
def FirstAppearance (w : World) : Action → Prop
  | .act (.listenToAuthState device) => w.env.listeners device = []
  | _ => True

instance (w : World) : (action : Action) → Decidable (FirstAppearance w action)
  | .act (.listenToAuthState device) => inferInstanceAs (Decidable (w.env.listeners device = []))
  | .start .. | .serve .. | .deliver .. | .act (.signIn ..) | .act (.signOut _)
  | .act (.runBlock _) | .act (.thumbnail _) => isTrue trivial

/-- **One step** leaves one listener at most if and only if it is a `FirstAppearance`. -/
theorem OneListener.step_iff (h : OneListener w.env) (hs : step S w action = some w') :
    OneListener w'.env ↔ FirstAppearance w action := by
  rcases step_listeners hs with ⟨device, rfl, hlisteners⟩ | ⟨hother, hlength⟩
  · rw [OneListener, hlisteners, FirstAppearance]
    constructor
    · intro h'
      have hone := h' device
      rw [Function.update_self, List.length_append, List.length_singleton] at hone
      exact List.eq_nil_of_length_eq_zero (by omega)
    · intro hnil d
      by_cases hd : d = device
      · subst hd
        simp [hnil]
      · rw [Function.update_of_ne hd]
        exact h d
  · have hfirst : FirstAppearance w action := by
      unfold FirstAppearance
      split
      next device => exact absurd rfl (hother device)
      · trivial
    refine ⟨fun _ => hfirst, fun _ device => ?_⟩
    rw [hlength]
    exact h device

end sociallyApp

/-! ## Both apps -/

/-- **Listener registrations do not pile up** along a run, in either app, if and only if
its steps are the ones named. -/
theorem noPileUp_iff (S : StorageService) (fb : Firebase) (uuids : List UUID) :
    (∀ as, Always (NoteApp.step S) (fun w => NoPileUp w.env) (NoteApp.initial fb) as ↔
      StepsMeet (NoteApp.step S) (fun w action _ => Fresh w action) (NoteApp.initial fb) as) ∧
    ∀ as, Always (SociallyApp.AuthState.step S) (fun w => OneListener w.env)
        (SociallyApp.AuthState.initial fb uuids) as ↔
      StepsMeet (SociallyApp.AuthState.step S) (fun w action _ => FirstAppearance w action)
        (SociallyApp.AuthState.initial fb uuids) as := by
  constructor
  · intro as
    refine Lib.always_iff_stepsMeet (I := NoteApp.Calls) (fun w action w' hI hs => hI.step hs)
      (fun w action w' hI h hs => h.step_iff hI.asked hs) (NoteApp.calls_initial fb) ?_
    exact ⟨fun m => Nat.zero_le 1, fun device => Nat.zero_le 1, fun l hl => by cases hl⟩
  · intro as
    refine Lib.always_iff_stepsMeet (I := fun _ => True) (fun _ _ _ _ _ => trivial)
      (fun w action w' _ h hs => h.step_iff hs) trivial ?_
    exact fun device => Nat.zero_le 1

/-- Ana signs in, her notes appear, and they are fetched. -/
def appearOnce : List NoteApp.Action :=
  [.start 0 0 .listenToAuthState, .start 1 0 (.signIn "ana@notes.app" "secret"),
    .serve 1 0 (.account NoteApp.ana), .act (.authState 0), .start 2 0 .fetchData,
    .act (.takeSnapshot 0), .act (.deliverSnapshot 0)]

/-- The profile appears once, and Ada signs in. -/
def signInOnce : List SociallyApp.AuthState.Action :=
  [.act (.listenToAuthState 0), .act (.runBlock 0), .act (.signIn 0 SociallyApp.ada),
    .act (.runBlock 0)]

theorem noPileUp_appearOnce :
    Always (NoteApp.step .plain) (fun w => NoPileUp w.env) (NoteApp.initial .empty) appearOnce ∧
    Always (SociallyApp.AuthState.step .plain) (fun w => OneListener w.env)
      (SociallyApp.AuthState.initial .empty []) signInOnce :=
  ⟨((noPileUp_iff .plain .empty []).1 appearOnce).mpr (by decide),
    ((noPileUp_iff .plain .empty []).2 signInOnce).mpr (by decide)⟩

/-- Listeners pile up: the second time that the note list appears, its view model gets a
second listener. -/
theorem listenersPileUp : ¬ ∀ (S : StorageService) (fb : Firebase) (uuids : List UUID),
    (∀ as, Always (NoteApp.step S) (fun w => NoPileUp w.env) (NoteApp.initial fb) as) ∧
    ∀ as, Always (SociallyApp.AuthState.step S) (fun w => OneListener w.env)
      (SociallyApp.AuthState.initial fb uuids) as := by
  intro h
  have hrun : ∃ w, Lib.run (NoteApp.step .plain) (NoteApp.initial .empty)
      (appearOnce ++ [.start 3 0 .fetchData]) = some w ∧ ¬ NoPileUp w.env := by
    refine ⟨_, rfl, fun hsingle => ?_⟩
    exact absurd (hsingle.snapshot 0) (by decide)
  obtain ⟨w, hw, hbad⟩ := hrun
  exact hbad (((h .plain .empty []).1 _).last hw)

end FirebaseApps.Listeners
