import FirebaseApps.NoteApp.Operations

/-!
# NoteApp: devices, screens and listeners

`HolderView` shows a `NoteListView` exactly while `authModel.user` is not `nil`, and
the list owns its `NoteViewModel`.  `Screens` has this as its invariant.  View models
are numbered and never forgotten, because the snapshot listeners they have registered
go on delivering to them.

The auth-state listener delivers the user who is signed in at that moment.  A snapshot
listener takes snapshots of its collection; a snapshot that was taken may be delivered
at any later time.
-/

namespace FirebaseApps.NoteApp

/-! ## Screens -/

/-- What each device shows, and the view models made so far, by number. -/
structure Screens where
  /-- `AuthViewModel.user`. -/
  user : Device → Option User
  /-- The view model of the `NoteListView` that is shown. -/
  live : Device → Option ℕ
  viewModels : ℕ → NoteViewModel
  /-- The number of view models made. -/
  made : ℕ
  shown : ∀ device, (live device).isSome = (user device).isSome
  lt_made : ∀ device m, live device = some m → m < made
  own : ∀ device device' m, live device = some m → live device' = some m → device = device'
  new : ∀ m, made ≤ m → viewModels m = .new

namespace Screens

/-- `SignUpView` on all devices. -/
def initial : Screens where
  user _ := none
  live _ := none
  viewModels _ := .new
  made := 0
  shown _ := rfl
  lt_made _ _ h := by cases h
  own _ _ _ h := by cases h
  new _ _ := rfl

/-- Change a view model. -/
def setViewModel (s : Screens) (m : ℕ) (hm : m < s.made) (viewModel : NoteViewModel) : Screens :=
  { s with
    viewModels := Function.update s.viewModels m viewModel
    new := fun n hn => by
      rw [Function.update_of_ne (by omega)]
      exact s.new n hn }

/-- The view model of a device; a fresh one stands for a missing one. -/
def viewModel (s : Screens) (device : Device) : NoteViewModel :=
  ((s.live device).map s.viewModels).getD .new

/-- Change the view model that a device shows. -/
def setLive (s : Screens) (device : Device) (viewModel : NoteViewModel) : Screens :=
  match h : s.live device with
  | none => s
  | some m => s.setViewModel m (s.lt_made device m h) viewModel

/-- `self?.user = user`, and the switch of `HolderView` that follows: a list that is
shown stays while there is a user, and a list that appears has a new view model. -/
def setUser (s : Screens) (device : Device) (user : Option User) : Screens :=
  match user, hlive : s.live device with
  | none, _ =>
      { s with
        user := Function.update s.user device none
        live := Function.update s.live device none
        shown := fun d => by
          by_cases hd : d = device
          · simp [hd]
          · simpa [hd] using s.shown d
        lt_made := fun d m h => by
          by_cases hd : d = device
          · simp [hd] at h
          · exact s.lt_made d m (by simpa [hd] using h)
        own := fun d d' m h h' => by
          by_cases hd : d = device
          · simp [hd] at h
          · by_cases hd' : d' = device
            · simp [hd'] at h'
            · exact s.own d d' m (by simpa [hd] using h) (by simpa [hd'] using h') }
  | some user, some _ =>
      { s with
        user := Function.update s.user device (some user)
        shown := fun d => by
          by_cases hd : d = device
          · simp [hd, hlive]
          · simpa [hd] using s.shown d }
  | some user, none =>
      { user := Function.update s.user device (some user)
        live := Function.update s.live device (some s.made)
        viewModels := s.viewModels
        made := s.made + 1
        shown := fun d => by
          by_cases hd : d = device
          · simp [hd]
          · simpa [hd] using s.shown d
        lt_made := fun d m h => by
          by_cases hd : d = device
          · obtain rfl : s.made = m := by simpa [hd] using h
            omega
          · have hlt := s.lt_made d m (by simpa [hd] using h)
            omega
        own := fun d d' m h h' => by
          by_cases hd : d = device <;> by_cases hd' : d' = device
          · exact hd.trans hd'.symm
          · obtain rfl : s.made = m := by simpa [hd] using h
            have hlt := s.lt_made d' _ (by simpa [hd'] using h')
            omega
          · obtain rfl : s.made = m := by simpa [hd'] using h'
            have hlt := s.lt_made d _ (by simpa [hd] using h)
            omega
          · exact s.own d d' m (by simpa [hd] using h) (by simpa [hd'] using h')
        new := fun n hn => s.new n (by omega) }

/-- The note list that is shown, after a delivery of the auth state: it is closed, it
stays, or it is new. -/
theorem live_setUser (s : Screens) (device : Device) (user : Option User) :
    (∀ d, d ≠ device → (s.setUser device user).live d = s.live d) ∧
    (s.setUser device user).viewModels = s.viewModels ∧
    ((s.setUser device user).live device = none ∨
      (s.setUser device user).live device = s.live device ∨
      (s.setUser device user).live device = some s.made) := by
  unfold setUser
  split
  · exact ⟨fun d hd => by simp [hd], rfl, .inl (by simp)⟩
  · exact ⟨fun d hd => rfl, rfl, .inr (.inl rfl)⟩
  · exact ⟨fun d hd => by simp [hd], rfl, .inr (.inr (by simp))⟩

section setLive
variable (s : Screens) {device : Device} {m : ℕ} {viewModel : NoteViewModel}

theorem viewModel_of_live (h : s.live device = some m) : s.viewModel device = s.viewModels m := by
  simp [Screens.viewModel, h]

@[simp] theorem live_setLive (device : Device) (viewModel : NoteViewModel) :
    (s.setLive device viewModel).live = s.live := by
  unfold setLive
  split <;> rfl

theorem viewModels_setLive (h : s.live device = some m) (viewModel : NoteViewModel) :
    (s.setLive device viewModel).viewModels = Function.update s.viewModels m viewModel := by
  unfold setLive
  split
  next hnone => cases hnone.symm.trans h
  next n hn =>
    obtain rfl : n = m := Option.some.inj (hn.symm.trans h)
    rfl

/-- The view model that was changed. -/
theorem viewModel_setLive_self (h : s.live device = some m) (viewModel : NoteViewModel) :
    (s.setLive device viewModel).viewModel device = viewModel := by
  rw [viewModel_of_live _ (by simpa using h), viewModels_setLive s h,
    Function.update_self]

/-- Each device shows a view model of its own. -/
theorem viewModel_setLive_of_ne {d : Device} (hd : d ≠ device) (viewModel : NoteViewModel) :
    (s.setLive device viewModel).viewModel d = s.viewModel d := by
  cases hlive : s.live device with
  | none =>
      unfold setLive
      split
      next => rfl
      next n hn => cases hlive.symm.trans hn
  | some m =>
      cases hd' : s.live d with
      | none => simp [Screens.viewModel, hd']
      | some n =>
          have hne : n ≠ m := by
            rintro rfl
            exact hd (s.own d device n hd' hlive)
          rw [viewModel_of_live _ (by simpa using hd'), viewModels_setLive s hlive,
            Function.update_of_ne hne, viewModel_of_live s hd']

end setLive

/-- A device without a note list holds no reference. -/
theorem live_of_cached {s : Screens} {device : Device} {c : Path}
    (h : (s.viewModel device).cached = some c) : ∃ m, s.live device = some m := by
  cases hlive : s.live device with
  | none =>
      rw [viewModel, hlive] at h
      cases h
  | some m => exact ⟨m, rfl⟩

/-- The view models shown, after a change of one of them. -/
theorem viewModel_setViewModel (s : Screens) {m : ℕ} (hm : m < s.made) (viewModel : NoteViewModel)
    (d : Device) :
    (s.setViewModel m hm viewModel).viewModel d =
      if s.live d = some m then viewModel else s.viewModel d := by
  cases hd : s.live d with
  | none => simp [Screens.viewModel, setViewModel, hd]
  | some n =>
      by_cases hn : n = m
      · subst hn
        simp [Screens.viewModel, setViewModel, hd]
      · simp [Screens.viewModel, setViewModel, hd, hn]

/-- After a delivery of the auth state, a device shows what it did, or a new view
model. -/
theorem viewModel_setUser (s : Screens) (device : Device) (user : Option User) (d : Device) :
    (s.setUser device user).viewModel d = s.viewModel d ∨
      (s.setUser device user).viewModel d = .new := by
  obtain ⟨hother, hviewModels, hlive⟩ := s.live_setUser device user
  by_cases hd : d = device
  · subst hd
    rcases hlive with hlive | hlive | hlive
    · exact .inr (by simp [Screens.viewModel, hlive])
    · exact .inl (by simp [Screens.viewModel, hlive, hviewModels])
    · exact .inr (by simp [Screens.viewModel, hlive, hviewModels, s.new _ le_rfl])
  · exact .inl (by simp [Screens.viewModel, hother d hd, hviewModels])

end Screens

/-! ## The system -/

/-- A registration of `addSnapshotListener` by a view model. -/
structure Listener where
  device : Device
  viewModel : ℕ
  collection : Path

/-- A snapshot for a listener, with the documents of the server when it was taken; writes of
the device that are pending then are left out. -/
structure Snapshot where
  viewModel : ℕ
  collection : Path
  server : Firestore

/-- `querySnapshot.documents`. -/
def Snapshot.documents (snapshot : Snapshot) : List (String × Document) :=
  snapshot.server.documents snapshot.collection

/-- The backend, the screens, and what is registered with the SDK. -/
structure Env where
  firebase : Firebase
  screens : Screens
  /-- The number of auth-state listeners on each device. -/
  authListeners : Device → ℕ
  listeners : List Listener
  /-- The snapshots taken so far. -/
  snapshots : List Snapshot

/-- What happens without a call. -/
inductive Act
  /-- The auth-state listener of a device is notified. -/
  | authState (device : Device)
  /-- A listener takes a snapshot. -/
  | takeSnapshot (listener : ℕ)
  /-- A snapshot is delivered. -/
  | deliverSnapshot (snapshot : ℕ)
  /-- The query of a listener ends with an error. -/
  | listenerError (listener : ℕ)

namespace Env

/-- What the code that runs on a device reads. -/
def view (env : Env) (device : Device) : View :=
  ⟨env.firebase.currentUser device, env.screens.viewModel device⟩

/-- The effects. -/
def emit (env : Env) (device : Device) : Out → Env
  | .load reference =>
      { env with
        screens := env.screens.setLive device
          { env.screens.viewModel device with databaseReference := some reference } }
  | .addSnapshotListener collection =>
      match env.screens.live device with
      | none => env
      | some m => { env with listeners := env.listeners ++ [⟨device, m, collection⟩] }
  | .signOut => { env with firebase := env.firebase.signedIn device none }
  | .addStateDidChangeListener =>
      { env with
        authListeners := Function.update env.authListeners device (env.authListeners device + 1) }

/-- The calls of a `NoteViewModel` need a note list on the screen, and an index set
within its notes. -/
def accept (env : Env) (device : Device) : Call → Option Env
  | .fetchData | .addData _ | .updateData .. =>
      if (env.screens.live device).isSome then some env else none
  | .deleteData indexSet =>
      if (env.screens.live device).isSome ∧
          ∀ index ∈ indexSet.indices, index < (env.screens.viewModel device).notes.length then
        some env
      else none
  | .listenToAuthState | .signIn .. | .signUp .. | .signOut => some env

/-- A view model is called back by one of its listeners. -/
def receive (env : Env) (m : ℕ) (querySnapshot : Option (List (String × Document))) : Option Env :=
  if hm : m < env.screens.made then
    some { env with
      screens := env.screens.setViewModel m hm ((env.screens.viewModels m).receive querySnapshot) }
  else none

/-- The SDK removes the listeners of a query on a device. -/
def removeListeners (env : Env) (device : Device) (collection : Path) : Env :=
  { env with
    listeners := env.listeners.filter fun l => ¬ (l.device = device ∧ l.collection = collection) }

/-- The moves of the environment.  When a query ends with an error, all its listeners are called
with it, which changes nothing in a view model, and are removed. -/
def act (env : Env) : Act → Option Env
  | .authState device =>
      if env.authListeners device = 0 then none
      else some { env with screens := env.screens.setUser device (env.firebase.currentUser device) }
  | .takeSnapshot listener =>
      env.listeners[listener]?.map fun l =>
        { env with
          snapshots := env.snapshots ++ [⟨l.viewModel, l.collection, env.firebase.firestore⟩] }
  | .deliverSnapshot snapshot =>
      env.snapshots[snapshot]?.bind fun s => env.receive s.viewModel (some s.documents)
  | .listenerError listener =>
      env.listeners[listener]?.bind fun l =>
        (env.receive l.viewModel none).map fun env => env.removeListeners l.device l.collection

end Env

/-- The app as a callback host. -/
def host (S : StorageService) : Lib.Host Env Device Call Act Choice Req Ans View Out where
  view := Env.view
  emit := Env.emit
  serve env device r choice :=
    (env.firebase.serve S device r choice).map fun fa => ({ env with firebase := fa.1 }, fa.2)
  accept := Env.accept
  code := Call.code
  act := Env.act

/-- The app with all its operations. -/
abbrev World := Lib.World Env Device Call Choice Req Ans View Out

abbrev Op := Lib.Op Device Call Choice Req Ans View Out

abbrev Entry := Lib.Entry Call Choice Req Ans

abbrev Action := Lib.Action Device Call Act Choice

/-- One step of the app. -/
abbrev step (S : StorageService) (w : World) (action : Action) : Option World :=
  w.step (host S) action

/-- No call has been made, and all devices show `SignUpView`. -/
def initial (firebase : Firebase) : World :=
  .initial ⟨firebase, .initial, fun _ => 0, [], []⟩

/-- The states the app can be in, starting on this backend. -/
def Reachable (S : StorageService) (firebase : Firebase) (w : World) : Prop :=
  Lib.Reachable (step S) (initial firebase) w

variable {S : StorageService} {w w' : World} {env env' : Env} {device : Device} {action : Action}

/-- The collection that an effect listens to. -/
def Out.collection? : Out → Option Path
  | .addSnapshotListener collection => some collection
  | _ => none

/-- The collection that a request adds to, or whose documents it changes. -/
def collection? : Req → Option Path
  | .addDocument collection _ => some collection
  | .updateData p _ | .deleteDocument p => some p.dropLast
  | _ => none

theorem serve_eq_some {r : Req} {choice : Choice} {a : Ans r}
    (h : (host S).serve env device r choice = some (env', a)) :
    ∃ firebase, env.firebase.serve S device r choice = some (firebase, a) ∧
      env' = { env with firebase := firebase } :=
  Firebase.serve_of_map h

/-! ## The lazy reference -/

namespace Env

/-- The value of `databaseReference` when the view model of a device uses it. -/
def reference (env : Env) (device : Device) : Option Path :=
  NoteViewModel.reference (env.view device)

/-- The environment after a use of `databaseReference`. -/
def load (env : Env) (device : Device) : Env :=
  match (env.screens.viewModel device).databaseReference with
  | some _ => env
  | none => env.emit device (.load (NoteViewModel.makeReference (env.view device)))

/-- The reference is the one that is held, or is made for the signed-in user. -/
theorem reference_cases {env : Env} {c : Path} (h : env.reference device = some c) :
    (env.screens.viewModel device).cached = some c ∨
      ∃ user, env.firebase.currentUser device = some user ∧ c = posts user.uid := by
  rw [reference, NoteViewModel.reference, view] at h
  cases hcached : (env.screens.viewModel device).databaseReference with
  | some reference =>
      simp only [hcached, Option.getD_some] at h
      exact .inl (by rw [NoteViewModel.cached, hcached, h, Option.join_some])
  | none =>
      simp only [hcached, Option.getD_none] at h
      obtain ⟨user, huser, rfl⟩ := Option.map_eq_some_iff.mp h
      exact .inr ⟨user, huser, rfl⟩

section load
variable (env : Env) {m : ℕ}

@[simp] theorem firebase_load (device : Device) : (env.load device).firebase = env.firebase := by
  unfold load
  split <;> rfl

@[simp] theorem live_load (device : Device) :
    (env.load device).screens.live = env.screens.live := by
  unfold load
  split
  · rfl
  · simp [emit]

/-- After its first use the reference is there. -/
theorem viewModel_load (h : env.screens.live device = some m) :
    (env.load device).screens.viewModel device =
      { env.screens.viewModel device with databaseReference := some (env.reference device) } := by
  unfold load
  split
  next reference hcached =>
    have hreference : env.reference device = reference := by
      simp [Env.reference, NoteViewModel.reference, view, hcached]
    rw [hreference, ← hcached]
  next hcached =>
    simp [emit, Screens.viewModel_setLive_self _ h, reference, NoteViewModel.reference, view,
      hcached]

theorem viewModel_load_of_ne {d : Device} (hd : d ≠ device) :
    (env.load device).screens.viewModel d = env.screens.viewModel d := by
  unfold load
  split
  · rfl
  · exact Screens.viewModel_setLive_of_ne _ hd _

/-- Later uses give the same reference. -/
theorem reference_load (h : env.screens.live device = some m) :
    (env.load device).reference device = env.reference device := by
  rw [reference, NoteViewModel.reference, view, env.viewModel_load h]
  rfl

end load
end Env

/-- Code that uses `databaseReference` goes on with its value. -/
theorem exec_useDatabaseReference (k : Option Path → Code) (env : Env) (device : Device) :
    ∃ loads : List Out, loads.filterMap Out.collection? = [] ∧
      (host S).exec device (NoteViewModel.useDatabaseReference k) env =
        let e := (host S).exec device (k (env.reference device)) (env.load device)
        ⟨e.env, loads ++ e.outs, e.tasks⟩ := by
  cases hcached : (env.screens.viewModel device).databaseReference with
  | some reference =>
      refine ⟨[], rfl, ?_⟩
      simp [NoteViewModel.useDatabaseReference, Lib.Host.exec, host, Env.view, hcached,
        Env.reference, NoteViewModel.reference, Env.load]
  | none =>
      refine ⟨[.load (NoteViewModel.makeReference (env.view device))], rfl, ?_⟩
      simp [NoteViewModel.useDatabaseReference, Lib.Host.exec, host, Env.view, hcached,
        Env.reference, NoteViewModel.reference, Env.load]

end FirebaseApps.NoteApp
