import FirebaseApps.Lib.Run
import FirebaseApps.SociallyApp.Uploads

/-!
# SociallyApp: the auth state

`ProfileView` calls `listenToAuthState` each time it appears.  A listener gets a first
delivery, and one for each change of the current user; FirebaseAuth makes both on the
main queue, with the user who is current at that moment, and skips a listener whose last
delivery had the same uid.  The listener's block, and `uploadProfileImage` when a change
of the profile has been committed, write `AuthViewModel.user`.
-/

namespace FirebaseApps.SociallyApp.AuthState

/-- A registration with `addStateDidChangeListener`. -/
structure AuthListener where
  /-- The uid at its last delivery; `none` before the first one. -/
  previous : Option (Option String)
  deriving DecidableEq

/-- A block of FirebaseAuth on the main queue. -/
inductive Block
  /-- The first delivery to a listener. -/
  | registered (listener : ℕ)
  /-- `currentUser` has changed. -/
  | changed
  deriving DecidableEq

/-- The app with the listeners and the main queue of each device. -/
structure Env extends SociallyApp.Env where
  listeners : Device → List AuthListener
  queue : Device → List Block

/-- What happens without an upload. -/
inductive Act
  /-- `ProfileView` appears. -/
  | listenToAuthState (device : Device)
  | signIn (device : Device) (user : User)
  | signOut (device : Device)
  /-- The main queue of a device runs its next block. -/
  | runBlock (device : Device)
  /-- The server makes the thumbnail of an object. -/
  | thumbnail (name : String)

namespace Env

/-- Put a block on the main queue of a device. -/
def async (env : Env) (device : Device) (block : Block) : Env :=
  { env with queue := Function.update env.queue device (env.queue device ++ [block]) }

/-- `listenToAuthState()`. -/
def listenToAuthState (env : Env) (device : Device) : Env :=
  let listeners := env.listeners device
  let env : Env :=
    { env with listeners := Function.update env.listeners device (listeners ++ [⟨none⟩]) }
  env.async device (.registered listeners.length)

/-- `currentUser` becomes this user. -/
def signedIn (env : Env) (device : Device) (user : Option User) : Env :=
  if env.firebase.currentUser device = user then env
  else
    let env : Env := { env with firebase := env.firebase.signedIn device user }
    env.async device .changed

/-- A delivery to a listener: its block is `self?.user = user`. -/
def deliver (env : Env) (device : Device) (listener : ℕ) : Env :=
  match (env.listeners device)[listener]? with
  | none => env
  | some l =>
    let currentUser := env.firebase.currentUser device
    let uid := currentUser.map User.uid
    { env with
      listeners := Function.update env.listeners device
        ((env.listeners device).set listener ⟨some uid⟩)
      user := if l.previous = some uid then env.user
        else Function.update env.user device currentUser }

/-- A block runs. -/
def run (env : Env) (device : Device) : Block → Env
  | .registered listener => env.deliver device listener
  | .changed =>
      (List.range (env.listeners device).length).foldl (fun env i => env.deliver device i) env

/-- The moves of the environment. -/
def act (S : StorageService) (env : Env) : Act → Option Env
  | .listenToAuthState device => some (env.listenToAuthState device)
  | .signIn device user => some (env.signedIn device (some user))
  | .signOut device => some (env.signedIn device none)
  | .runBlock device =>
      match env.queue device with
      | [] => none
      | block :: queue =>
          some ({ env with queue := Function.update env.queue device queue }.run device block)
  | .thumbnail name =>
      (env.firebase.makeThumbnail S name).map fun firebase => { env with firebase := firebase }

end Env

/-- The app as a callback host. -/
def host (S : StorageService) :
    Lib.Host Env Device Call Act Choice Req Ans (Option User) Out where
  view env device := env.firebase.currentUser device
  emit env device out := { env with toEnv := env.toEnv.emit device out }
  serve env device r choice :=
    (env.firebase.serve S device r choice).map fun fa => ({ env with firebase := fa.1 }, fa.2)
  accept env device call := (env.toEnv.accept device call).map fun app => { env with toEnv := app }
  code := Call.code
  act := Env.act S

/-- The app with all its operations. -/
abbrev World := Lib.World Env Device Call Choice Req Ans (Option User) Out

abbrev Action := Lib.Action Device Call Act Choice

/-- One step of the app. -/
abbrev step (S : StorageService) (w : World) (action : Action) : Option World :=
  w.step (host S) action

/-- No call has been made and nothing is registered; `uuids` were drawn before. -/
def initial (firebase : Firebase) (uuids : List UUID) : World :=
  .initial ⟨⟨firebase, fun _ => none, uuids⟩, fun _ => [], fun _ => []⟩

/-! ## The listeners -/

variable {S : StorageService} {w w' : World} {action : Action}

/-- A delivery registers nothing. -/
@[simp] theorem length_deliver (env : Env) (device : Device) (listener : ℕ) (d : Device) :
    ((env.deliver device listener).listeners d).length = (env.listeners d).length := by
  unfold Env.deliver
  split
  · rfl
  · by_cases hd : d = device
    · subst hd
      simp
    · simp [hd]

theorem length_run (env : Env) (device : Device) (block : Block) (d : Device) :
    ((env.run device block).listeners d).length = (env.listeners d).length := by
  cases block with
  | registered listener => exact length_deliver env device listener d
  | changed =>
      have hfold : ∀ (indices : List ℕ) (env : Env),
          ((indices.foldl (fun env i => env.deliver device i) env).listeners d).length =
            (env.listeners d).length := by
        intro indices
        induction indices with
        | nil => exact fun env => rfl
        | cons i indices ih => exact fun env => (ih _).trans (length_deliver env device i d)
      exact hfold _ env

theorem listeners_signedIn (env : Env) (device : Device) (user : Option User) :
    (env.signedIn device user).listeners = env.listeners := by
  unfold Env.signedIn
  split <;> rfl

/-- Running code of an upload registers nothing. -/
theorem listeners_exec (device : Device) (code : Code) (env : Env) :
    ((host S).exec device code env).env.listeners = env.listeners :=
  (host S).exec_env_invariant (P := fun env' => env'.listeners = env.listeners)
    (fun _ _ _ h => h) rfl

theorem serve_eq_some {env env' : Env} {device : Device} {r : Req} {choice : Choice} {a : Ans r}
    (h : (host S).serve env device r choice = some (env', a)) :
    ∃ firebase, env.firebase.serve S device r choice = some (firebase, a) ∧
      env' = { env with firebase := firebase } :=
  Firebase.serve_of_map h

/-- **The listeners of the devices through a step**: only `listenToAuthState` registers
one. -/
theorem step_listeners (hs : step S w action = some w') :
    (∃ device, action = .act (.listenToAuthState device) ∧
      w'.env.listeners =
        Function.update w.env.listeners device (w.env.listeners device ++ [⟨none⟩])) ∨
    ((∀ device, action ≠ .act (.listenToAuthState device)) ∧
      ∀ d, (w'.env.listeners d).length = (w.env.listeners d).length) := by
  rcases Lib.World.step_cases hs with ⟨i, device, call, env, rfl, hi, ha, rfl⟩ |
    ⟨i, j, choice, op, r, callback, env, a, rfl, hi, ht, hr, rfl⟩ |
    ⟨i, j, op, code, rfl, hi, ht, rfl⟩ | ⟨a, env, rfl, ha, rfl⟩
  · obtain ⟨app, -, rfl⟩ := Option.map_eq_some_iff.mp ha
    exact .inr ⟨by simp, fun d => by rw [Lib.World.env_resume, listeners_exec]⟩
  · obtain ⟨firebase, -, rfl⟩ := serve_eq_some hr
    exact .inr ⟨by simp, fun d => rfl⟩
  · exact .inr ⟨by simp, fun d => by rw [Lib.World.env_resume, listeners_exec]⟩
  · cases a with
    | listenToAuthState device =>
        obtain rfl := Option.some.inj ha
        exact .inl ⟨device, rfl, rfl⟩
    | signIn device user =>
        obtain rfl := Option.some.inj ha
        exact .inr ⟨by simp, fun d => by rw [listeners_signedIn]⟩
    | signOut device =>
        obtain rfl := Option.some.inj ha
        exact .inr ⟨by simp, fun d => by rw [listeners_signedIn]⟩
    | runBlock device =>
        simp only [host, Env.act] at ha
        split at ha
        · cases ha
        next block queue hqueue =>
          obtain rfl := Option.some.inj ha
          exact .inr ⟨by simp, fun d => length_run _ device block d⟩
    | thumbnail name =>
        obtain ⟨firebase, -, rfl⟩ := Option.map_eq_some_iff.mp ha
        exact .inr ⟨by simp, fun d => rfl⟩

end FirebaseApps.SociallyApp.AuthState
