import FirebaseApps.SociallyApp.AuthState
import FirebaseApps.SociallyApp.ProfileImages

/-!
# SociallyApp: does the published user follow the signed-in user?

Two writers keep `AuthViewModel.user`: the listeners, which skip a uid they have had last,
and the callback of `uploadProfileImage`, which writes the signed-in user at once.  So the
callback can publish a change before the listeners hear of it, and when the change is taken
back they have nothing to do.

`followsSignedIn_of_notices` has the condition under which the published user follows the
signed-in one; after the run of `publishedUserLost` no one is published while Ada is signed
in.
-/

namespace FirebaseApps.SociallyApp.AuthState

open Lib (Always StepsMeet)

namespace Env

/-- The uid of the signed-in user. -/
def uid (env : Env) (device : Device) : Option String :=
  (env.firebase.currentUser device).map User.uid

/-- A change to this uid is noticed: there is no listener, it is published already, or some
listener has not had it last. -/
def Noticed (env : Env) (device : Device) (uid : Option String) : Prop :=
  env.listeners device = [] ∨ (env.user device).map User.uid = uid ∨
    ∃ l ∈ env.listeners device, l.previous ≠ some uid

instance (env : Env) (device : Device) (uid : Option String) :
    Decidable (env.Noticed device uid) := by
  unfold Noticed
  infer_instance

/-- The last delivery to a listener had the signed-in user. -/
def Heard (env : Env) (device : Device) (i : ℕ) : Prop :=
  ∀ l, (env.listeners device)[i]? = some l → l.previous = some (env.uid device)

/-- Every listener has heard of the signed-in user or will, and one of them writes the field
if it is wrong. -/
structure Following (env : Env) (device : Device) : Prop where
  heard : ∀ i, env.Heard device i ∨ .registered i ∈ env.queue device ∨
    .changed ∈ env.queue device
  noticed : env.Noticed device (env.uid device)

variable {env env' : Env} {device d : Device} {i j : ℕ}

/-- Nothing about a device has changed. -/
theorem Following.congr (h : env.Following d) (hlisteners : env'.listeners d = env.listeners d)
    (hqueue : env'.queue d = env.queue d) (huser : env'.user d = env.user d)
    (hcurrent : env'.firebase.currentUser d = env.firebase.currentUser d) :
    env'.Following d := by
  have huid : env'.uid d = env.uid d := by rw [uid, uid, hcurrent]
  refine ⟨fun i => ?_, ?_⟩
  · rw [Heard, hlisteners, hqueue, huid]
    exact h.heard i
  · rw [Noticed, hlisteners, huser, huid]
    exact h.noticed

/-! ## Deliveries -/

/-- A listener that has heard of the signed-in user is skipped. -/
theorem deliver_of_heard (h : env.Heard device i) : env.deliver device i = env := by
  unfold deliver
  split
  · rfl
  next l hl =>
    have hprevious : l.previous = some ((env.firebase.currentUser device).map User.uid) := h l hl
    obtain ⟨hi, rfl⟩ := List.getElem?_eq_some_iff.mp hl
    have hset : (env.listeners device).set i
        ⟨some ((env.firebase.currentUser device).map User.uid)⟩ = env.listeners device := by
      rw [← hprevious]
      exact List.set_getElem_self hi
    simp only [hset, if_pos hprevious, Function.update_eq_self]

/-- Another listener has the signed-in user delivered, and publishes it. -/
theorem deliver_of_not_heard (h : ¬ env.Heard device i) : i < (env.listeners device).length ∧
    env.deliver device i =
      { env with
        listeners := Function.update env.listeners device
          ((env.listeners device).set i ⟨some (env.uid device)⟩)
        user := Function.update env.user device (env.firebase.currentUser device) } := by
  simp only [Heard, not_forall] at h
  obtain ⟨l, hl, hprevious⟩ := h
  obtain ⟨hi, rfl⟩ := List.getElem?_eq_some_iff.mp hl
  have hskip : ¬ (env.listeners device)[i].previous =
      some ((env.firebase.currentUser device).map User.uid) := hprevious
  refine ⟨hi, ?_⟩
  simp only [deliver, hl, if_neg hskip]
  rfl

/-- What deliveries on one device do. -/
structure Delivers (device : Device) (env env' : Env) : Prop where
  firebase : env'.firebase = env.firebase
  queue : env'.queue = env.queue
  heard : ∀ i, env.Heard device i → env'.Heard device i
  noticed : env.Noticed device (env.uid device) → env'.Noticed device (env.uid device)
  listeners : ∀ d, d ≠ device → env'.listeners d = env.listeners d
  user : ∀ d, d ≠ device → env'.user d = env.user d

theorem Delivers.uid (h : Delivers device env env') (d : Device) : env'.uid d = env.uid d := by
  rw [Env.uid, Env.uid, h.firebase]

theorem Delivers.refl (device : Device) (env : Env) : Delivers device env env :=
  ⟨rfl, rfl, fun _ => id, id, fun _ _ => rfl, fun _ _ => rfl⟩

theorem Delivers.trans {env'' : Env} (h : Delivers device env env')
    (h' : Delivers device env' env'') : Delivers device env env'' where
  firebase := h'.firebase.trans h.firebase
  queue := h'.queue.trans h.queue
  heard i hi := h'.heard i (h.heard i hi)
  noticed hn := by
    have hn' := h.noticed hn
    rw [← h.uid] at hn' ⊢
    exact h'.noticed hn'
  listeners d hd := (h'.listeners d hd).trans (h.listeners d hd)
  user d hd := (h'.user d hd).trans (h.user d hd)

/-- **One delivery**: its listener has heard of the signed-in user. -/
theorem delivers_deliver (env : Env) (device : Device) (i : ℕ) :
    Delivers device env (env.deliver device i) ∧ (env.deliver device i).Heard device i := by
  by_cases hheard : env.Heard device i
  · rw [deliver_of_heard hheard]
    exact ⟨.refl device env, hheard⟩
  · obtain ⟨hi, heq⟩ := deliver_of_not_heard hheard
    rw [heq]
    refine ⟨⟨rfl, rfl, fun j hj l hl => ?_, fun _ => ?_, fun d hd => ?_, fun d hd => ?_⟩,
      fun l hl => ?_⟩
    · simp only [Function.update_self, List.getElem?_set] at hl
      split at hl
      next => obtain rfl := Option.some.inj hl; rfl
      next => exact hj l hl
    · exact .inr (.inl (congrArg (Option.map User.uid) (Function.update_self device _ _)))
    · exact Function.update_of_ne hd _ _
    · exact Function.update_of_ne hd _ _
    · simp only [Function.update_self, List.getElem?_set_self hi, Option.some.injEq] at hl
      rw [← hl]
      rfl

/-- One delivery after another, to these listeners. -/
theorem delivers_foldl (env : Env) (device : Device) (indices : List ℕ) :
    Delivers device env (indices.foldl (fun env i => env.deliver device i) env) ∧
      ∀ i ∈ indices, (indices.foldl (fun env i => env.deliver device i) env).Heard device i := by
  induction indices generalizing env with
  | nil => exact ⟨.refl device env, fun i hi => by cases hi⟩
  | cons j indices ih =>
      obtain ⟨hfirst, hj⟩ := delivers_deliver env device j
      obtain ⟨hrest, hindices⟩ := ih (env.deliver device j)
      refine ⟨hfirst.trans hrest, fun i hi => ?_⟩
      rcases List.mem_cons.mp hi with rfl | hi
      · exact hrest.heard i hj
      · exact hindices i hi

/-- **A block delivers** to its listener, or to all. -/
theorem delivers_run (env : Env) (device : Device) (block : Block) :
    Delivers device env (env.run device block) ∧
      ∀ i, block = .registered i ∨ block = .changed → (env.run device block).Heard device i := by
  cases block with
  | registered j =>
      obtain ⟨hdelivers, hj⟩ := delivers_deliver env device j
      refine ⟨hdelivers, fun i hi => ?_⟩
      rcases hi with hi | hi
      · obtain rfl := Block.registered.inj hi
        exact hj
      · cases hi
  | changed =>
      obtain ⟨hdelivers, hall⟩ :=
        delivers_foldl env device (List.range (env.listeners device).length)
      refine ⟨hdelivers, fun i _ => ?_⟩
      by_cases hi : i < (env.listeners device).length
      · exact hall i (List.mem_range.mpr hi)
      · intro l hl
        obtain ⟨hlt, -⟩ := List.getElem?_eq_some_iff.mp hl
        rw [length_run] at hlt
        exact absurd hlt hi

/-- When every listener has heard of the signed-in user, a block does nothing. -/
theorem run_of_heard (h : ∀ i, env.Heard device i) (block : Block) :
    env.run device block = env := by
  cases block with
  | registered i => exact deliver_of_heard (h i)
  | changed =>
      rw [run]
      generalize List.range (env.listeners device).length = indices
      induction indices with
      | nil => rfl
      | cons i indices ih => rw [List.foldl_cons, deliver_of_heard (h i), ih]

/-! ## The moves of a device -/

/-- The main queue runs a block. -/
theorem Following.runBlock (h : env.Following d) {block : Block} {queue : List Block}
    (hqueue : env.queue device = block :: queue) :
    ({ env with queue := Function.update env.queue device queue }.run device block).Following
      d := by
  obtain ⟨hdelivers, hblock⟩ :=
    delivers_run { env with queue := Function.update env.queue device queue } device block
  by_cases hd : d = device
  · subst hd
    refine ⟨fun i => ?_, ?_⟩
    · rw [hdelivers.queue]
      simp only [Function.update_self]
      have hmem := h.heard i
      rw [hqueue, List.mem_cons, List.mem_cons] at hmem
      rcases hmem with hi | (hi | hi) | hi | hi
      · exact .inl (hdelivers.heard i hi)
      · exact .inl (hblock i (.inl hi.symm))
      · exact .inr (.inl hi)
      · exact .inl (hblock i (.inr hi.symm))
      · exact .inr (.inr hi)
    · rw [hdelivers.uid]
      exact hdelivers.noticed h.noticed
  · refine h.congr (hdelivers.listeners d hd) ?_ (hdelivers.user d hd) ?_
    · rw [hdelivers.queue]
      exact Function.update_of_ne hd _ _
    · rw [hdelivers.firebase]

/-- A listener is registered. -/
theorem Following.listenToAuthState (h : env.Following d) (device : Device) :
    (env.listenToAuthState device).Following d := by
  by_cases hd : d = device
  · subst hd
    have hlisteners : (env.listenToAuthState d).listeners d = env.listeners d ++ [⟨none⟩] :=
      Function.update_self d _ _
    have hqueue : (env.listenToAuthState d).queue d =
        env.queue d ++ [.registered (env.listeners d).length] :=
      Function.update_self d _ _
    refine ⟨fun i => ?_, .inr (.inr ⟨⟨none⟩, by simp [hlisteners], by simp⟩)⟩
    rw [hqueue]
    by_cases hi : i = (env.listeners d).length
    · exact .inr (.inl (by simp [hi]))
    · refine (h.heard i).imp (fun hheard l hl => ?_)
        (Or.imp (List.mem_append_left _) (List.mem_append_left _))
      have hlt := (List.getElem?_eq_some_iff.mp hl).1
      rw [hlisteners, List.length_append, List.length_singleton] at hlt
      rw [hlisteners, List.getElem?_append_left (by omega)] at hl
      exact hheard l hl
  · refine h.congr ?_ ?_ rfl rfl
    · exact Function.update_of_ne hd _ _
    · exact Function.update_of_ne hd _ _

/-- The signed-in user changes, and the change is noticed. -/
theorem Following.signedIn (h : env.Following d) {user : Option User}
    (hnoticed : env.Noticed device (user.map User.uid)) :
    (env.signedIn device user).Following d := by
  unfold Env.signedIn
  split
  · exact h
  · by_cases hd : d = device
    · subst hd
      refine ⟨fun i => .inr (.inr ?_), ?_⟩
      · simp [async]
      · simpa [Noticed, async, uid] using hnoticed
    · refine h.congr rfl ?_ rfl ?_
      · exact Function.update_of_ne hd _ _
      · exact Function.update_of_ne hd _ _

/-- The callback of an upload publishes the signed-in user. -/
theorem Following.emit (h : env.Following d) (device : Device) (out : Out) :
    ({ env with toEnv := env.toEnv.emit device out } : Env).Following d := by
  cases out with
  | added error => exact h
  | refreshUser =>
      by_cases hd : d = device
      · subst hd
        exact ⟨h.heard, .inr (.inl (by simp [SociallyApp.Env.emit, Env.uid]))⟩
      · exact h.congr rfl rfl (Function.update_of_ne hd _ _) rfl

end Env

/-! ## The system -/

variable {S : StorageService} {w w' : World} {action : Action} {d : Device}

/-- The operations of a reachable world are on their code. -/
abbrev OnCode (S : StorageService) (w : World) : Prop :=
  Lib.World.OnCode (host S) (Firebase.Answers S) (fun _ _ => True) w

theorem OnCode.step (h : OnCode S w) (hs : AuthState.step S w action = some w') : OnCode S w' :=
  Lib.World.OnCode.step h (fun _ _ _ _ _ _ hr => by
    obtain ⟨firebase, hfb, -⟩ := serve_eq_some hr
    exact .of_serve hfb) (Lib.World.sees_of_forall (fun _ _ => trivial) w action) hs

/-- The requests of the uploads sign no one in or out. -/
theorem currentUser_of_waiting {W : Option User → Prop} {call : Call}
    {history : List SociallyApp.Event} {r : Req} {fb fb' : Firebase} {device : Device}
    {choice : Choice} {a : Ans r} (hr : Waiting S W call history r)
    (hs : fb.serve S device r choice = some (fb', a)) : fb'.currentUser = fb.currentUser := by
  rcases hr.kinds with ⟨rfl, -⟩ | ⟨name, rfl⟩ | ⟨fields, rfl⟩ | ⟨uid, url, rfl⟩
  · cases call <;> cases Firebase.settled_of_serve hs <;> rfl
  all_goals cases Firebase.settled_of_serve hs <;> rfl

/-- Running code of an upload keeps the field in step. -/
theorem following_exec {env : Env} (h : env.Following d) (device : Device) (code : Code) :
    ((host S).exec device code env).env.Following d :=
  (host S).exec_env_invariant (P := fun env => env.Following d)
    (fun out _ _ h => h.emit device out) h

/-- Every change of the signed-in user is noticed. -/
def Notices (w : World) : Action → Prop
  | .act (.signIn device user) => w.env.Noticed device (some user.uid)
  | .act (.signOut device) => w.env.Noticed device none
  | _ => True

instance (w : World) : (action : Action) → Decidable (Notices w action)
  | .act (.signIn device user) => inferInstanceAs (Decidable (w.env.Noticed device (some user.uid)))
  | .act (.signOut device) => inferInstanceAs (Decidable (w.env.Noticed device none))
  | .start .. | .serve .. | .deliver .. | .act (.listenToAuthState _) | .act (.runBlock _)
  | .act (.thumbnail _) => isTrue trivial

/-- The published user follows the signed-in one through a step. -/
theorem following_step (hcode : OnCode S w) (h : ∀ d, w.env.Following d)
    (hnotices : Notices w action) (hs : step S w action = some w') (d : Device) :
    w'.env.Following d := by
  rcases Lib.World.step_cases hs with ⟨i, device, call, env, rfl, hi, ha, rfl⟩ |
    ⟨i, j, choice, op, r, callback, env, a, rfl, hi, ht, hr, rfl⟩ |
    ⟨i, j, op, code, rfl, hi, ht, rfl⟩ | ⟨a, env, rfl, ha, rfl⟩
  · obtain ⟨app, happ, rfl⟩ := Option.map_eq_some_iff.mp ha
    obtain ⟨-, hdraw⟩ := Option.ite_none_left_eq_some.mp happ
    obtain rfl := Option.some.inj hdraw
    refine following_exec ?_ device call.code
    exact (h d).congr rfl rfl rfl rfl
  · obtain ⟨firebase, hfb, rfl⟩ := serve_eq_some hr
    have hwait := Lib.Code.At.waiting (K := contract S (fun _ => True) op.call) (meets_code S _ _)
      (hcode i op hi op.call.linear_code) (List.mem_of_getElem? ht)
    exact (h d).congr rfl rfl rfl (by rw [← currentUser_of_waiting hwait hfb]; rfl)
  · exact following_exec (h d) op.client code
  · cases a with
    | listenToAuthState device =>
        obtain rfl := Option.some.inj ha
        exact (h d).listenToAuthState device
    | signIn device user =>
        obtain rfl := Option.some.inj ha
        exact (h d).signedIn hnotices
    | signOut device =>
        obtain rfl := Option.some.inj ha
        exact (h d).signedIn hnotices
    | runBlock device =>
        simp only [host, Env.act] at ha
        split at ha
        · cases ha
        next block queue hqueue =>
          obtain rfl := Option.some.inj ha
          exact (h d).runBlock hqueue
    | thumbnail name =>
        obtain ⟨firebase, hm, rfl⟩ := Option.map_eq_some_iff.mp ha
        obtain ⟨o, -, rfl⟩ := Option.map_eq_some_iff.mp hm
        exact (h d).congr rfl rfl rfl rfl

/-! ## When nothing is pending -/

/-- A callback of an upload has its answer and waits to run. -/
def CallbackPending (w : World) (device : Device) : Prop :=
  ∃ i op code, w.ops i = some op ∧ op.client = device ∧ Lib.Task.ready code ∈ op.tasks

/-- Neither a block of the main queue nor a callback is pending. -/
def Quiet (w : World) (device : Device) : Prop :=
  w.env.queue device = [] ∧ ¬ CallbackPending w device

/-- On every device with a listener and nothing pending, the published user has the uid of the
signed-in one, or both are `nil`. -/
def FollowsSignedIn (w : World) : Prop :=
  ∀ device, Quiet w device → w.env.listeners device ≠ [] →
    (w.env.user device).map User.uid = w.env.uid device

theorem followsSignedIn_of_following (h : ∀ d, w.env.Following d) : FollowsSignedIn w := by
  rintro device ⟨hqueue, -⟩ hlisteners
  rcases (h device).noticed with hnil | heq | ⟨l, hl, hprevious⟩
  · exact absurd hnil hlisteners
  · exact heq
  · -- this listener has no delivery left
    obtain ⟨i, hi⟩ := List.mem_iff_getElem?.mp hl
    have hheard := (h device).heard i
    rw [hqueue] at hheard
    rcases hheard with hheard | hmem | hmem
    · exact absurd (hheard l hi) hprevious
    · cases hmem
    · cases hmem

/-- The main queue is run when every listener has heard of the signed-in user. -/
theorem exists_drained {queue : List Block} (hqueue : w.env.queue d = queue)
    (hheard : ∀ i, w.env.Heard d i) : ∃ actions w', Lib.run (step S) w actions = some w' ∧
      w'.env = { w.env with queue := Function.update w.env.queue d [] } ∧ w'.ops = w.ops := by
  induction queue generalizing w with
  | nil => exact ⟨[], w, rfl, by rw [← hqueue, Function.update_eq_self], rfl⟩
  | cons block queue ih =>
      let env : Env := { w.env with queue := Function.update w.env.queue d queue }
      have hheard' : ∀ i, env.Heard d i := hheard
      have hrest : env.queue d = queue := by simp only [env, Function.update_self]
      have hstep : step S w (.act (.runBlock d)) = some { w with env := env } := by
        simp only [step, Lib.World.step, host, Env.act, hqueue]
        exact congrArg (fun env => some { w with env := env }) (Env.run_of_heard hheard' block)
      obtain ⟨actions, w', hw', henv, hops⟩ := ih (w := { w with env := env }) hrest hheard'
      refine ⟨.act (.runBlock d) :: actions, w', ?_, ?_, hops⟩
      · rw [Lib.run_cons, hstep]
        exact hw'
      · rw [henv]
        simp only [env, Function.update_idem]

/-- A change that is not noticed is lost, unless the callback of an upload is still to come. -/
theorem exists_not_followsSignedIn (user : Option User)
    (hnoticed : ¬ w.env.Noticed d (user.map User.uid)) (hpending : ¬ CallbackPending w d)
    (henv : w'.env = w.env.signedIn d user) (hops : w'.ops = w.ops) :
    ∃ actions w'', Lib.run (step S) w' actions = some w'' ∧ ¬ FollowsSignedIn w'' := by
  simp only [Env.Noticed, not_or, not_exists, not_and, not_not] at hnoticed
  obtain ⟨hlisteners, huser, hprevious⟩ := hnoticed
  have hsame : w'.env.listeners = w.env.listeners := by rw [henv, listeners_signedIn]
  have hcurrent : w'.env.firebase.currentUser d = user ∧ w'.env.user = w.env.user := by
    rw [henv]
    unfold Env.signedIn
    split
    · exact ⟨by assumption, rfl⟩
    · exact ⟨by simp [Env.async], rfl⟩
  have hheard : ∀ i, w'.env.Heard d i := by
    intro i l hl
    rw [hsame] at hl
    rw [hprevious l (List.mem_of_getElem? hl), Env.uid, hcurrent.1]
  obtain ⟨actions, w'', hrun, henv'', hops''⟩ := exists_drained rfl hheard
  refine ⟨actions, w'', hrun, fun hfollows => huser ?_⟩
  have hquiet : Quiet w'' d := by
    refine ⟨by simp only [henv'', Function.update_self], ?_⟩
    rwa [CallbackPending, hops'', hops]
  have hpublished := hfollows d hquiet (by rw [henv'']; exact hsame ▸ hlisteners)
  rw [henv''] at hpublished
  rw [← hcurrent.2, ← hcurrent.1]
  exact hpublished

/-- **The published user follows the signed-in one** along every run in which each change is
noticed; and one that is not noticed is lost, unless the callback of an upload is pending. -/
theorem followsSignedIn_of_notices (S : StorageService) :
    (∀ fb uuids as,
      StepsMeet (step S) (fun w action _ => Notices w action) (initial fb uuids) as →
      Always (step S) FollowsSignedIn (initial fb uuids) as) ∧
    ∀ w action w', step S w action = some w' → ¬ Notices w action →
      (∀ device, ¬ CallbackPending w device) →
      ∃ actions w'', Lib.run (step S) w' actions = some w'' ∧ ¬ FollowsSignedIn w'' := by
  constructor
  · intro fb uuids as h
    have hfollowing : Always (step S) (fun w => ∀ d, w.env.Following d) (initial fb uuids) as := by
      refine Lib.always_of_stepsMeet (I := OnCode S) (fun w action w' hcode hs => hcode.step hs)
        (fun w action w' hcode hw hnotices hs => following_step hcode hw hnotices hs)
        (Lib.World.onCode_initial _) (fun d => ?_) h
      exact ⟨fun i => .inl (fun l hl => by cases hl), .inl rfl⟩
    exact hfollowing.mono fun w hw => followsSignedIn_of_following hw
  · intro w action w' hs hnotices hpending
    cases action with
    | act a =>
        obtain ⟨env, ha, rfl⟩ := Option.map_eq_some_iff.mp hs
        cases a with
        | signIn device user =>
            obtain rfl := Option.some.inj ha
            exact exists_not_followsSignedIn (some user) hnotices (hpending device) rfl rfl
        | signOut device =>
            obtain rfl := Option.some.inj ha
            exact exists_not_followsSignedIn none hnotices (hpending device) rfl rfl
        | _ => exact absurd trivial hnotices
    | _ => exact absurd trivial hnotices

/-- Ada signs in, `ProfileView` appears, and the main queue is run. -/
def appear : List Action :=
  [.act (.signIn 0 ada), .act (.listenToAuthState 0), .act (.runBlock 0), .act (.runBlock 0)]

/-- Along a run in which Ada signs out and Bob in, the published user follows. -/
theorem followsSignedIn_appear : Always (step .plain) FollowsSignedIn (initial .empty [])
    (appear ++ [.act (.signOut 0), .act (.signIn 0 bob), .act (.runBlock 0), .act (.runBlock 0)]) :=
  (followsSignedIn_of_notices .plain).1 .empty [] _ (by decide)

/-- An upload of Ada ends when she has signed out, and she signs in again before the listener
hears of it. -/
def signInAgain : List Action :=
  [.start 0 0 (.uploadProfileImage .sample [0xFF]), .serve 0 0 .success, .deliver 0 0,
    .serve 0 0 .success, .deliver 0 0, .serve 0 0 .success, .act (.signOut 0), .deliver 0 0,
    .act (.signIn 0 ada), .act (.runBlock 0), .act (.runBlock 0)]

/-- The published user is lost: no one is published while Ada is signed in. -/
theorem publishedUserLost : ¬ ∀ (S : StorageService) (fb : Firebase) (uuids : List UUID)
    (as : List Action), Always (step S) FollowsSignedIn (initial fb uuids) as := by
  intro h
  have hrun : ∃ w, Lib.run (step .plain) (initial .empty []) (appear ++ signInAgain) = some w ∧
      w.env.queue 0 = [] ∧ (∀ i < 1, ∀ op ∈ w.ops i, op.tasks = []) ∧ w.env.listeners 0 ≠ [] ∧
      w.env.user 0 = none ∧ w.env.uid 0 = some "ada" :=
    ⟨_, rfl, rfl, by decide, by decide, rfl, rfl⟩
  obtain ⟨w, hrun, hqueue, htasks, hlisteners, huser, huid⟩ := hrun
  have hquiet := Lib.World.tasks_run (n := 1) hrun (fun _ _ => rfl) (by decide) htasks
  have hpending : ¬ CallbackPending w 0 := by
    rintro ⟨i, op, code, hop, -, hready⟩
    rw [hquiet i op hop] at hready
    cases hready
  have hfollows := (h .plain .empty [] _).last hrun 0 ⟨hqueue, hpending⟩ hlisteners
  rw [huser, huid] at hfollows
  cases hfollows

end FirebaseApps.SociallyApp.AuthState
