import FirebaseApps.Lib.Places
import FirebaseApps.Lib.Run

/-!
# One operation running alone

While a single operation runs and the others stand still, the world goes from one
served request of that operation to the next; in between, the environment moves only in
the background.  `Host.Serves` is the environment's path along a list of served
requests, and `run_alone` reads it off a run, so that what a call did to the backend
follows from its history.
-/

namespace FirebaseApps.Lib

variable {Env Client Call Act Choice Req View Out : Type} {Ans : Req → Type}
variable {H : Host Env Client Call Act Choice Req Ans View Out} {E : Env → Env → Prop}

/-- Background moves: a preorder on environments that contains the effects of code. -/
structure Host.Background (H : Host Env Client Call Act Choice Req Ans View Out)
    (E : Env → Env → Prop) : Prop where
  refl : ∀ env, E env env
  trans : ∀ {env env' env''}, E env env' → E env' env'' → E env env''
  emit : ∀ env c o, E env (H.emit env c o)

/-- Running code moves the environment in the background. -/
theorem Host.Background.exec (hE : H.Background E) (c : Client) (p : Code Req Ans View Out)
    (env : Env) : E env (H.exec c p env).env := by
  rw [H.exec_env]
  generalize (H.exec c p env).outs = outs
  induction outs generalizing env with
  | nil => exact hE.refl env
  | cons o outs ih => exact hE.trans (hE.emit env c o) (ih _)

/-- From one environment to another along the requests of a client, served in order,
with background moves in between. -/
def Host.Serves (H : Host Env Client Call Act Choice Req Ans View Out) (E : Env → Env → Prop)
    (c : Client) : List (Event Req Ans Choice) → Env → Env → Prop
  | [], env, env' => E env env'
  | e :: history, env, env' => ∃ env₁ env₂, E env env₁ ∧
      H.serve env₁ c e.req e.choice = some (env₂, e.ans) ∧ H.Serves E c history env₂ env'

namespace Host.Serves
variable {c : Client} {history : List (Event Req Ans Choice)} {env env' env'' : Env}

/-- A background move afterwards. -/
theorem move (hE : H.Background E) (h : H.Serves E c history env env') (hmove : E env' env'') :
    H.Serves E c history env env'' := by
  induction history generalizing env with
  | nil => exact hE.trans h hmove
  | cons e history ih =>
      obtain ⟨env₁, env₂, h₁, hserve, h₂⟩ := h
      exact ⟨env₁, env₂, h₁, hserve, ih h₂⟩

/-- One more request. -/
theorem serve (hE : H.Background E) (h : H.Serves E c history env env') {r : Req} {choice : Choice}
    {a : Ans r} (hserve : H.serve env' c r choice = some (env'', a)) :
    H.Serves E c (history ++ [⟨r, choice, a⟩]) env env'' := by
  induction history generalizing env with
  | nil => exact ⟨env', env'', h, hserve, hE.refl env''⟩
  | cons e history ih =>
      obtain ⟨env₁, env₂, h₁, he, h₂⟩ := h
      exact ⟨env₁, env₂, h₁, he, ih h₂⟩

end Host.Serves

/-- An action of operation `k`, or of the environment on its own. -/
def Action.Alone (k : ℕ) : Action Client Call Act Choice → Prop
  | .start .. => False
  | .serve i _ _ | .deliver i _ => i = k
  | .act _ => True

instance (k : ℕ) : (action : Action Client Call Act Choice) → Decidable (action.Alone k)
  | .start .. => inferInstanceAs (Decidable False)
  | .serve i _ _ | .deliver i _ => inferInstanceAs (Decidable (i = k))
  | .act _ => inferInstanceAs (Decidable True)

namespace World
variable {w w' : World Env Client Call Choice Req Ans View Out} {k : ℕ} {c : Client} {call : Call}
variable {V : (r : Req) → Choice → Ans r → Prop}

/-- Where operation `k`, a call that `c` has made, stands: it is at a place of its code,
and the environment came from `env` along its served requests. -/
structure Solo (H : Host Env Client Call Act Choice Req Ans View Out) (E : Env → Env → Prop)
    (V : (r : Req) → Choice → Ans r → Prop) (env : Env) (c : Client) (call : Call)
    (op : Op Client Call Choice Req Ans View Out) (env' : Env) : Prop where
  client : op.client = c
  made : op.call = call
  place : (H.code call).At V (fun _ => True) op.history op.outs op.tasks
  serves : H.Serves E c op.history env env'

theorem Solo.step (hE : H.Background E)
    (hV : ∀ env c r choice env' a, H.serve env c r choice = some (env', a) → V r choice a)
    (hlin : (H.code call).Linear) {action : Action Client Call Act Choice}
    (hact : ∀ env a env', action = .act a → H.act env a = some env' → E env env')
    (halone : action.Alone k) {env : Env}
    (h : ∃ op, w.ops k = some op ∧ Solo H E V env c call op w.env)
    (hs : w.step H action = some w') :
    ∃ op, w'.ops k = some op ∧ Solo H E V env c call op w'.env := by
  obtain ⟨op, hop, hclient, hcall, hplace, hserves⟩ := h
  rcases step_cases hs with ⟨i, c', call', env', rfl, -⟩ |
    ⟨i, j, choice, op₁, r, callback, env', a, rfl, hi, ht, hr, rfl⟩ |
    ⟨i, j, op₁, code, rfl, hi, ht, rfl⟩ | ⟨a, env', rfl, ha, rfl⟩
  · exact absurd halone id
  · obtain rfl : i = k := halone
    obtain rfl : op₁ = op := Option.some.inj (hi.symm.trans hop)
    rw [hclient] at hr
    exact ⟨_, Function.update_self i _ _, hclient, hcall, hplace.serve ht (hV _ _ _ _ _ _ hr),
      hserves.serve hE hr⟩
  · obtain rfl : i = k := halone
    obtain rfl : op₁ = op := Option.some.inj (hi.symm.trans hop)
    exact ⟨_, Function.update_self i _ _, hclient, hcall,
      hplace.deliver hlin ht (H.saw_of_forall (fun _ => trivial) _ _),
      hserves.move hE (hE.exec op₁.client code w.env)⟩
  · exact ⟨op, hop, hclient, hcall, hplace, hserves.move hE (hact _ a _ rfl ha)⟩

/-- **What a call that runs alone has done**: it stands at a place of its code, and the
environment is what serving its history has made of it. -/
theorem run_alone (hE : H.Background E)
    (hV : ∀ env c r choice env' a, H.serve env c r choice = some (env', a) → V r choice a)
    (hlin : (H.code call).Linear) {as : List (Action Client Call Act Choice)}
    (hact : ∀ env a env', .act a ∈ as → H.act env a = some env' → E env env')
    (halone : ∀ action ∈ as, action.Alone k)
    (hrun : run (World.step H) w (.start k c call :: as) = some w') :
    ∃ env op, H.accept w.env c call = some env ∧ w'.ops k = some op ∧
      Solo H E V env c call op w'.env := by
  rw [run_cons, Option.bind_eq_some_iff] at hrun
  obtain ⟨w₁, hstart, hrun⟩ := hrun
  rcases step_cases hstart with ⟨i, c', call', env, heq, hi, ha, rfl⟩ |
    ⟨_, _, _, _, _, _, _, _, heq, -⟩ | ⟨_, _, _, _, heq, -⟩ | ⟨_, _, heq, -⟩
  · obtain ⟨rfl, rfl, rfl⟩ := Action.start.inj heq
    have hsolo : ∃ op, (w.resume H k (opening H w.env c call) env (H.code call)).ops k = some op ∧
        Solo H E V env c call op (w.resume H k (opening H w.env c call) env (H.code call)).env :=
      ⟨_, Function.update_self k _ _, rfl, rfl,
        Code.At.exec hlin (H.saw_of_forall (fun _ => trivial) _ _), hE.exec c (H.code call) env⟩
    obtain ⟨op, hop, h⟩ := run_invariant_of_mem
      (P := fun w => ∃ op, w.ops k = some op ∧ Solo H E V env c call op w.env)
      (fun w₁ action hmem w₂ h hs => Solo.step hE hV hlin
        (fun env a env' heq => hact env a env' (heq ▸ hmem)) (halone action hmem) h hs)
      hsolo hrun
    exact ⟨env, op, ha, hop, h⟩
  all_goals cases heq

end World
end FirebaseApps.Lib
