import FirebaseApps.Lib.Callback
import Mathlib.Logic.Function.Iterate
import Mathlib.Tactic.Choose

/-!
# Runs without an end

A schedule is endless when each beginning of it is a run.  In a world of callbacks an
operation is never started twice, but the name it has does not matter: so a run that leads
back to the environment in which it was started can be repeated under new names, for ever.
-/

namespace FirebaseApps.Lib

section endless
variable {S A : Type} {step : S → A → Option S}

/-- The actions of the schedule can be taken one after another for ever. -/
def Endless (step : S → A → Option S) (s : S) (schedule : ℕ → A) : Prop :=
  ∀ n, (run step s ((List.range n).map schedule)).isSome

/-- A step before an endless schedule. -/
theorem Endless.cons {s s' : S} {a : A} {schedule : ℕ → A} (hs : step s a = some s')
    (h : Endless step s' schedule) :
    Endless step s fun | 0 => a | n + 1 => schedule n := by
  rintro (_ | n)
  · rfl
  · rw [List.range_succ_eq_map, List.map_cons, List.map_map, run_cons, hs]
    exact h n

/-- **The rule of progress.**  When from every state of a kind a nonempty run leads to another
state of the kind, there is an endless schedule. -/
theorem exists_endless {P : S → Prop}
    (hP : ∀ s, P s → ∃ a as s', run step s (a :: as) = some s' ∧ P s') {s : S} (h : P s) :
    ∃ schedule, Endless step s schedule := by
  -- on the way to a state of the kind, there is always a next action
  let Under (s : S) : Prop := ∃ as s', run step s as = some s' ∧ P s'
  have hnext : ∀ s : { s // Under s }, ∃ t : A × { s // Under s }, step s t.1 = some ↑t.2 := by
    have hcons : ∀ s a as s', run step s (a :: as) = some s' → P s' →
        ∃ t : A × { s // Under s }, step s t.1 = some ↑t.2 := by
      intro s a as s' hrun hs'
      rw [run_cons, Option.bind_eq_some_iff] at hrun
      obtain ⟨t, ht, hrun⟩ := hrun
      exact ⟨⟨a, t, as, s', hrun, hs'⟩, ht⟩
    rintro ⟨s, as, s', hrun, hs'⟩
    cases as with
    | nil =>
        obtain rfl : s = s' := by simpa using hrun
        obtain ⟨a, as, s', hrun, hs'⟩ := hP s hs'
        exact hcons s a as s' hrun hs'
    | cons a as => exact hcons s a as s' hrun hs'
  choose next hnext using hnext
  let state (n : ℕ) : { s // Under s } := (fun s => (next s).2)^[n] ⟨s, [], s, rfl, h⟩
  have hrun : ∀ n, run step s ((List.range n).map fun k => (next (state k)).1) =
      some ↑(state n) := by
    intro n
    induction n with
    | zero => rfl
    | succ n ih =>
        have hstate : state (n + 1) = (next (state n)).2 := Function.iterate_succ_apply' ..
        rw [List.range_succ, List.map_append, run_append, ih, Option.bind_some, List.map_singleton,
          run_cons, hnext (state n), Option.bind_some, run_nil, hstate]
  exact ⟨fun k => (next (state k)).1, fun n => Option.isSome_iff_exists.mpr ⟨_, hrun n⟩⟩

end endless

/-! ## The names of operations -/

variable {Env Client Call Act Choice Req View Out : Type} {Ans : Req → Type}

/-- The same action, of operations under other names. -/
def Action.rename (f : ℕ → ℕ) : Action Client Call Act Choice → Action Client Call Act Choice
  | .start i c call => .start (f i) c call
  | .serve i j choice => .serve (f i) j choice
  | .deliver i j => .deliver (f i) j
  | .act a => .act a

namespace World
variable {H : Host Env Client Call Act Choice Req Ans View Out}
variable {v v' w w' : World Env Client Call Choice Req Ans View Out} {f : ℕ → ℕ}

section enabled
variable {i j : ℕ} {c : Client} {call : Call} {choice : Choice} {env : Env}
  {op : Op Client Call Choice Req Ans View Out}

/-- A call that the client can make. -/
theorem step_start_eq (hi : w.ops i = none) (ha : H.accept w.env c call = some env) :
    w.step H (.start i c call) =
      some (w.resume H i (opening H w.env c call) env (H.code call)) := by
  simp [step, hi, ha]

/-- A request that the backend can serve. -/
theorem step_serve_eq {r : Req} {callback : Ans r → Code Req Ans View Out} {a : Ans r}
    (hi : w.ops i = some op) (ht : op.tasks[j]? = some (.waiting r callback))
    (hr : H.serve w.env op.client r choice = some (env, a)) :
    w.step H (.serve i j choice) = some (w.answer i j op env r choice a (callback a)) := by
  simp [step, hi, ht, hr]

/-- A callback that is ready. -/
theorem step_deliver_eq {code : Code Req Ans View Out} (hi : w.ops i = some op)
    (ht : op.tasks[j]? = some (.ready code)) :
    w.step H (.deliver i j) =
      some (w.resume H i { op with tasks := op.tasks.eraseIdx j } w.env code) := by
  simp [step, hi, ht]

/-- A move that the environment can make. -/
theorem step_act_eq {a : Act} (ha : H.act w.env a = some env) :
    w.step H (.act a) = some { w with env := env } := by
  simp [step, ha]

end enabled

/-- The operations of one world are found in another one, under other names. -/
structure Renames (f : ℕ → ℕ) (v w : World Env Client Call Choice Req Ans View Out) : Prop where
  env : w.env = v.env
  ops : ∀ i, w.ops (f i) = v.ops i

theorem Renames.update (h : Renames f v w) (hf : Function.Injective f) {i : ℕ}
    {op : Op Client Call Choice Req Ans View Out} (henv : w'.env = v'.env)
    (hv : v'.ops = Function.update v.ops i (some op))
    (hw : w'.ops = Function.update w.ops (f i) (some op)) : Renames f v' w' := by
  refine ⟨henv, fun k => ?_⟩
  rw [hv, hw]
  by_cases hk : k = i
  · subst hk
    simp
  · rw [Function.update_of_ne hk, Function.update_of_ne (hf.ne hk), h.ops]

/-- **The names of operations do not matter.** -/
theorem Renames.step (h : Renames f v w) (hf : Function.Injective f)
    {action : Action Client Call Act Choice} (hs : v.step H action = some v') :
    ∃ w', w.step H (action.rename f) = some w' ∧ Renames f v' w' := by
  rcases step_cases hs with ⟨i, c, call, env, rfl, hi, ha, rfl⟩ |
    ⟨i, j, choice, op, r, callback, env, a, rfl, hi, ht, hr, rfl⟩ |
    ⟨i, j, op, code, rfl, hi, ht, rfl⟩ | ⟨a, env, rfl, ha, rfl⟩
  · refine ⟨_, step_start_eq ((h.ops i).trans hi) (by rw [h.env]; exact ha), ?_⟩
    exact h.update hf rfl rfl (by simp only [ops_resume, h.env])
  · refine ⟨_, step_serve_eq ((h.ops i).trans hi) ht (by rw [h.env]; exact hr), ?_⟩
    exact h.update hf rfl rfl rfl
  · refine ⟨_, step_deliver_eq ((h.ops i).trans hi) ht, ?_⟩
    exact h.update hf (by simp only [env_resume, h.env]) rfl (by simp only [ops_resume, h.env])
  · exact ⟨_, step_act_eq (by rw [h.env]; exact ha), rfl, h.ops⟩

theorem Renames.run (hf : Function.Injective f) {actions : List (Action Client Call Act Choice)}
    (h : Renames f v w) (hrun : run (World.step H) v actions = some v') :
    ∃ w', FirebaseApps.Lib.run (World.step H) w (actions.map (Action.rename f)) = some w' ∧
      Renames f v' w' := by
  induction actions generalizing v w with
  | nil =>
      obtain rfl : v = v' := by simpa using hrun
      exact ⟨w, rfl, h⟩
  | cons action actions ih =>
      rw [run_cons, Option.bind_eq_some_iff] at hrun
      obtain ⟨u, hu, hrun⟩ := hrun
      obtain ⟨w₁, hs, h₁⟩ := h.step hf hu
      obtain ⟨w', hrun', h'⟩ := ih h₁ hrun
      exact ⟨w', by rw [List.map_cons, run_cons, hs, Option.bind_some, hrun'], h'⟩

/-- **A run that leads back to its environment** can be repeated for ever. -/
theorem exists_endless_of_loop {env : Env} {action : Action Client Call Act Choice}
    {actions : List (Action Client Call Act Choice)}
    (hrun : FirebaseApps.Lib.run (World.step H) (initial env) (action :: actions) = some v)
    (henv : v.env = env) (hw : w.env = env) (hops : ∃ K, ∀ i, K ≤ i → w.ops i = none) :
    ∃ schedule, Endless (World.step H) w schedule := by
  refine exists_endless (P := fun w : World Env Client Call Choice Req Ans View Out =>
    w.env = env ∧ ∃ K, ∀ i, K ≤ i → w.ops i = none) ?_ ⟨hw, hops⟩
  rintro w ⟨hw, K, hK⟩
  have hrenames : Renames (K + ·) (initial env) w :=
    ⟨hw, fun i => hK (K + i) (Nat.le_add_right K i)⟩
  obtain ⟨w', hrun', h'⟩ := hrenames.run (fun _ _ => Nat.add_left_cancel) hrun
  refine ⟨_, _, w', hrun', h'.env.trans henv, ?_⟩
  exact run_invariant (P := fun w : World Env Client Call Choice Req Ans View Out =>
    ∃ K, ∀ i, K ≤ i → w.ops i = none) (fun _ _ _ hK hs => exists_ops_none_step hK hs) ⟨K, hK⟩ hrun'

end World

end FirebaseApps.Lib
