import FirebaseApps.Lib.Callback
import Mathlib.Algebra.BigOperators.Group.Finset.Basic
import Mathlib.Algebra.Order.BigOperators.Group.Finset

/-!
# Runs that a potential pays for

A potential is a number that the state of a system has, and each step has a cost that
the potential must pay.  What a run costs is then at most the potential of its first
state (`tally_add_le`).  A step may also be credited with what it adds to the potential:
with cost `1` for every step, the credit of a run and its start bound its length.

In a world of callbacks, an operation whose code has at most `n` requests served one
after another takes at most `2 * n` steps after its start.  `outstanding` is what the
operations under way still have to do, and `outstanding_step` what a step does to it.
-/

namespace FirebaseApps.Lib

/-! ## Potentials -/

section potential
variable {S A : Type} {step : S → A → Option S}

/-- What the steps of a run cost. -/
def tally (step : S → A → Option S) (c : S → A → S → ℕ) : S → List A → ℕ
  | _, [] => 0
  | s, a :: as =>
    match step s a with
    | none => 0
    | some s' => c s a s' + tally step c s' as

/-- What costs nothing in any step of a run costs nothing. -/
theorem tally_eq_zero {c : S → A → S → ℕ} {as : List A} :
    ∀ {s : S}, StepsMeet step (fun s a s' => c s a s' = 0) s as → tally step c s as = 0 := by
  induction as with
  | nil =>
      intro s _
      rfl
  | cons a as ih =>
      intro s h
      cases hs : step s a with
      | none => simp only [tally, hs]
      | some s' =>
          obtain ⟨hzero, hrest⟩ := h s' hs
          simp only [tally, hs, hzero, ih hrest]

/-- **The rule of the potential, with credit.**  When the potential of a state, and the credit
that a step gives, pay for every step that a run can take there, they pay for the run. -/
theorem tally_add_le_credit {c credit : S → A → S → ℕ} {I : S → Prop} {μ : S → ℕ} {as : List A} :
    ∀ {s s' : S}, (∀ s, ∀ a ∈ as, ∀ s', I s → step s a = some s' →
        I s' ∧ μ s' + c s a s' ≤ μ s + credit s a s') → I s →
      run step s as = some s' → tally step c s as + μ s' ≤ μ s + tally step credit s as := by
  induction as with
  | nil =>
      intro s s' _ _ hrun
      obtain rfl : s = s' := by simpa using hrun
      simp [tally]
  | cons a as ih =>
      intro s s' hstep hI hrun
      rw [run_cons, Option.bind_eq_some_iff] at hrun
      obtain ⟨t, ht, hrun⟩ := hrun
      obtain ⟨hI', hpay⟩ := hstep s a List.mem_cons_self t hI ht
      have hrest := ih (fun s b hb => hstep s b (List.mem_cons_of_mem a hb)) hI' hrun
      simp only [tally, ht]
      omega

/-- **The rule of the potential.**  When the potential of a state pays for every step that
a run can take there, it pays for the run. -/
theorem tally_add_le {c : S → A → S → ℕ} {I : S → Prop} {μ : S → ℕ} {as : List A} {s s' : S}
    (hstep : ∀ s, ∀ a ∈ as, ∀ s', I s → step s a = some s' → I s' ∧ μ s' + c s a s' ≤ μ s)
    (hI : I s) (hrun : run step s as = some s') : tally step c s as + μ s' ≤ μ s := by
  have hcredit : tally step (fun _ _ _ => 0) s as = 0 :=
    tally_eq_zero (stepsMeet_of_forall (fun _ _ _ => rfl) s as)
  have hpays : tally step c s as + μ s' ≤ μ s + tally step (fun _ _ _ => 0) s as :=
    tally_add_le_credit hstep hI hrun
  rwa [hcredit, Nat.add_zero] at hpays

/-- The steps of a run, counted. -/
theorem tally_one {as : List A} :
    ∀ {s s' : S}, run step s as = some s' → tally step (fun _ _ _ => 1) s as = as.length := by
  induction as with
  | nil =>
      intro s s' _
      rfl
  | cons a as ih =>
      intro s s' hrun
      rw [run_cons, Option.bind_eq_some_iff] at hrun
      obtain ⟨t, ht, hrun⟩ := hrun
      simp only [tally, ht, ih hrun, List.length_cons]
      omega

/-- A run is no longer than its potential and credit, when every step pays for itself. -/
theorem length_add_le_credit {credit : S → A → S → ℕ} {I : S → Prop} {μ : S → ℕ} {as : List A}
    {s s' : S} (hstep : ∀ s, ∀ a ∈ as, ∀ s', I s → step s a = some s' →
      I s' ∧ μ s' + 1 ≤ μ s + credit s a s')
    (hI : I s) (hrun : run step s as = some s') :
    as.length + μ s' ≤ μ s + tally step credit s as := by
  have h : tally step (fun _ _ _ => 1) s as + μ s' ≤ μ s + tally step credit s as :=
    tally_add_le_credit hstep hI hrun
  rwa [tally_one hrun] at h

end potential

/-! ## The pace of an operation -/

variable {Env Client Call Act Choice Req View Out : Type} {Ans : Req → Type}

/-- One request is out at a time, and at most `n` are served one after another. -/
def Code.Within : Code Req Ans View Out → ℕ → Prop
  | .done, _ => True
  | .call _ p, n => p.Within n
  | .read k, n => ∀ v, (k v).Within n
  | .request _ callback rest, n => rest = .done ∧ ∃ m, n = m + 1 ∧ ∀ a, (callback a).Within m

/-- Code that has run to its first request. -/
theorem Code.Within.exec {H : Host Env Client Call Act Choice Req Ans View Out} {c : Client}
    {p : Code Req Ans View Out} {n : ℕ} (h : p.Within n) (env : Env) :
    (H.exec c p env).tasks = [] ∨ ∃ r callback m, (H.exec c p env).tasks = [.waiting r callback] ∧
      n = m + 1 ∧ ∀ a, (callback a).Within m := by
  induction p generalizing env with
  | done => exact .inl rfl
  | call o p ih => exact ih h _
  | read k ih => exact ih _ (h _) env
  | request r callback rest =>
      obtain ⟨rfl, m, hm, hcallback⟩ := h
      exact .inr ⟨r, callback, m, rfl, hm, hcallback⟩

/-- An operation of which at most `n` requests are served. -/
inductive Op.Paced (n : ℕ) (op : Op Client Call Choice Req Ans View Out) : Prop
  | ended (h : op.tasks = [])
  | waiting {r : Req} {callback : Ans r → Code Req Ans View Out} {m : ℕ}
      (h : op.tasks = [.waiting r callback]) (hn : op.history.length + m + 1 = n)
      (hcallback : ∀ a, (callback a).Within m)
  | ready {code : Code Req Ans View Out} {m : ℕ} (h : op.tasks = [.ready code])
      (hn : op.history.length + m = n) (hcode : code.Within m)

/-- The steps that an operation of which at most `n` requests are served can still take. -/
def Op.remaining (n : ℕ) (op : Op Client Call Choice Req Ans View Out) : ℕ :=
  match op.tasks with
  | [] => 0
  | .waiting .. :: _ => 2 * (n - op.history.length)
  | .ready _ :: _ => 2 * (n - op.history.length) + 1

section op
variable (H : Host Env Client Call Act Choice Req Ans View Out) (c : Client) (env : Env) {n : ℕ}
variable {op : Op Client Call Choice Req Ans View Out}

/-- An operation that has just run code is at its pace. -/
theorem Op.paced_exec {code : Code Req Ans View Out} {m : ℕ} (hcode : code.Within m)
    (hn : op.history.length + m = n) (htasks : op.tasks = (H.exec c code env).tasks) :
    op.Paced n ∧ op.remaining n ≤ 2 * m := by
  rcases hcode.exec (H := H) (c := c) env with hover | ⟨r, callback, m', hwait, rfl, hcallback⟩
  · rw [hover] at htasks
    exact ⟨.ended htasks, by simp [remaining, htasks]⟩
  · rw [hwait] at htasks
    exact ⟨.waiting htasks (by omega) hcallback, by simp only [remaining, htasks]; omega⟩

/-- An operation has one task at most. -/
theorem Op.Paced.tasks_eq (h : op.Paced n) {j : ℕ} {task : Task Req Ans View Out}
    (ht : op.tasks[j]? = some task) : j = 0 ∧ op.tasks = [task] := by
  have hone : ∀ task', op.tasks = [task'] → j = 0 ∧ op.tasks = [task] := by
    intro task' htasks
    rw [htasks, List.getElem?_singleton] at ht
    obtain ⟨hj, heq⟩ := Option.ite_none_right_eq_some.mp ht
    exact ⟨hj, by rw [htasks, Option.some.inj heq]⟩
  cases h with
  | ended hnil => simp [hnil] at ht
  | waiting hwait => exact hone _ hwait
  | ready hready => exact hone _ hready

/-- Serving the request of an operation takes one of its steps. -/
theorem Op.Paced.answer (h : op.Paced n) {j : ℕ} {r : Req}
    {callback : Ans r → Code Req Ans View Out}
    (ht : op.tasks[j]? = some (.waiting r callback)) (choice : Choice) (a : Ans r)
    {op' : Op Client Call Choice Req Ans View Out}
    (hhistory : op'.history = op.history ++ [⟨r, choice, a⟩])
    (htasks : op'.tasks = op.tasks.set j (.ready (callback a))) :
    op'.Paced n ∧ op'.remaining n + 1 ≤ op.remaining n := by
  obtain ⟨rfl, hone⟩ := h.tasks_eq ht
  rw [hone, List.set_cons_zero] at htasks
  have hlength : op'.history.length = op.history.length + 1 := by simp [hhistory]
  cases h with
  | ended hnil => rw [hnil] at hone; cases hone
  | ready hready => rw [hready] at hone; cases hone
  | waiting hwait hn hcallback =>
      rw [hwait] at hone
      cases hone
      refine ⟨.ready htasks (by omega) (hcallback a), ?_⟩
      simp only [remaining, htasks, hwait, hlength]
      omega

/-- Running a callback of an operation takes one of its steps. -/
theorem Op.Paced.resume (h : op.Paced n) {j : ℕ} {code : Code Req Ans View Out}
    (ht : op.tasks[j]? = some (.ready code)) {op' : Op Client Call Choice Req Ans View Out}
    (hhistory : op'.history = op.history)
    (htasks : op'.tasks = op.tasks.eraseIdx j ++ (H.exec c code env).tasks) :
    op'.Paced n ∧ op'.remaining n + 1 ≤ op.remaining n := by
  obtain ⟨rfl, hone⟩ := h.tasks_eq ht
  rw [hone, List.eraseIdx_cons_zero, List.nil_append] at htasks
  cases h with
  | ended hnil => rw [hnil] at hone; cases hone
  | waiting hwait => rw [hwait] at hone; cases hone
  | @ready code' m hready hn hcode =>
      rw [hready] at hone
      cases hone
      obtain ⟨hpaced, hle⟩ := paced_exec H c env hcode (by rw [hhistory, hn]) htasks
      refine ⟨hpaced, ?_⟩
      have hbefore : op.remaining n = 2 * m + 1 := by
        simp only [remaining, hready]
        omega
      omega

end op

namespace World
variable {H : Host Env Client Call Act Choice Req Ans View Out}
variable {w w' : World Env Client Call Choice Req Ans View Out}
variable {action : Action Client Call Act Choice} {n K : ℕ}

/-- At most `n` requests of each operation are served. -/
def Paced (n : ℕ) (w : World Env Client Call Choice Req Ans View Out) : Prop :=
  ∀ i op, w.ops i = some op → op.Paced n

theorem paced_initial (env : Env) :
    Paced n (initial env : World Env Client Call Choice Req Ans View Out) := by
  intro i op h
  cases h

theorem Paced.step (h : Paced n w) (hcode : ∀ call, (H.code call).Within n)
    (hs : w.step H action = some w') : Paced n w' := by
  intro k op' hop'
  rcases op_cases hs hop' with hop | ⟨c, call, env, rfl, hk, ha, henv, rfl⟩ |
    ⟨j, choice, op, r, callback, a, rfl, hop, ht, hr, rfl⟩ | ⟨j, op, code, rfl, hop, ht, rfl⟩
  · exact h k op' hop
  · exact (Op.paced_exec H c env (hcode call) (by simp) (by rfl)).1
  · exact ((h k op hop).answer ht choice a (by rfl) (by rfl)).1
  · exact ((h k op hop).resume H op.client w.env ht (by rfl) (by rfl)).1

/-! ## What is outstanding -/

/-- The steps that the operations below `K` can still take. -/
def outstanding (n K : ℕ) (w : World Env Client Call Choice Req Ans View Out) : ℕ :=
  ∑ i ∈ Finset.range K, ((w.ops i).map (Op.remaining n)).getD 0

@[simp] theorem outstanding_initial (env : Env) :
    outstanding n K (initial env : World Env Client Call Choice Req Ans View Out) = 0 := by
  simp [outstanding, initial]

/-- A sum over a function changes with it in one place. -/
theorem sum_update {α : Type} (g : α → ℕ) (f : ℕ → α) {i : ℕ} (hi : i < K) (x : α) :
    ∑ k ∈ Finset.range K, g (Function.update f i x k) + g (f i) =
      ∑ k ∈ Finset.range K, g (f k) + g x := by
  have hmem : i ∈ Finset.range K := Finset.mem_range.mpr hi
  have hrest : ∑ k ∈ (Finset.range K).erase i, g (Function.update f i x k) =
      ∑ k ∈ (Finset.range K).erase i, g (f k) := by
    refine Finset.sum_congr rfl fun k hk => ?_
    rw [Function.update_of_ne (Finset.ne_of_mem_erase hk)]
  rw [← Finset.add_sum_erase _ _ hmem, ← Finset.add_sum_erase _ _ hmem, hrest,
    Function.update_self]
  omega

/-- Replacing one operation changes only its share. -/
theorem outstanding_update {i : ℕ} (hi : i < K) {op : Op Client Call Choice Req Ans View Out}
    (hops : w'.ops = Function.update w.ops i (some op)) :
    outstanding n K w' + ((w.ops i).map (Op.remaining n)).getD 0 =
      outstanding n K w + op.remaining n := by
  rw [outstanding, hops]
  exact sum_update (fun op => (op.map (Op.remaining n)).getD 0) w.ops hi (some op)

/-- **The outstanding steps through a step**: a call adds at most `2 * n` of them, and
serving a request or running a callback takes one away. -/
theorem Paced.outstanding_step (h : Paced n w) (hcode : ∀ call, (H.code call).Within n)
    (hK : ∀ i ∈ action.op?, i < K) (hs : w.step H action = some w') :
    match action with
    | .start .. => outstanding n K w' ≤ outstanding n K w + 2 * n
    | .serve .. | .deliver .. => outstanding n K w' + 1 ≤ outstanding n K w
    | .act _ => outstanding n K w' = outstanding n K w := by
  rcases step_cases hs with ⟨i, c, call, env, rfl, hi, ha, rfl⟩ |
    ⟨i, j, choice, op, r, callback, env, a, rfl, hi, ht, hr, rfl⟩ |
    ⟨i, j, op, code, rfl, hi, ht, rfl⟩ | ⟨a, env, rfl, ha, rfl⟩
  · have hsum := outstanding_update (n := n) (hK i rfl) (ops_resume (H := H) w i
      (opening H w.env c call) env (H.code call))
    have hle : Op.remaining n { opening H w.env c call with
        outs := [] ++ (H.exec c (H.code call) env).outs,
        tasks := [] ++ (H.exec c (H.code call) env).tasks } ≤ 2 * n :=
      (Op.paced_exec H c env (hcode call) (by simp [opening]) (by rfl)).2
    simp only [hi, Option.map_none, Option.getD_none, Nat.add_zero] at hsum
    exact hsum.le.trans (Nat.add_le_add_left hle _)
  · have hsum := outstanding_update (n := n) (hK i rfl)
      (ops_answer w i j op env (callback a) choice a)
    have hle : Op.remaining n { op with history := op.history ++ [⟨r, choice, a⟩],
                                        tasks := op.tasks.set j (.ready (callback a)) } + 1 ≤
        op.remaining n :=
      ((h i op hi).answer ht choice a (by rfl) (by rfl)).2
    simp only [hi, Option.map_some, Option.getD_some] at hsum
    dsimp only
    omega
  · have hsum := outstanding_update (n := n) (hK i rfl) (ops_resume (H := H) w i
      { op with tasks := op.tasks.eraseIdx j } w.env code)
    have hle : Op.remaining n { op with
          outs := op.outs ++ (H.exec op.client code w.env).outs,
          tasks := op.tasks.eraseIdx j ++ (H.exec op.client code w.env).tasks } + 1 ≤
        op.remaining n :=
      ((h i op hi).resume H op.client w.env ht (by rfl) (by rfl)).2
    simp only [hi, Option.map_some, Option.getD_some] at hsum
    dsimp only
    omega
  · rfl

end World

end FirebaseApps.Lib
