import FirebaseApps.Lib.Settling
import Mathlib.Algebra.BigOperators.Ring.Finset

/-!
# Work that comes to an end

When no further call is made, a world goes on by serving requests and running callbacks
only.  Code that sends finitely many requests, whatever they are answered, owes finitely
many such steps: two for each request, and one for a callback that has its answer.  So
every schedule of these steps ends, and where every request can be answered it ends with
nothing under way.

No pace is asked of the code: a call may have any number of requests out at once.
-/

namespace FirebaseApps.Lib

variable {Env Client Call Act Choice Req View Out : Type} {Ans : Req → Type}

/-! ## What code owes -/

/-- At most `n` requests are sent, whatever is read and answered. -/
def Code.AtMost : Code Req Ans View Out → ℕ → Prop
  | .done, _ => True
  | .call _ p, n => p.AtMost n
  | .read k, n => ∀ v, (k v).AtMost n
  | .request _ callback rest, n =>
      ∃ m k, m + k + 1 ≤ n ∧ (∀ a, (callback a).AtMost m) ∧ rest.AtMost k

theorem Code.AtMost.mono {p : Code Req Ans View Out} {n n' : ℕ} (h : p.AtMost n) (hle : n ≤ n') :
    p.AtMost n' := by
  induction p generalizing n n' with
  | done => trivial
  | call o p ih => exact ih h hle
  | read k ih => exact fun v => ih v (h v) hle
  | request r callback rest =>
      obtain ⟨m, k, hsum, hcallback, hrest⟩ := h
      exact ⟨m, k, hsum.trans hle, hcallback, hrest⟩

/-- The steps that a task can lead to, itself included. -/
inductive Task.Costs : Task Req Ans View Out → ℕ → Prop
  | waiting {r : Req} {callback : Ans r → Code Req Ans View Out} {m : ℕ}
      (h : ∀ a, (callback a).AtMost m) : Costs (.waiting r callback) (2 * m + 2)
  | ready {code : Code Req Ans View Out} {m : ℕ} (h : code.AtMost m) :
      Costs (.ready code) (2 * m + 1)

/-- The tasks lead to at most `n` steps. -/
def Owes : List (Task Req Ans View Out) → ℕ → Prop
  | [], _ => True
  | task :: tasks, n => ∃ k m, task.Costs k ∧ Owes tasks m ∧ k + m ≤ n

section owes
variable {tasks tasks' : List (Task Req Ans View Out)} {n n' j : ℕ}

theorem Owes.mono (h : Owes tasks n) (hle : n ≤ n') : Owes tasks n' := by
  cases tasks with
  | nil => trivial
  | cons task tasks =>
      obtain ⟨k, m, hk, hm, hsum⟩ := h
      exact ⟨k, m, hk, hm, hsum.trans hle⟩

theorem Owes.append (h : Owes tasks n) (h' : Owes tasks' n') : Owes (tasks ++ tasks') (n + n') := by
  induction tasks generalizing n with
  | nil => exact h'.mono (Nat.le_add_left n' n)
  | cons task tasks ih =>
      obtain ⟨k, m, hk, hm, hsum⟩ := h
      exact ⟨k, m + n', hk, ih hm, by omega⟩

/-- A request that is served leaves its callback, one step less. -/
theorem Owes.serve {r : Req} {callback : Ans r → Code Req Ans View Out} (h : Owes tasks n)
    (ht : tasks[j]? = some (.waiting r callback)) (a : Ans r) :
    ∃ m, m + 1 ≤ n ∧ Owes (tasks.set j (.ready (callback a))) m := by
  induction tasks generalizing n j with
  | nil => simp at ht
  | cons task tasks ih =>
      obtain ⟨k, m, hk, hm, hsum⟩ := h
      cases j with
      | zero =>
          obtain rfl : task = .waiting r callback := by simpa using ht
          cases hk with
          | @waiting _ _ m' hcallback =>
              exact ⟨2 * m' + 1 + m, by omega, _, m, .ready (hcallback a), hm, le_rfl⟩
      | succ j =>
          obtain ⟨m', hlt, hrest⟩ := ih hm (by simpa using ht)
          exact ⟨k + m', by omega, k, m', hk, hrest, le_rfl⟩

/-- A callback that runs is taken off the tasks, with what it costs. -/
theorem Owes.eraseIdx {code : Code Req Ans View Out} (h : Owes tasks n)
    (ht : tasks[j]? = some (.ready code)) :
    ∃ m k, code.AtMost m ∧ Owes (tasks.eraseIdx j) k ∧ 2 * m + 1 + k ≤ n := by
  induction tasks generalizing n j with
  | nil => simp at ht
  | cons task tasks ih =>
      obtain ⟨k, m, hk, hm, hsum⟩ := h
      cases j with
      | zero =>
          obtain rfl : task = .ready code := by simpa using ht
          cases hk with
          | @ready _ m' hcode => exact ⟨m', m, hcode, hm, hsum⟩
      | succ j =>
          obtain ⟨m', k', hcode, hrest, hle⟩ := ih hm (by simpa using ht)
          exact ⟨m', k + k', hcode, ⟨k, k', hk, hrest, le_rfl⟩, by omega⟩

/-- Code that has run owes the steps of the requests it has sent. -/
theorem Code.AtMost.owes {p : Code Req Ans View Out} (h : p.AtMost n)
    (H : Host Env Client Call Act Choice Req Ans View Out) (c : Client) (env : Env) :
    Owes (H.exec c p env).tasks (2 * n) := by
  induction p generalizing n env with
  | done => trivial
  | call o p ih => exact ih h _
  | read k ih => exact ih _ (h _) env
  | request r callback rest _ ih =>
      obtain ⟨m, k, hle, hcallback, hrest⟩ := h
      exact ⟨2 * m + 2, 2 * k, .waiting hcallback, ih hrest env, by omega⟩

end owes

/-! ## What a world owes -/

/-- The step goes on with a call that has been made. -/
def Action.continues : Action Client Call Act Choice → Bool
  | .serve .. | .deliver .. => true
  | .start .. | .act _ => false

/-- Every request can be answered. -/
def Host.Responsive (H : Host Env Client Call Act Choice Req Ans View Out) : Prop :=
  ∀ env c r, ∃ choice, (H.serve env c r choice).isSome

namespace World
variable {H : Host Env Client Call Act Choice Req Ans View Out}
variable {w w' : World Env Client Call Choice Req Ans View Out}
variable {action : Action Client Call Act Choice} {n : Call → ℕ} {K N : ℕ}

/-- Nothing is under way. -/
def Quiet (w : World Env Client Call Choice Req Ans View Out) : Prop :=
  ∀ i op, w.ops i = some op → op.tasks = []

/-- The operations owe no more than their calls did when they were made. -/
def Budgeted (n : Call → ℕ) (w : World Env Client Call Choice Req Ans View Out) : Prop :=
  ∀ i op, w.ops i = some op → Owes op.tasks (2 * n op.call)

theorem budgeted_initial (env : Env) :
    Budgeted n (initial env : World Env Client Call Choice Req Ans View Out) := by
  intro i op hop
  cases hop

theorem Budgeted.step (h : Budgeted n w) (hcode : ∀ call, (H.code call).AtMost (n call))
    (hs : w.step H action = some w') : Budgeted n w' := by
  intro k op' hop'
  rcases op_cases hs hop' with hop | ⟨c, call, env, rfl, hk, ha, henv, rfl⟩ |
    ⟨j, choice, op, r, callback, a, rfl, hop, ht, hr, rfl⟩ | ⟨j, op, code, rfl, hop, ht, rfl⟩
  · exact h k op' hop
  · exact (hcode call).owes H c env
  · obtain ⟨m, hm, hrest⟩ := (h k op hop).serve ht a
    exact hrest.mono (Nat.le_of_succ_le hm)
  · obtain ⟨m, k', hm, hrest, hle⟩ := (h k op hop).eraseIdx ht
    have hless : k' + 2 * m ≤ 2 * n op.call := by omega
    exact (hrest.append (hm.owes H op.client w.env)).mono hless

/-- There are no operations but those below `K`, and together they owe at most `N` steps. -/
def Owing (K N : ℕ) (w : World Env Client Call Choice Req Ans View Out) : Prop :=
  (∀ i, K ≤ i → w.ops i = none) ∧
    ∃ f : ℕ → ℕ, (∀ i op, w.ops i = some op → Owes op.tasks (f i)) ∧ ∑ i ∈ Finset.range K, f i ≤ N

/-- Replacing one operation by one that owes a step less. -/
theorem Owing.update (h : Owing K N w) {i : ℕ} {op op' : Op Client Call Choice Req Ans View Out}
    (hop : w.ops i = some op) (hops : w'.ops = Function.update w.ops i (some op'))
    (hless : ∀ m, Owes op.tasks m → ∃ m', m' + 1 ≤ m ∧ Owes op'.tasks m') :
    ∃ N', N' + 1 ≤ N ∧ Owing K N' w' := by
  obtain ⟨hbelow, f, hf, hsum⟩ := h
  have hi : i < K := by
    by_contra hle
    rw [hbelow i (Nat.le_of_not_lt hle)] at hop
    cases hop
  obtain ⟨m', hm', howes⟩ := hless (f i) (hf i op hop)
  have hchange : ∑ k ∈ Finset.range K, Function.update f i m' k + f i =
      ∑ k ∈ Finset.range K, f k + m' := sum_update (fun x => x) f hi m'
  refine ⟨∑ k ∈ Finset.range K, Function.update f i m' k, by omega, fun k hk => ?_,
    Function.update f i m', fun k op₀ hop₀ => ?_, le_rfl⟩
  · rw [hops, Function.update_of_ne (by omega)]
    exact hbelow k hk
  · rw [hops] at hop₀
    by_cases hk : k = i
    · subst hk
      obtain rfl : op' = op₀ := by simpa using hop₀
      simpa using howes
    · rw [Function.update_of_ne hk] at hop₀ ⊢
      exact hf k op₀ hop₀

/-- **A step that goes on with a call is one of those owed.** -/
theorem Owing.step (h : Owing K N w) (hcont : action.continues)
    (hs : w.step H action = some w') : ∃ N', N' + 1 ≤ N ∧ Owing K N' w' := by
  rcases step_cases hs with ⟨i, c, call, env, rfl, hi, ha, rfl⟩ |
    ⟨i, j, choice, op, r, callback, env, a, rfl, hi, ht, hr, rfl⟩ |
    ⟨i, j, op, code, rfl, hi, ht, rfl⟩ | ⟨a, env, rfl, ha, rfl⟩
  · cases hcont
  · exact h.update hi rfl fun m hm => hm.serve ht a
  · refine h.update hi rfl fun m hm => ?_
    obtain ⟨m', k, hcode, hrest, hle⟩ := hm.eraseIdx ht
    exact ⟨_, by omega, hrest.append (hcode.owes H op.client w.env)⟩
  · cases hcont

/-- A schedule is no longer than what is owed, and what is owed after it is less. -/
theorem Owing.run {as : List (Action Client Call Act Choice)} (h : Owing K N w)
    (hcont : ∀ a ∈ as, a.continues) (hrun : Lib.run (World.step H) w as = some w') :
    ∃ N', N' + as.length ≤ N ∧ Owing K N' w' := by
  induction as generalizing w N with
  | nil =>
      obtain rfl : w = w' := by simpa using hrun
      exact ⟨N, le_rfl, h⟩
  | cons a as ih =>
      rw [run_cons, Option.bind_eq_some_iff] at hrun
      obtain ⟨t, ht, hrun⟩ := hrun
      obtain ⟨N₁, hN₁, h₁⟩ := h.step (hcont a List.mem_cons_self) ht
      obtain ⟨N', hN', h'⟩ := ih h₁ (fun b hb => hcont b (List.mem_cons_of_mem a hb)) hrun
      exact ⟨N', by rw [List.length_cons]; omega, h'⟩

/-! ## Schedules end -/

/-- Where something is under way, a step that goes on with it is open. -/
theorem exists_continues (hH : H.Responsive) (h : ¬ Quiet w) :
    ∃ (action : Action Client Call Act Choice) (w' : World Env Client Call Choice Req Ans View Out),
      action.continues ∧ w.step H action = some w' := by
  simp only [Quiet, not_forall] at h
  obtain ⟨i, op, hop, htasks⟩ := h
  obtain ⟨task, rest, hcons⟩ := List.exists_cons_of_ne_nil htasks
  have ht : op.tasks[0]? = some task := by rw [hcons]; rfl
  cases task with
  | waiting r callback =>
      obtain ⟨choice, hsome⟩ := hH w.env op.client r
      obtain ⟨⟨env, a⟩, hserve⟩ := Option.isSome_iff_exists.mp hsome
      exact ⟨.serve i 0 choice, w.answer i 0 op env r choice a (callback a), rfl,
        by simp [World.step, hop, ht, hserve]⟩
  | ready code =>
      exact ⟨.deliver i 0, w.resume H i { op with tasks := op.tasks.eraseIdx 0 } w.env code, rfl,
        by simp [World.step, hop, ht]⟩

/-- Some schedule leaves nothing under way. -/
theorem Owing.exists_quiet (hH : H.Responsive) (h : Owing K N w) :
    ∃ (as : List (Action Client Call Act Choice))
      (w' : World Env Client Call Choice Req Ans View Out),
      (∀ a ∈ as, a.continues) ∧ Lib.run (World.step H) w as = some w' ∧ Quiet w' := by
  induction N using Nat.strong_induction_on generalizing w with
  | _ N ih =>
      by_cases hquiet : Quiet w
      · exact ⟨[], w, by simp, rfl, hquiet⟩
      · obtain ⟨a, t, hcont, ht⟩ := exists_continues hH hquiet
        obtain ⟨N', hN', hrest⟩ := h.step hcont ht
        obtain ⟨as, w', has, hrun, hw'⟩ := ih N' (by omega) hrest
        refine ⟨a :: as, w', ?_, ?_, hw'⟩
        · simpa [hcont] using has
        · rw [run_cons, ht, Option.bind_some]
          exact hrun

/-- What is under way ends, within `N` steps. -/
structure Settles (H : Host Env Client Call Act Choice Req Ans View Out) (N : ℕ)
    (w : World Env Client Call Choice Req Ans View Out) : Prop where
  /-- No schedule is longer. -/
  bounded : ∀ as w', (∀ a ∈ as, a.continues) → Lib.run (World.step H) w as = some w' → as.length ≤ N
  /-- A schedule that cannot go on has left nothing under way. -/
  finished : ∀ as w', (∀ a ∈ as, a.continues) → Lib.run (World.step H) w as = some w' →
    (∀ a : Action Client Call Act Choice, a.continues → w'.step H a = none) → Quiet w'
  /-- Some schedule leaves nothing under way. -/
  ends : ∃ as w', (∀ a ∈ as, a.continues) ∧ Lib.run (World.step H) w as = some w' ∧ Quiet w'

/-- A run makes finitely many calls. -/
theorem exists_ops_none {env : Env} (h : Reachable (World.step H) (initial env) w) :
    ∃ K, ∀ i, K ≤ i → w.ops i = none :=
  h.invariant (P := fun w => ∃ K, ∀ i, K ≤ i → w.ops i = none) ⟨0, fun _ _ => rfl⟩
    fun _ _ _ hK hs => exists_ops_none_step hK hs

/-- The requests that the calls under way can send in all. -/
def underWay (n : Call → ℕ) (K : ℕ) (w : World Env Client Call Choice Req Ans View Out) : ℕ :=
  ∑ i ∈ Finset.range K, ((w.ops i).map fun op => if op.tasks.isEmpty then 0 else n op.call).getD 0

theorem Budgeted.owing (h : Budgeted n w) (hK : ∀ i, K ≤ i → w.ops i = none) :
    Owing K (2 * underWay n K w) w := by
  refine ⟨hK, fun i => 2 * ((w.ops i).map fun op =>
    if op.tasks.isEmpty then 0 else n op.call).getD 0, fun i op hop => ?_, ?_⟩
  · have howes := h i op hop
    cases htasks : op.tasks with
    | nil => trivial
    | cons task tasks => simpa [hop, htasks] using howes
  · rw [underWay, Finset.mul_sum]

/-- **What is under way ends**, in every reachable world of calls that send finitely many
requests each, within two steps for each request of a call under way. -/
theorem settles_of_reachable (hcode : ∀ call, (H.code call).AtMost (n call)) (hH : H.Responsive)
    {env : Env} (h : Reachable (World.step H) (initial env) w) :
    ∃ K, (∀ i, K ≤ i → w.ops i = none) ∧ Settles H (2 * underWay n K w) w := by
  obtain ⟨K, hK⟩ := exists_ops_none h
  have hbudget : Budgeted n w :=
    h.invariant (budgeted_initial env) fun _ _ _ hw hs => hw.step hcode hs
  have howing : Owing K (2 * underWay n K w) w := hbudget.owing hK
  refine ⟨K, hK, fun as w' hcont hrun => ?_, fun as w' _ _ hstuck => ?_, howing.exists_quiet hH⟩
  · obtain ⟨N', hN', -⟩ := howing.run hcont hrun
    omega
  · by_contra hquiet
    obtain ⟨a, t, hcont, ht⟩ := exists_continues hH hquiet
    rw [hstuck a hcont] at ht
    cases ht

end World

end FirebaseApps.Lib
