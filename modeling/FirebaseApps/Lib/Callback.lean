import FirebaseApps.Lib.Run
import Mathlib.Logic.Function.Basic

/-!
# Callback programs and their interleavings

Client code of a backend service is a function that sends a request together
with a callback, returns, and goes on in the callback once the answer is there.
`Code` is that shape as a tree.  A `World` holds any number of operations, each
at its own place in its own code, over one shared environment; its steps are

* a client makes a call, whose code runs up to its requests,
* the backend serves one waiting request, well or badly,
* one answered callback runs, up to the next requests,
* the environment moves on its own.

Callbacks run atomically and answers arrive in any order, so the runs of a world
are all interleavings of its operations cut at their requests.

## Main definitions

* `Code` — callback code.
* `Host` — what the code runs on: the environment, the backend and the calls.
* `World`, `World.step` — the interleaving machine.
* `Logged`, `Accounted` — the log and the requests sent, in terms of the operations.

## Main results

* `step_cases`, `op_cases` — what one step does to the world, and to one operation.
-/

namespace FirebaseApps.Lib

variable {Env Client Call Act Choice Req View Out : Type} {Ans : Req → Type}

/-! ## Code -/

/-- Callback code: a request is sent with its callback, and the statements after
it run at once. -/
inductive Code (Req : Type) (Ans : Req → Type) (View Out : Type) : Type
  /-- Nothing is left to run. -/
  | done
  /-- An effect that needs no answer, such as calling a completion. -/
  | call (o : Out) (rest : Code Req Ans View Out)
  /-- Read variables of the client. -/
  | read (k : View → Code Req Ans View Out)
  /-- Send a request, then run `rest`; `callback` runs on the answer. -/
  | request (r : Req) (callback : Ans r → Code Req Ans View Out) (rest : Code Req Ans View Out)

namespace Code

/-- No statement follows a request, so at most one request is out at any time. -/
def Linear : Code Req Ans View Out → Prop
  | done => True
  | call _ p => Linear p
  | read k => ∀ v, Linear (k v)
  | request _ callback rest => (∀ a, Linear (callback a)) ∧ rest = done

end Code

/-- A request that is out, or a callback that has its answer and waits to run. -/
inductive Task (Req : Type) (Ans : Req → Type) (View Out : Type) : Type
  | waiting (r : Req) (callback : Ans r → Code Req Ans View Out)
  | ready (code : Code Req Ans View Out)

/-- The request a task waits for. -/
def Task.request? : Task Req Ans View Out → Option Req
  | .waiting r _ => some r
  | .ready _ => none

/-- A served request: what was asked, what the backend chose, what it answered. -/
structure Event (Req : Type) (Ans : Req → Type) (Choice : Type) : Type where
  req : Req
  choice : Choice
  ans : Ans req

/-- One call that was made, and how far it has come. -/
structure Op (Client Call Choice Req : Type) (Ans : Req → Type) (View Out : Type) : Type where
  client : Client
  call : Call
  /-- What the client's variables were when the call was made. -/
  origin : View
  /-- The served requests of this operation, oldest first. -/
  history : List (Event Req Ans Choice)
  /-- Its effects, oldest first. -/
  outs : List Out
  tasks : List (Task Req Ans View Out)

/-- An entry of the world's log: the operation, its call and the served request. -/
structure Entry (Call Choice Req : Type) (Ans : Req → Type) : Type where
  op : ℕ
  call : Call
  event : Event Req Ans Choice

/-- A request that was sent: the operation, its call and the request. -/
structure Sent (Call Req : Type) : Type where
  op : ℕ
  call : Call
  req : Req

/-- What callback code runs on. -/
structure Host (Env Client Call Act Choice Req : Type) (Ans : Req → Type)
    (View Out : Type) : Type where
  /-- The variables of a client that its code reads. -/
  view : Env → Client → View
  /-- What an effect of a client does to the environment. -/
  emit : Env → Client → Out → Env
  /-- The backend serves a request; `none` when this choice is not open to it. -/
  serve : Env → Client → (r : Req) → Choice → Option (Env × Ans r)
  /-- Whether a client can make a call, and what making it does. -/
  accept : Env → Client → Call → Option Env
  /-- The code of a call. -/
  code : Call → Code Req Ans View Out
  /-- What the environment does on its own. -/
  act : Env → Act → Option Env

/-- What running code does before it waits: the environment it leaves, its effects
and the requests it sends. -/
structure Effect (Env Req : Type) (Ans : Req → Type) (View Out : Type) : Type where
  env : Env
  outs : List Out
  tasks : List (Task Req Ans View Out)

/-- Run the code of a client up to its requests. -/
def Host.exec (H : Host Env Client Call Act Choice Req Ans View Out) (c : Client) :
    Code Req Ans View Out → Env → Effect Env Req Ans View Out
  | .done, env => ⟨env, [], []⟩
  | .call o p, env =>
      let e := H.exec c p (H.emit env c o)
      ⟨e.env, o :: e.outs, e.tasks⟩
  | .read k, env => H.exec c (k (H.view env c)) env
  | .request r callback p, env =>
      let e := H.exec c p env
      ⟨e.env, e.outs, .waiting r callback :: e.tasks⟩

/-- All operations, over one environment.  `log` and `sent` record what was
served and what was sent, oldest first. -/
structure World (Env Client Call Choice Req : Type) (Ans : Req → Type)
    (View Out : Type) : Type where
  env : Env
  ops : ℕ → Option (Op Client Call Choice Req Ans View Out)
  log : List (Entry Call Choice Req Ans)
  sent : List (Sent Call Req)

/-- The steps of a world.  Operations and their tasks are named by number. -/
inductive Action (Client Call Act Choice : Type) : Type
  | start (i : ℕ) (c : Client) (call : Call)
  | serve (i j : ℕ) (choice : Choice)
  | deliver (i j : ℕ)
  | act (a : Act)
  deriving DecidableEq

/-- The operation an action is about. -/
def Action.op? : Action Client Call Act Choice → Option ℕ
  | .start i _ _ | .serve i _ _ | .deliver i _ => some i
  | .act _ => none

namespace World

variable (H : Host Env Client Call Act Choice Req Ans View Out)

/-- A world in which no call has been made. -/
def initial (env : Env) : World Env Client Call Choice Req Ans View Out :=
  ⟨env, fun _ => none, [], []⟩

/-- Run `code` for operation `i`, from the environment `env`. -/
def resume (w : World Env Client Call Choice Req Ans View Out) (i : ℕ)
    (op : Op Client Call Choice Req Ans View Out) (env : Env) (code : Code Req Ans View Out) :
    World Env Client Call Choice Req Ans View Out :=
  let e := H.exec op.client code env
  { env := e.env
    ops := Function.update w.ops i
      (some { op with outs := op.outs ++ e.outs, tasks := op.tasks ++ e.tasks })
    log := w.log
    sent := w.sent ++ (e.tasks.filterMap Task.request?).map fun r => ⟨i, op.call, r⟩ }

/-- The operation as it is when its call is made. -/
def opening (env : Env) (c : Client) (call : Call) :
    Op Client Call Choice Req Ans View Out :=
  ⟨c, call, H.view env c, [], [], []⟩

/-- The answer `a` to task `j` of operation `i`, under the choice `choice`. -/
def answer (w : World Env Client Call Choice Req Ans View Out) (i j : ℕ)
    (op : Op Client Call Choice Req Ans View Out) (env : Env) (r : Req) (choice : Choice)
    (a : Ans r) (code : Code Req Ans View Out) : World Env Client Call Choice Req Ans View Out :=
  { env := env
    ops := Function.update w.ops i
      (some { op with history := op.history ++ [⟨r, choice, a⟩],
                      tasks := op.tasks.set j (.ready code) })
    log := w.log ++ [⟨i, op.call, ⟨r, choice, a⟩⟩]
    sent := w.sent }

/-- One step of the world. -/
def step (w : World Env Client Call Choice Req Ans View Out) :
    Action Client Call Act Choice → Option (World Env Client Call Choice Req Ans View Out)
  | .start i c call =>
      match w.ops i, H.accept w.env c call with
      | none, some env => some (w.resume H i (opening H w.env c call) env (H.code call))
      | _, _ => none
  | .serve i j choice =>
      (w.ops i).bind fun op =>
        match op.tasks[j]? with
        | some (.waiting r callback) =>
            (H.serve w.env op.client r choice).map fun ea =>
              w.answer i j op ea.1 r choice ea.2 (callback ea.2)
        | _ => none
  | .deliver i j =>
      (w.ops i).bind fun op =>
        match op.tasks[j]? with
        | some (.ready code) =>
            some (w.resume H i { op with tasks := op.tasks.eraseIdx j } w.env code)
        | _ => none
  | .act a => (H.act w.env a).map fun env => { w with env := env }

section simp_lemmas
variable {H} (w : World Env Client Call Choice Req Ans View Out) (i j : ℕ)
  (op : Op Client Call Choice Req Ans View Out) (env : Env) (code : Code Req Ans View Out)
  {r : Req} (choice : Choice) (a : Ans r)

@[simp] theorem env_resume :
    (w.resume H i op env code).env = (H.exec op.client code env).env := rfl
@[simp] theorem log_resume : (w.resume H i op env code).log = w.log := rfl
@[simp] theorem ops_resume : (w.resume H i op env code).ops = Function.update w.ops i
    (some { op with outs := op.outs ++ (H.exec op.client code env).outs,
                    tasks := op.tasks ++ (H.exec op.client code env).tasks }) := rfl
@[simp] theorem env_answer : (w.answer i j op env r choice a code).env = env := rfl
@[simp] theorem log_answer : (w.answer i j op env r choice a code).log =
    w.log ++ [⟨i, op.call, ⟨r, choice, a⟩⟩] := rfl
@[simp] theorem sent_answer : (w.answer i j op env r choice a code).sent = w.sent := rfl
@[simp] theorem ops_answer : (w.answer i j op env r choice a code).ops = Function.update w.ops i
    (some { op with history := op.history ++ [⟨r, choice, a⟩],
                    tasks := op.tasks.set j (.ready code) }) := rfl

end simp_lemmas

variable {H}
variable {w w' : World Env Client Call Choice Req Ans View Out}

/-- **What one step can do.**  Every invariant of a world is derived from this
case split. -/
theorem step_cases {action : Action Client Call Act Choice} (h : w.step H action = some w') :
    (∃ i c call env, action = .start i c call ∧ w.ops i = none ∧
      H.accept w.env c call = some env ∧
      w' = w.resume H i (opening H w.env c call) env (H.code call)) ∨
    (∃ i j choice op r callback env a, action = .serve i j choice ∧ w.ops i = some op ∧
      op.tasks[j]? = some (.waiting r callback) ∧
      H.serve w.env op.client r choice = some (env, a) ∧
      w' = w.answer i j op env r choice a (callback a)) ∨
    (∃ i j op code, action = .deliver i j ∧ w.ops i = some op ∧
      op.tasks[j]? = some (.ready code) ∧
      w' = w.resume H i { op with tasks := op.tasks.eraseIdx j } w.env code) ∨
    (∃ a env, action = .act a ∧ H.act w.env a = some env ∧ w' = { w with env := env }) := by
  cases action with
  | start i c call =>
      simp only [step] at h
      split at h
      next env hi ha => exact .inl ⟨i, c, call, env, rfl, hi, ha, (Option.some.inj h).symm⟩
      next => cases h
  | serve i j choice =>
      simp only [step, Option.bind_eq_some_iff] at h
      obtain ⟨op, hop, h⟩ := h
      split at h
      next r callback ht =>
        obtain ⟨⟨env, a⟩, hs, rfl⟩ := Option.map_eq_some_iff.mp h
        exact .inr (.inl ⟨i, j, choice, op, r, callback, env, a, rfl, hop, ht, hs, rfl⟩)
      next => cases h
  | deliver i j =>
      simp only [step, Option.bind_eq_some_iff] at h
      obtain ⟨op, hop, h⟩ := h
      split at h
      next code ht =>
        exact .inr (.inr (.inl ⟨i, j, op, code, rfl, hop, ht, (Option.some.inj h).symm⟩))
      next => cases h
  | act a =>
      obtain ⟨env, ha, rfl⟩ := Option.map_eq_some_iff.mp h
      exact .inr (.inr (.inr ⟨a, env, rfl, ha, rfl⟩))

/-- Making a call. -/
theorem step_start {i : ℕ} {c : Client} {call : Call} (h : w.step H (.start i c call) = some w') :
    ∃ env, H.accept w.env c call = some env ∧
      w' = w.resume H i (opening H w.env c call) env (H.code call) := by
  simp only [step] at h
  split at h
  next env hi ha => exact ⟨env, ha, (Option.some.inj h).symm⟩
  next => cases h

/-- Serving the request a task waits for. -/
theorem step_serve {i j : ℕ} {choice : Choice} {op : Op Client Call Choice Req Ans View Out}
    {r : Req} {callback : Ans r → Code Req Ans View Out}
    (h : w.step H (.serve i j choice) = some w') (hop : w.ops i = some op)
    (ht : op.tasks[j]? = some (.waiting r callback)) :
    ∃ env a, H.serve w.env op.client r choice = some (env, a) ∧
      w' = w.answer i j op env r choice a (callback a) := by
  simp only [step, hop, ht, Option.bind_some] at h
  obtain ⟨⟨env, a⟩, hr, rfl⟩ := Option.map_eq_some_iff.mp h
  exact ⟨env, a, hr, rfl⟩

/-- `op'` is `op` after a step in which it has had nothing served, or one request. -/
structure Op.Follows (H : Host Env Client Call Act Choice Req Ans View Out)
    (w w' : World Env Client Call Choice Req Ans View Out) (action : Action Client Call Act Choice)
    (i : ℕ) (op op' : Op Client Call Choice Req Ans View Out) : Prop where
  client : op'.client = op.client
  call : op'.call = op.call
  origin : op'.origin = op.origin
  history : op'.history = op.history ∨
    ∃ j choice r callback a, action = .serve i j choice ∧
      op.tasks[j]? = some (.waiting r callback) ∧
      H.serve w.env op.client r choice = some (w'.env, a) ∧
      op'.history = op.history ++ [⟨r, choice, a⟩]

/-- **An operation after a step** is as it was, has just been started, has had a request
served, or has run a callback. -/
theorem op_cases {action : Action Client Call Act Choice} (h : w.step H action = some w')
    {k : ℕ} {op' : Op Client Call Choice Req Ans View Out} (hop' : w'.ops k = some op') :
    w.ops k = some op' ∨
    (∃ c call env, action = .start k c call ∧ w.ops k = none ∧ H.accept w.env c call = some env ∧
      w'.env = (H.exec c (H.code call) env).env ∧
      op' = ⟨c, call, H.view w.env c, [], (H.exec c (H.code call) env).outs,
        (H.exec c (H.code call) env).tasks⟩) ∨
    (∃ j choice op r callback a, action = .serve k j choice ∧ w.ops k = some op ∧
      op.tasks[j]? = some (.waiting r callback) ∧
      H.serve w.env op.client r choice = some (w'.env, a) ∧
      op' = { op with history := op.history ++ [⟨r, choice, a⟩],
                      tasks := op.tasks.set j (.ready (callback a)) }) ∨
    (∃ j op code, action = .deliver k j ∧ w.ops k = some op ∧ op.tasks[j]? = some (.ready code) ∧
      op' = { op with outs := op.outs ++ (H.exec op.client code w.env).outs,
                      tasks := op.tasks.eraseIdx j ++ (H.exec op.client code w.env).tasks }) := by
  rcases step_cases h with ⟨i, c, call, env, rfl, hi, ha, rfl⟩ |
    ⟨i, j, choice, op, r, callback, env, a, rfl, hi, ht, hr, rfl⟩ |
    ⟨i, j, op, code, rfl, hi, ht, rfl⟩ | ⟨a, env, rfl, ha, rfl⟩
  · by_cases hk : k = i
    · subst hk
      obtain rfl := by simpa [opening] using hop'
      exact .inr (.inl ⟨c, call, env, rfl, hi, ha, rfl, rfl⟩)
    · exact .inl (by simpa [hk] using hop')
  · by_cases hk : k = i
    · subst hk
      obtain rfl := by simpa using hop'
      exact .inr (.inr (.inl ⟨j, choice, op, r, callback, a, rfl, hi, ht, hr, rfl⟩))
    · exact .inl (by simpa [hk] using hop')
  · by_cases hk : k = i
    · subst hk
      obtain rfl := by simpa using hop'
      exact .inr (.inr (.inr ⟨j, op, code, rfl, hi, ht, rfl⟩))
    · exact .inl (by simpa [hk] using hop')
  · exact .inl hop'

/-- An operation after a step is one from before it, or has just been started. -/
theorem op_of_step {action : Action Client Call Act Choice} (h : w.step H action = some w')
    {k : ℕ} {op' : Op Client Call Choice Req Ans View Out} (hop' : w'.ops k = some op') :
    (∃ env, action = .start k op'.client op'.call ∧ w.ops k = none ∧
      H.accept w.env op'.client op'.call = some env ∧
      w'.env = (H.exec op'.client (H.code op'.call) env).env ∧ op'.history = []) ∨
    ∃ op, w.ops k = some op ∧ Op.Follows H w w' action k op op' := by
  rcases op_cases h hop' with hop | ⟨c, call, env, rfl, hk, ha, henv, rfl⟩ |
    ⟨j, choice, op, r, callback, a, rfl, hop, ht, hr, rfl⟩ | ⟨j, op, code, rfl, hop, ht, rfl⟩
  · exact .inr ⟨op', hop, rfl, rfl, rfl, .inl rfl⟩
  · exact .inl ⟨env, rfl, hk, ha, henv, rfl⟩
  · exact .inr ⟨op, hop, rfl, rfl, rfl, .inr ⟨j, choice, r, callback, a, rfl, ht, hr, rfl⟩⟩
  · exact .inr ⟨op, hop, rfl, rfl, rfl, .inl rfl⟩

/-- An event of an operation was there before the step, or has just been served. -/
theorem event_of_step {action : Action Client Call Act Choice} (h : w.step H action = some w')
    {k : ℕ} {op' : Op Client Call Choice Req Ans View Out} (hop' : w'.ops k = some op')
    {e : Event Req Ans Choice} (he : e ∈ op'.history) :
    ∃ op, w.ops k = some op ∧ Op.Follows H w w' action k op op' ∧ (e ∈ op.history ∨
      ∃ j, action = .serve k j e.choice ∧
        H.serve w.env op.client e.req e.choice = some (w'.env, e.ans)) := by
  rcases op_of_step h hop' with ⟨_, -, -, -, -, hnil⟩ | ⟨op, hop, hfol⟩
  · simp [hnil] at he
  · refine ⟨op, hop, hfol, ?_⟩
    rcases hfol.history with heq | ⟨j, choice, r, callback, a, haction, -, hr, heq⟩
    · exact .inl (heq ▸ he)
    · rw [heq, List.mem_append, List.mem_singleton] at he
      rcases he with he | rfl
      · exact .inl he
      · exact .inr ⟨j, haction, hr⟩

/-- A step starts at most one operation. -/
theorem exists_ops_none_step {action : Action Client Call Act Choice}
    (h : ∃ K, ∀ i, K ≤ i → w.ops i = none) (hs : w.step H action = some w') :
    ∃ K, ∀ i, K ≤ i → w'.ops i = none := by
  obtain ⟨K, hK⟩ := h
  refine ⟨max K (action.op?.elim 0 (· + 1)), fun i hi => ?_⟩
  cases hop : w'.ops i with
  | none => rfl
  | some op =>
      rcases op_of_step hs hop with ⟨env, rfl, -⟩ | ⟨op₀, hop₀, -⟩
      · exact absurd (Nat.le_trans (Nat.le_max_right K (i + 1)) hi) (Nat.not_succ_le_self i)
      · rw [hK i (by omega)] at hop₀
        cases hop₀

/-- Operations are never forgotten. -/
theorem step_op {action : Action Client Call Act Choice} (h : w.step H action = some w')
    {k : ℕ} {op : Op Client Call Choice Req Ans View Out} (hop : w.ops k = some op) :
    ∃ op', w'.ops k = some op' ∧ Op.Follows H w w' action k op op' := by
  obtain ⟨op', hop'⟩ : ∃ op', w'.ops k = some op' := by
    rcases step_cases h with ⟨i, c, call, env, rfl, hi, ha, rfl⟩ |
      ⟨i, j, choice, op, r, callback, env, a, rfl, hi, ht, hr, rfl⟩ |
      ⟨i, j, op, code, rfl, hi, ht, rfl⟩ | ⟨a, env, rfl, ha, rfl⟩
    · by_cases hk : k = i <;> simp [hk, hop]
    · by_cases hk : k = i <;> simp [hk, hop]
    · by_cases hk : k = i <;> simp [hk, hop]
    · exact ⟨op, hop⟩
  rcases op_of_step h hop' with ⟨env, -, hnone, -⟩ | ⟨op₀, hop₀, hfol⟩
  · simp [hop] at hnone
  · obtain rfl : op₀ = op := by simpa [hop₀] using hop
    exact ⟨op', hop', hfol⟩

/-- A run has no operations but those that its actions are about. -/
theorem ops_run {actions : List (Action Client Call Act Choice)}
    (hrun : run (World.step H) w actions = some w') {n : ℕ} (h : ∀ i, n ≤ i → w.ops i = none)
    (hactions : ∀ action ∈ actions, ∀ i ∈ action.op?, i < n) : ∀ i, n ≤ i → w'.ops i = none := by
  refine run_invariant_of_mem
    (P := fun w : World Env Client Call Choice Req Ans View Out => ∀ i, n ≤ i → w.ops i = none)
    (fun w action hmem w' hw hs i hi => ?_) h hrun
  cases hop : w'.ops i with
  | none => rfl
  | some op =>
      rcases op_of_step hs hop with ⟨env, rfl, -⟩ | ⟨op₀, hop₀, -⟩
      · exact absurd (hactions _ hmem i rfl) (Nat.not_lt.mpr hi)
      · rw [hw i hi] at hop₀
        cases hop₀

/-- So nothing is pending in it when nothing is for these. -/
theorem tasks_run {actions : List (Action Client Call Act Choice)}
    (hrun : run (World.step H) w actions = some w') {n : ℕ} (h : ∀ i, n ≤ i → w.ops i = none)
    (hactions : ∀ action ∈ actions, ∀ i ∈ action.op?, i < n)
    (htasks : ∀ i < n, ∀ op ∈ w'.ops i, op.tasks = []) :
    ∀ i op, w'.ops i = some op → op.tasks = [] := by
  intro i op hop
  by_cases hi : i < n
  · exact htasks i hi op hop
  · rw [ops_run hrun h hactions i (Nat.le_of_not_lt hi)] at hop
    cases hop

/-- The log is what the operations have had served. -/
structure Logged (w : World Env Client Call Choice Req Ans View Out) : Prop where
  served : ∀ i op e, w.ops i = some op → e ∈ op.history → ⟨i, op.call, e⟩ ∈ w.log
  known : ∀ i call e, ⟨i, call, e⟩ ∈ w.log →
    ∃ op, w.ops i = some op ∧ op.call = call ∧ e ∈ op.history

theorem logged_initial (env : Env) :
    Logged (initial env : World Env Client Call Choice Req Ans View Out) where
  served i op e h := by cases h
  known i call e h := by cases h

/-- The log after a step. -/
theorem log_step {action : Action Client Call Act Choice} (hs : w.step H action = some w') :
    w'.log = w.log ∨ ∃ i op r choice a, w.ops i = some op ∧
      w'.log = w.log ++ [⟨i, op.call, ⟨r, choice, a⟩⟩] ∧
      ∃ op', w'.ops i = some op' ∧ op'.call = op.call ∧
        op'.history = op.history ++ [⟨r, choice, a⟩] := by
  rcases step_cases hs with ⟨i, c, call, env, rfl, hi, ha, rfl⟩ |
    ⟨i, j, choice, op, r, callback, env, a, rfl, hi, ht, hr, rfl⟩ |
    ⟨i, j, op, code, rfl, hi, ht, rfl⟩ | ⟨a, env, rfl, ha, rfl⟩
  · exact .inl rfl
  · exact .inr ⟨i, op, r, choice, a, hi, rfl, _, Function.update_self i _ _, rfl, rfl⟩
  · exact .inl rfl
  · exact .inl rfl

theorem Logged.step {action : Action Client Call Act Choice} (h : Logged w)
    (hs : w.step H action = some w') : Logged w' where
  served k op' e hop' he := by
    have hlog : ∀ entry ∈ w.log, entry ∈ w'.log := by
      rcases log_step hs with heq | ⟨_, _, _, _, _, -, heq, -⟩
      · exact fun entry h => heq ▸ h
      · exact fun entry h => heq ▸ List.mem_append_left _ h
    rcases op_cases hs hop' with hop | ⟨c, call, env, rfl, hk, ha, -, rfl⟩ |
      ⟨j, choice, op, r, callback, a, rfl, hop, ht, hr, rfl⟩ | ⟨j, op, code, rfl, hop, ht, rfl⟩
    · exact hlog _ (h.served k op' e hop he)
    · cases he
    · rcases List.mem_append.mp he with he | he
      · exact hlog _ (h.served k op e hop he)
      · obtain rfl := List.mem_singleton.mp he
        obtain ⟨env, a', hr', rfl⟩ := step_serve hs hop ht
        obtain ⟨-, rfl⟩ := Prod.mk.inj (Option.some.inj (hr.symm.trans hr'))
        exact List.mem_append_right _ List.mem_cons_self
    · exact hlog _ (h.served k op e hop he)
  known k call e he := by
    have hold : ∀ op, w.ops k = some op → op.call = call → e ∈ op.history →
        ∃ op', w'.ops k = some op' ∧ op'.call = call ∧ e ∈ op'.history := by
      intro op hop hcall he
      obtain ⟨op', hop', hfol⟩ := step_op hs hop
      refine ⟨op', hop', hfol.call.trans hcall, ?_⟩
      rcases hfol.history with heq | ⟨_, _, _, _, _, -, -, -, heq⟩
      · rwa [heq]
      · rw [heq]
        exact List.mem_append_left _ he
    rcases log_step hs with heq | ⟨i, op, r, choice, a, hi, heq, op', hop', hcall, hhistory⟩
    · obtain ⟨op, hop, hcall, he⟩ := h.known k call e (heq ▸ he)
      exact hold op hop hcall he
    · rw [heq, List.mem_append, List.mem_singleton] at he
      rcases he with he | he
      · obtain ⟨op, hop, hcall, he⟩ := h.known k call e he
        exact hold op hop hcall he
      · obtain ⟨rfl, rfl, rfl⟩ := Entry.mk.inj he
        exact ⟨op', hop', hcall, by rw [hhistory]; exact List.mem_append_right _ List.mem_cons_self⟩

theorem logged_of_reachable {env : Env} (h : Reachable (step H) (initial env) w) : Logged w :=
  h.invariant (logged_initial env) fun _ _ _ hlogged hs => hlogged.step hs

/-- Every request that was sent is still out or has been served. -/
def Accounted (w : World Env Client Call Choice Req Ans View Out) : Prop :=
  ∀ s ∈ w.sent, ∃ op, w.ops s.op = some op ∧ op.call = s.call ∧
    ((∃ callback, Task.waiting s.req callback ∈ op.tasks) ∨ ∃ e ∈ op.history, e.req = s.req)

theorem accounted_initial (env : Env) :
    Accounted (initial env : World Env Client Call Choice Req Ans View Out) := by
  intro s hs
  cases hs

/-- The requests of the code that an operation runs are out. -/
theorem Accounted.resume (h : Accounted w) {i : ℕ} {op : Op Client Call Choice Req Ans View Out}
    {env : Env} {code : Code Req Ans View Out}
    (hold : ∀ call r, ⟨i, call, r⟩ ∈ w.sent → op.call = call ∧
      ((∃ callback, Task.waiting r callback ∈ op.tasks) ∨ ∃ e ∈ op.history, e.req = r)) :
    Accounted (w.resume H i op env code) := by
  rintro ⟨k, call, r⟩ hs
  rcases List.mem_append.mp hs with hold' | hnew
  · by_cases hi : k = i
    · subst hi
      obtain ⟨hcall, hreq⟩ := hold call r hold'
      refine ⟨_, Function.update_self k _ _, hcall, ?_⟩
      rcases hreq with ⟨callback, hmem⟩ | hserved
      · exact .inl ⟨callback, List.mem_append_left _ hmem⟩
      · exact .inr hserved
    · obtain ⟨op₀, hop₀, hrest⟩ := h _ hold'
      exact ⟨op₀, by simpa [hi] using hop₀, hrest⟩
  · obtain ⟨r', hr, heq⟩ := List.mem_map.mp hnew
    obtain ⟨rfl, rfl, rfl⟩ := Sent.mk.inj heq
    obtain ⟨task, htask, hreq⟩ := List.mem_filterMap.mp hr
    refine ⟨_, Function.update_self i _ _, rfl, .inl ?_⟩
    cases task with
    | waiting r callback =>
        obtain rfl := Option.some.inj hreq
        exact ⟨callback, List.mem_append_right _ htask⟩
    | ready code => cases hreq

theorem Accounted.step {action : Action Client Call Act Choice} (h : Accounted w)
    (hs : w.step H action = some w') : Accounted w' := by
  rcases step_cases hs with ⟨i, c, call, env, rfl, hi, ha, rfl⟩ |
    ⟨i, j, choice, op, r, callback, env, a, rfl, hi, ht, hr, rfl⟩ |
    ⟨i, j, op, code, rfl, hi, ht, rfl⟩ | ⟨a, env, rfl, ha, rfl⟩
  · refine h.resume fun call' r hs => ?_
    obtain ⟨op, hop, -⟩ := h _ hs
    rw [hi] at hop
    cases hop
  · rintro ⟨k, call, r'⟩ hs
    obtain ⟨op₀, hop₀, hcall, hreq⟩ := h _ hs
    by_cases hk : k = i
    · subst hk
      obtain rfl : op = op₀ := Option.some.inj (hi.symm.trans hop₀)
      refine ⟨_, Function.update_self k _ _, hcall, ?_⟩
      rcases hreq with ⟨callback', hmem⟩ | ⟨e, he, heq⟩
      · obtain ⟨n, hn⟩ := List.mem_iff_getElem?.mp hmem
        by_cases hnj : j = n
        · -- this is the request that was served
          subst hnj
          obtain ⟨rfl, -⟩ := Task.waiting.inj (Option.some.inj (ht.symm.trans hn))
          exact .inr ⟨_, List.mem_append_right _ List.mem_cons_self, rfl⟩
        · refine .inl ⟨callback', List.mem_iff_getElem?.mpr ⟨n, ?_⟩⟩
          exact (List.getElem?_set_ne hnj).trans hn
      · exact .inr ⟨e, List.mem_append_left _ he, heq⟩
    · exact ⟨op₀, by simpa [hk] using hop₀, hcall, hreq⟩
  · refine h.resume fun call' r hs => ?_
    obtain ⟨op₀, hop₀, hcall, hreq⟩ := h _ hs
    obtain rfl : op = op₀ := Option.some.inj (hi.symm.trans hop₀)
    refine ⟨hcall, ?_⟩
    rcases hreq with ⟨callback, hmem⟩ | hserved
    · obtain ⟨n, hn⟩ := List.mem_iff_getElem?.mp hmem
      have hnj : n ≠ j := by
        rintro rfl
        rw [ht] at hn
        cases hn
      exact .inl ⟨callback, List.mem_eraseIdx_iff_getElem?.mpr ⟨n, hnj, hn⟩⟩
    · exact .inr hserved
  · exact h

end World

end FirebaseApps.Lib
