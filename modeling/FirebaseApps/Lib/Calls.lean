import FirebaseApps.Lib.Callback
import Mathlib.Data.List.Perm.Basic

/-!
# Calls with any number of requests out

`Code.At` follows operations that have one request out at a time.  Code that sends
several requests from one call has no such place, but two things are still easy to
read off it: which requests it can ever send, and, when its callbacks do nothing,
that all its work is done at the moment of the call.

## Main definitions

* `Code.Silent`, `Code.Sends` — code that has effects never, or only at its call.
* `World.Asked` — every request of an operation is one its code has.
* `Code.Immediate` — code whose callbacks do nothing.
* `World.requests` — what one operation has sent.
* `World.AtOnce` — immediate calls have done what they did when they were made.
-/

namespace FirebaseApps.Lib

variable {Env Client Call Act Choice Req View Out : Type} {Ans : Req → Type}
variable {H : Host Env Client Call Act Choice Req Ans View Out} {c : Client} {Q : Req → Prop}

/-- The requests sent by code that was run. -/
def Effect.requests (e : Effect Env Req Ans View Out) : List Req := e.tasks.filterMap Task.request?

theorem Host.requests_exec_request (H : Host Env Client Call Act Choice Req Ans View Out)
    (c : Client) (env : Env) (r : Req) (callback : Ans r → Code Req Ans View Out)
    (rest : Code Req Ans View Out) :
    (H.exec c (.request r callback rest) env).requests = r :: (H.exec c rest env).requests := rfl

namespace Code

/-- The code has no effects, and all its requests satisfy `Q`. -/
def Silent (Q : Req → Prop) : Code Req Ans View Out → Prop
  | done => True
  | call _ _ => False
  | read k => ∀ v, Silent Q (k v)
  | request r callback rest => Q r ∧ (∀ a, Silent Q (callback a)) ∧ Silent Q rest

/-- All requests of the code satisfy `Q`, and its callbacks have no effects. -/
def Sends (Q : Req → Prop) : Code Req Ans View Out → Prop
  | done => True
  | call _ p => Sends Q p
  | read k => ∀ v, Sends Q (k v)
  | request r callback rest => Q r ∧ (∀ a, Silent Q (callback a)) ∧ Sends Q rest

/-- The callbacks do nothing: all the work is done when the code is run. -/
def Immediate : Code Req Ans View Out → Prop
  | done => True
  | call _ p => Immediate p
  | read k => ∀ v, Immediate (k v)
  | request _ callback rest => (∀ a, callback a = done) ∧ Immediate rest

end Code

/-- The request of the task satisfies `Q`, and its callback is silent. -/
def Task.Sends (Q : Req → Prop) : Task Req Ans View Out → Prop
  | .waiting r callback => Q r ∧ ∀ a, (callback a).Silent Q
  | .ready code => code.Silent Q

/-- Nothing is left to do once the task has its answer. -/
def Task.Idle : Task Req Ans View Out → Prop
  | .waiting _ callback => ∀ a, callback a = .done
  | .ready code => code = .done

namespace Code

/-- Running code leaves only tasks that send what the code sends. -/
theorem Sends.exec {p : Code Req Ans View Out} (hp : p.Sends Q) (env : Env) :
    ∀ t ∈ (H.exec c p env).tasks, t.Sends Q := by
  induction p generalizing env with
  | done => intro t ht; cases ht
  | call o p ih => exact ih hp _
  | read k ih => exact ih _ (hp _) env
  | request r callback rest _ ih =>
      intro t ht
      rcases List.mem_cons.mp ht with rfl | ht
      · exact ⟨hp.1, hp.2.1⟩
      · exact ih hp.2.2 env t ht

theorem Silent.sends {p : Code Req Ans View Out} (hp : p.Silent Q) : p.Sends Q := by
  induction p with
  | done => trivial
  | call o p => cases hp
  | read k ih => exact fun v => ih v (hp v)
  | request r callback rest _ ih => exact ⟨hp.1, hp.2.1, ih hp.2.2⟩

/-- Silent code leaves the environment alone. -/
theorem Silent.env_exec {p : Code Req Ans View Out} (hp : p.Silent Q) (env : Env) :
    (H.exec c p env).env = env := by
  induction p with
  | done => rfl
  | call o p => cases hp
  | read k ih => exact ih _ (hp _)
  | request r callback rest _ ih => exact ih hp.2.2

/-- Running immediate code leaves only tasks with nothing left to do. -/
theorem Immediate.exec {p : Code Req Ans View Out} (hp : p.Immediate) (env : Env) :
    ∀ t ∈ (H.exec c p env).tasks, t.Idle := by
  induction p generalizing env with
  | done => intro t ht; cases ht
  | call o p ih => exact ih hp _
  | read k ih => exact ih _ (hp _) env
  | request r callback rest _ ih =>
      intro t ht
      rcases List.mem_cons.mp ht with rfl | ht
      · exact hp.1
      · exact ih hp.2 env t ht

end Code

namespace World

variable {w w' : World Env Client Call Choice Req Ans View Out}

/-! ## What operations can send -/

/-- The tasks of every operation send what its call sends. -/
def Asked (Q : Call → Req → Prop) (w : World Env Client Call Choice Req Ans View Out) : Prop :=
  ∀ i op, w.ops i = some op → ∀ t ∈ op.tasks, t.Sends (Q op.call)

theorem asked_initial {Q : Call → Req → Prop} (env : Env) :
    Asked Q (initial env : World Env Client Call Choice Req Ans View Out) := by
  intro i op h
  cases h

/-- **Operations send nothing that their code does not have.** -/
theorem Asked.step {Q : Call → Req → Prop} {action : Action Client Call Act Choice}
    (h : Asked Q w) (hcode : ∀ call, (H.code call).Sends (Q call))
    (hs : w.step H action = some w') : Asked Q w' := by
  intro k op' hop'
  rcases op_cases hs hop' with hop | ⟨c, call, env, rfl, hk, ha, -, rfl⟩ |
    ⟨j, choice, op, r, callback, a, rfl, hop, ht, hr, rfl⟩ | ⟨j, op, code, rfl, hop, ht, rfl⟩
  · exact h k op' hop
  · exact (hcode call).exec env
  · intro t ht'
    rcases List.mem_or_eq_of_mem_set ht' with ht' | rfl
    · exact h k op hop t ht'
    · exact (h k op hop _ (List.mem_of_getElem? ht)).2 a
  · intro t ht'
    rcases List.mem_append.mp ht' with ht' | ht'
    · exact h k op hop t (List.mem_of_mem_eraseIdx ht')
    · exact (Code.Silent.sends (h k op hop _ (List.mem_of_getElem? ht))).exec _ t ht'

/-! ## Immediate calls -/

/-- The requests that an operation has sent, oldest first. -/
def requests (w : World Env Client Call Choice Req Ans View Out) (i : ℕ) : List Req :=
  (w.sent.filter (·.op = i)).map Sent.req

theorem requests_resume (w : World Env Client Call Choice Req Ans View Out) (i k : ℕ)
    (op : Op Client Call Choice Req Ans View Out) (env : Env) (code : Code Req Ans View Out) :
    (w.resume H i op env code).requests k =
      w.requests k ++ if k = i then (H.exec op.client code env).requests else [] := by
  have hnew : ∀ rs : List Req, (((rs.map fun r => (⟨i, op.call, r⟩ : Sent Call Req)).filter
      (·.op = k)).map Sent.req) = if k = i then rs else [] := by
    intro rs
    by_cases hk : k = i
    · subst hk
      simp [List.filter_map, Function.comp_def]
    · simp [List.filter_map, Function.comp_def, hk, Ne.symm hk]
  rw [requests, requests, resume, List.filter_append, List.map_append, hnew]
  rfl

/-- An operation that has not been started has sent nothing. -/
theorem Accounted.requests_eq_nil (h : Accounted w) {i : ℕ} (hi : w.ops i = none) :
    w.requests i = [] := by
  rw [requests, List.map_eq_nil_iff, List.filter_eq_nil_iff]
  intro s hs hop
  obtain ⟨op, hsome, -⟩ := h s hs
  rw [of_decide_eq_true hop, hi] at hsome
  cases hsome

/-- What an immediate call has done is what its code did when it was made, in an
environment that satisfied `P`. -/
structure DoneAtOnce (H : Host Env Client Call Act Choice Req Ans View Out) (P : Env → Prop)
    (op : Op Client Call Choice Req Ans View Out) (requests : List Req) : Prop where
  idle : ∀ t ∈ op.tasks, t.Idle
  work : ∃ before env, P before ∧ op.origin = H.view before op.client ∧
    H.accept before op.client op.call = some env ∧
    op.outs = (H.exec op.client (H.code op.call) env).outs ∧
    requests = (H.exec op.client (H.code op.call) env).requests

/-- All immediate calls did their work when they were made. -/
def AtOnce (H : Host Env Client Call Act Choice Req Ans View Out) (P : Env → Prop)
    (w : World Env Client Call Choice Req Ans View Out) : Prop :=
  ∀ i op, w.ops i = some op → (H.code op.call).Immediate → DoneAtOnce H P op (w.requests i)

theorem atOnce_initial {P : Env → Prop} (env : Env) :
    AtOnce H P (initial env : World Env Client Call Choice Req Ans View Out) := by
  intro i op h
  cases h

/-- **Immediate calls do nothing later.** -/
theorem AtOnce.step {P : Env → Prop} {action : Action Client Call Act Choice} (h : AtOnce H P w)
    (hacc : Accounted w) (hP : P w.env) (hs : w.step H action = some w') : AtOnce H P w' := by
  intro k op' hop' himm
  rcases step_cases hs with ⟨i, c, call, env, rfl, hi, ha, rfl⟩ |
    ⟨i, j, choice, op, r, callback, env, a, rfl, hi, ht, hr, rfl⟩ |
    ⟨i, j, op, code, rfl, hi, ht, rfl⟩ | ⟨a, env, rfl, ha, rfl⟩
  · rw [requests_resume]
    by_cases hk : k = i
    · subst hk
      obtain rfl := by simpa using hop'
      rw [hacc.requests_eq_nil hi, if_pos rfl]
      exact ⟨by simpa [opening] using Code.Immediate.exec (H := H) (c := c) himm env,
        w.env, env, hP, rfl, ha, rfl, rfl⟩
    · simpa [hk] using h k op' (by simpa [hk] using hop') himm
  · by_cases hk : k = i
    · subst hk
      obtain rfl := by simpa using hop'
      have hold := h k op hi himm
      refine ⟨fun t ht' => ?_, hold.work⟩
      rcases List.mem_or_eq_of_mem_set ht' with ht' | rfl
      · exact hold.idle t ht'
      · exact hold.idle _ (List.mem_of_getElem? ht) a
    · exact h k op' (by simpa [hk] using hop') himm
  · rw [requests_resume]
    by_cases hk : k = i
    · subst hk
      obtain rfl := by simpa using hop'
      have hold := h k op hi himm
      obtain rfl : code = .done := hold.idle _ (List.mem_of_getElem? ht)
      refine ⟨fun t ht' => ?_, ?_⟩
      · exact hold.idle t (List.mem_of_mem_eraseIdx (by simpa [Host.exec] using ht'))
      · simpa [Host.exec, Effect.requests] using hold.work
    · simpa [hk] using h k op' (by simpa [hk] using hop') himm
  · exact h k op' hop' himm

end World

/-! ## Answers -/

/-- How many answers of the operation wait to be delivered. -/
def Op.undelivered (op : Op Client Call Choice Req Ans View Out) : ℕ :=
  op.tasks.countP fun t => t.request?.isNone

/-- Code that has just run waits for its requests. -/
theorem Host.undelivered_exec (H : Host Env Client Call Act Choice Req Ans View Out) (c : Client)
    (p : Code Req Ans View Out) (env : Env) :
    (H.exec c p env).tasks.countP (fun t => t.request?.isNone) = 0 := by
  induction p generalizing env with
  | done => rfl
  | call o p ih => exact ih _
  | read k ih => exact ih _ env
  | request r callback rest _ ih => simpa [Host.exec, Task.request?] using ih env

namespace World
variable {w w' : World Env Client Call Choice Req Ans View Out}

/-- `d` says how many answers each operation has been given. -/
def Delivered (d : ℕ → ℕ) (w : World Env Client Call Choice Req Ans View Out) : Prop :=
  ∀ i, match w.ops i with
    | none => d i = 0
    | some op => d i + op.undelivered = op.history.length

theorem delivered_initial (env : Env) :
    Delivered (fun _ => 0) (initial env : World Env Client Call Choice Req Ans View Out) :=
  fun _ => rfl

/-- **Answers are counted by their deliveries.** -/
theorem Delivered.step {d : ℕ → ℕ} {action : Action Client Call Act Choice} (h : Delivered d w)
    (hs : w.step H action = some w') :
    Delivered (match action with
      | .deliver i _ => Function.update d i (d i + 1)
      | _ => d) w' := by
  intro k
  have hk := h k
  rcases step_cases hs with ⟨i, c, call, env, rfl, hi, ha, rfl⟩ |
    ⟨i, j, choice, op, r, callback, env, a, rfl, hi, ht, hr, rfl⟩ |
    ⟨i, j, op, code, rfl, hi, ht, rfl⟩ | ⟨a, env, rfl, ha, rfl⟩
  · by_cases hki : k = i
    · subst hki
      simp only [hi] at hk
      simp only [ops_resume, Function.update_self, Op.undelivered, opening, List.nil_append,
        H.undelivered_exec, hk, List.length_nil]
    · simpa [ops_resume, hki] using hk
  · by_cases hki : k = i
    · subst hki
      simp only [hi] at hk
      obtain ⟨hlt, hget⟩ := List.getElem?_eq_some_iff.mp ht
      have hcount : (op.tasks.set j (.ready (callback a))).countP (fun t => t.request?.isNone) =
          op.tasks.countP (fun t => t.request?.isNone) + 1 := by
        simp [List.countP_set hlt, hget, Task.request?]
      simp only [ops_answer, Function.update_self, Op.undelivered, hcount, List.length_append,
        List.length_singleton] at hk ⊢
      omega
    · simpa [ops_answer, hki] using hk
  · by_cases hki : k = i
    · subst hki
      simp only [hi] at hk
      obtain ⟨hlt, hget⟩ := List.getElem?_eq_some_iff.mp ht
      have hcount : (op.tasks.eraseIdx j).countP (fun t => t.request?.isNone) + 1 =
          op.tasks.countP (fun t => t.request?.isNone) := by
        rw [← (List.getElem_cons_eraseIdx_perm hlt).countP_eq, hget]
        simp [Task.request?]
      simp only [ops_resume, Function.update_self, Op.undelivered, List.countP_append,
        H.undelivered_exec] at hk ⊢
      omega
    · simpa [ops_resume, hki] using hk
  · exact hk

end World
end FirebaseApps.Lib
