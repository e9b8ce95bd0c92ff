import FirebaseApps.Lib.Callback

/-!
# The places of linear code

The code of a linear operation has one thing going on at any time, so what the
operation has done determines where it is.  `Code.At` spells the places out by
recursion on the code: unfolding it at a concrete call lists its phases.

## Main definitions

* `Code.At` — the places an operation can be at, read off its code.
* `Contract`, `Code.Meets` — what code may ask, report and read.

## Main results

* `Host.exec_env_invariant` — what each effect of running code keeps, running it keeps.
* `World.OnCode.step` — every operation of a run is at a place of its code.
-/

namespace FirebaseApps.Lib

variable {Env Client Call Act Choice Req View Out : Type} {Ans : Req → Type}

/-- The places of linear code: the requests served so far, the effects so far and
what is pending.  `V` bounds the answers, `W` the views that were read. -/
def Code.At (V : (r : Req) → Choice → Ans r → Prop) (W : View → Prop) :
    Code Req Ans View Out → List (Event Req Ans Choice) → List Out →
      List (Task Req Ans View Out) → Prop
  | .done, history, outs, tasks => history = [] ∧ outs = [] ∧ tasks = []
  | .call o p, history, outs, tasks => ∃ outs', outs = o :: outs' ∧ p.At V W history outs' tasks
  | .read k, history, outs, tasks => ∃ v, W v ∧ (k v).At V W history outs tasks
  | .request r callback _, history, outs, tasks =>
      (history = [] ∧ outs = [] ∧ tasks = [.waiting r callback]) ∨
      ∃ choice a, V r choice a ∧
        ((history = [⟨r, choice, a⟩] ∧ outs = [] ∧ tasks = [.ready (callback a)]) ∨
        ∃ history', history = ⟨r, choice, a⟩ :: history' ∧
          (callback a).At V W history' outs tasks)

/-- Every view that running the code reads satisfies `W`. -/
def Host.Saw (H : Host Env Client Call Act Choice Req Ans View Out) (c : Client)
    (W : View → Prop) : Code Req Ans View Out → Env → Prop
  | .done, _ => True
  | .call o p, env => H.Saw c W p (H.emit env c o)
  | .read k, env => W (H.view env c) ∧ H.Saw c W (k (H.view env c)) env
  | .request _ _ p, env => H.Saw c W p env

/-- Where every view is allowed, the views read are. -/
theorem Host.saw_of_forall {H : Host Env Client Call Act Choice Req Ans View Out} {c : Client}
    {W : View → Prop} (hW : ∀ v, W v) (p : Code Req Ans View Out) (env : Env) :
    H.Saw c W p env := by
  induction p generalizing env with
  | done => trivial
  | call o p ih => exact ih _
  | read k ih => exact ⟨hW _, ih _ _⟩
  | request r callback rest _ ih => exact ih env

/-- The environment that running code leaves is the work of its effects. -/
theorem Host.exec_env (H : Host Env Client Call Act Choice Req Ans View Out) (c : Client)
    (p : Code Req Ans View Out) (env : Env) :
    (H.exec c p env).env = (H.exec c p env).outs.foldl (fun env o => H.emit env c o) env := by
  induction p generalizing env with
  | done => rfl
  | call o p ih => simpa [exec] using ih _
  | read k ih => exact ih _ env
  | request r callback rest _ ih => simpa [exec] using ih env

/-- **The rule of effects**: what each effect of running code keeps, running it keeps. -/
theorem Host.exec_env_invariant (H : Host Env Client Call Act Choice Req Ans View Out)
    {P : Env → Prop} {c : Client} {p : Code Req Ans View Out} {env : Env}
    (hemit : ∀ o ∈ (H.exec c p env).outs, ∀ env', P env' → P (H.emit env' c o)) (h : P env) :
    P (H.exec c p env).env := by
  rw [exec_env]
  generalize (H.exec c p env).outs = outs at hemit ⊢
  induction outs generalizing env with
  | nil => exact h
  | cons o outs ih =>
      exact ih (hemit o List.mem_cons_self env h)
        fun o' ho' => hemit o' (List.mem_cons_of_mem _ ho')

namespace Code
variable {H : Host Env Client Call Act Choice Req Ans View Out}
variable {V : (r : Req) → Choice → Ans r → Prop} {W : View → Prop} {c : Client}

/-- Code that has just run stands before its first request, or at its end. -/
theorem At.exec {p : Code Req Ans View Out} (hp : p.Linear) {env : Env}
    (hsaw : H.Saw c W p env) : p.At V W [] (H.exec c p env).outs (H.exec c p env).tasks := by
  induction p generalizing env with
  | done => exact ⟨rfl, rfl, rfl⟩
  | call o p ih => exact ⟨_, rfl, ih hp hsaw⟩
  | read k ih => exact ⟨_, hsaw.1, ih _ (hp _) hsaw.2⟩
  | request r callback rest =>
      obtain ⟨-, rfl⟩ := hp
      exact .inl ⟨rfl, rfl, rfl⟩

/-- Serving the request an operation waits for makes its callback ready. -/
theorem At.serve {p : Code Req Ans View Out} {history : List (Event Req Ans Choice)}
    {outs : List Out} {tasks : List (Task Req Ans View Out)} {j : ℕ} {r : Req}
    {callback : Ans r → Code Req Ans View Out} {choice : Choice} {a : Ans r}
    (h : p.At V W history outs tasks) (ht : tasks[j]? = some (.waiting r callback))
    (hV : V r choice a) :
    p.At V W (history ++ [⟨r, choice, a⟩]) outs (tasks.set j (.ready (callback a))) := by
  induction p generalizing history outs with
  | done => simp [h.2.2] at ht
  | call o p ih =>
      obtain ⟨outs', rfl, h⟩ := h
      exact ⟨outs', rfl, ih h⟩
  | read k ih =>
      obtain ⟨v, hv, h⟩ := h
      exact ⟨v, hv, ih v h⟩
  | request r' callback' rest ih =>
      rcases h with ⟨rfl, rfl, rfl⟩ | ⟨ch, b, hb, ⟨-, -, rfl⟩ | ⟨history', rfl, h⟩⟩
      · rw [List.getElem?_singleton] at ht
        split at ht
        next hj =>
          subst hj
          cases ht
          exact .inr ⟨choice, a, hV, .inl ⟨rfl, rfl, rfl⟩⟩
        next => cases ht
      · rw [List.getElem?_singleton] at ht
        split at ht <;> cases ht
      · exact .inr ⟨ch, b, hb, .inr ⟨_, rfl, ih b h⟩⟩

/-- Running a ready callback leads to the next place. -/
theorem At.deliver {p : Code Req Ans View Out} (hp : p.Linear)
    {history : List (Event Req Ans Choice)} {outs : List Out}
    {tasks : List (Task Req Ans View Out)} {j : ℕ} {code : Code Req Ans View Out} {env : Env}
    (h : p.At V W history outs tasks) (ht : tasks[j]? = some (.ready code))
    (hsaw : H.Saw c W code env) :
    p.At V W history (outs ++ (H.exec c code env).outs)
      (tasks.eraseIdx j ++ (H.exec c code env).tasks) := by
  induction p generalizing history outs with
  | done => simp [h.2.2] at ht
  | call o p ih =>
      obtain ⟨outs', rfl, h⟩ := h
      exact ⟨_, rfl, ih hp h⟩
  | read k ih =>
      obtain ⟨v, hv, h⟩ := h
      exact ⟨v, hv, ih v (hp v) h⟩
  | request r callback rest ih =>
      rcases h with ⟨-, -, rfl⟩ | ⟨choice, a, ha, ⟨rfl, rfl, rfl⟩ | ⟨history', rfl, h⟩⟩
      · rw [List.getElem?_singleton] at ht
        split at ht <;> cases ht
      · rw [List.getElem?_singleton] at ht
        split at ht
        next hj =>
          subst hj
          cases ht
          exact .inr ⟨choice, a, ha, .inr ⟨[], rfl, At.exec (hp.1 a) hsaw⟩⟩
        next => cases ht
      · exact .inr ⟨choice, a, ha, .inr ⟨history', rfl, ih a (hp.1 a) h⟩⟩

/-- A callback is ready only after its request was served. -/
theorem At.ready_history {p code : Code Req Ans View Out} {history : List (Event Req Ans Choice)}
    {outs : List Out} {tasks : List (Task Req Ans View Out)} (h : p.At V W history outs tasks)
    (ht : Task.ready code ∈ tasks) : history ≠ [] := by
  induction p generalizing history outs with
  | done => simp [h.2.2] at ht
  | call o p ih =>
      obtain ⟨outs', -, h⟩ := h
      exact ih h
  | read k ih =>
      obtain ⟨v, -, h⟩ := h
      exact ih v h
  | request r callback rest ih =>
      rcases h with ⟨-, -, rfl⟩ | ⟨choice, a, -, ⟨rfl, -, -⟩ | ⟨history', rfl, -⟩⟩
      · simp at ht
      · exact List.cons_ne_nil _ _
      · exact List.cons_ne_nil _ _

/-- Code that is one effect has had no request served. -/
theorem At.call_done {history : List (Event Req Ans Choice)} {o : Out} {outs : List Out}
    {tasks : List (Task Req Ans View Out)}
    (h : (call o (done : Code Req Ans View Out)).At V W history outs tasks) :
    history = [] ∧ outs = [o] ∧ tasks = [] := by
  obtain ⟨rest, rfl, hhistory, rfl, htasks⟩ := h
  exact ⟨hhistory, rfl, htasks⟩

/-- Code that is over, or has had an effect after its first request, has had this request
served, and goes on in its callback. -/
theorem At.request_over {r : Req} {callback : Ans r → Code Req Ans View Out}
    {rest : Code Req Ans View Out} {history : List (Event Req Ans Choice)} {outs : List Out}
    {tasks : List (Task Req Ans View Out)}
    (h : (request r callback rest).At V W history outs tasks) (hover : tasks = [] ∨ outs ≠ []) :
    ∃ choice a history', V r choice a ∧ history = ⟨r, choice, a⟩ :: history' ∧
      (callback a).At V W history' outs tasks := by
  rcases h with ⟨-, rfl, rfl⟩ | ⟨choice, a, ha, ⟨-, rfl, rfl⟩ | ⟨history', rfl, h⟩⟩
  · simp at hover
  · simp at hover
  · exact ⟨choice, a, history', ha, rfl, h⟩

/-- Code that is over has had its first request served, and its callback is over. -/
theorem At.request_finished {r : Req} {callback : Ans r → Code Req Ans View Out}
    {rest : Code Req Ans View Out} {history : List (Event Req Ans Choice)} {outs : List Out}
    (h : (request r callback rest).At V W history outs []) :
    ∃ choice a history', V r choice a ∧ history = ⟨r, choice, a⟩ :: history' ∧
      (callback a).At V W history' outs [] :=
  h.request_over (.inl rfl)

end Code

/-! ## Contracts

A contract says what an operation may ask, report and read, in terms of the
requests it has had served.  It is checked once against the code, by recursion;
the rules below carry it to an operation in the middle of a run. -/

/-- What code may do after the served requests `past`. -/
structure Contract (Req : Type) (Ans : Req → Type) (Choice Out : Type) : Type where
  asks : List (Event Req Ans Choice) → Req → Prop
  reports : List (Event Req Ans Choice) → Out → Prop
  reads : List (Event Req Ans Choice) → Prop

namespace Code
variable {H : Host Env Client Call Act Choice Req Ans View Out}
variable {V : (r : Req) → Choice → Ans r → Prop} {W : View → Prop} {c : Client}
variable {K : Contract Req Ans Choice Out}

/-- The code keeps the contract, for all answers in `V` and views in `W`. -/
def Meets (V : (r : Req) → Choice → Ans r → Prop) (W : View → Prop)
    (K : Contract Req Ans Choice Out) :
    List (Event Req Ans Choice) → Code Req Ans View Out → Prop
  | _, .done => True
  | past, .call o p => K.reports past o ∧ Meets V W K past p
  | past, .read k => K.reads past ∧ ∀ v, W v → Meets V W K past (k v)
  | past, .request r callback rest =>
      K.asks past r ∧
        (∀ choice a, V r choice a → Meets V W K (past ++ [⟨r, choice, a⟩]) (callback a)) ∧
        Meets V W K past rest

/-- The request an operation waits for is one its contract allows. -/
theorem At.waiting {p : Code Req Ans View Out} {past history : List (Event Req Ans Choice)}
    {outs : List Out} {tasks : List (Task Req Ans View Out)} {r : Req}
    {callback : Ans r → Code Req Ans View Out} (hp : p.Meets V W K past)
    (h : p.At V W history outs tasks) (ht : Task.waiting r callback ∈ tasks) :
    K.asks (past ++ history) r := by
  induction p generalizing past history outs with
  | done => simp [h.2.2] at ht
  | call o p ih =>
      obtain ⟨outs', -, h⟩ := h
      exact ih hp.2 h
  | read k ih =>
      obtain ⟨v, hv, h⟩ := h
      exact ih v (hp.2 v hv) h
  | request r' callback' rest ih =>
      rcases h with ⟨rfl, -, rfl⟩ | ⟨choice, a, ha, ⟨-, -, rfl⟩ | ⟨history', rfl, h⟩⟩
      · obtain ⟨rfl, -⟩ := by simpa using ht
        simpa using hp.1
      · simp at ht
      · simpa using ih a (hp.2.1 choice a ha) h

/-- A callback that is ready keeps the contract from here on. -/
theorem At.ready {p code : Code Req Ans View Out} {past history : List (Event Req Ans Choice)}
    {outs : List Out} {tasks : List (Task Req Ans View Out)} (hp : p.Meets V W K past)
    (h : p.At V W history outs tasks) (ht : Task.ready code ∈ tasks) :
    code.Meets V W K (past ++ history) := by
  induction p generalizing past history outs with
  | done => simp [h.2.2] at ht
  | call o p ih =>
      obtain ⟨outs', -, h⟩ := h
      exact ih hp.2 h
  | read k ih =>
      obtain ⟨v, hv, h⟩ := h
      exact ih v (hp.2 v hv) h
  | request r callback rest ih =>
      rcases h with ⟨-, -, rfl⟩ | ⟨choice, a, ha, ⟨rfl, -, rfl⟩ | ⟨history', rfl, h⟩⟩
      · simp at ht
      · obtain rfl := by simpa using ht
        exact hp.2.1 choice a ha
      · simpa using ih a (hp.2.1 choice a ha) h

/-- Every served request was allowed after the ones before it. -/
theorem At.served {p : Code Req Ans View Out} {past history before : List (Event Req Ans Choice)}
    {after : List (Event Req Ans Choice)} {e : Event Req Ans Choice}
    {outs : List Out} {tasks : List (Task Req Ans View Out)} (hp : p.Meets V W K past)
    (h : p.At V W history outs tasks) (he : history = before ++ e :: after) :
    K.asks (past ++ before) e.req ∧ V e.req e.choice e.ans := by
  induction p generalizing past history outs before with
  | done => simp [h.1] at he
  | call o p ih =>
      obtain ⟨outs', -, h⟩ := h
      exact ih hp.2 h he
  | read k ih =>
      obtain ⟨v, hv, h⟩ := h
      exact ih v (hp.2 v hv) h he
  | request r callback rest ih =>
      rcases h with ⟨rfl, -, -⟩ | ⟨choice, a, ha, h⟩
      · simp at he
      · cases before with
        | nil =>
            have hfirst : (⟨r, choice, a⟩ : Event Req Ans Choice) = e := by
              rcases h with ⟨rfl, -, -⟩ | ⟨history', rfl, -⟩
              · exact (List.cons.inj he).1
              · exact (List.cons.inj he).1
            subst hfirst
            exact ⟨by simpa using hp.1, ha⟩
        | cons e' before =>
            rcases h with ⟨rfl, -, -⟩ | ⟨history', rfl, h⟩
            · simp at he
            · rw [List.cons_append, List.cons.injEq] at he
              obtain ⟨rfl, hrest⟩ := he
              simpa using ih a (hp.2.1 choice a ha) h hrest

/-- Every effect was allowed after some of the requests served. -/
theorem At.reported {p : Code Req Ans View Out} {past history : List (Event Req Ans Choice)}
    {outs : List Out} {tasks : List (Task Req Ans View Out)} {o : Out}
    (hp : p.Meets V W K past) (h : p.At V W history outs tasks) (ho : o ∈ outs) :
    ∃ before, before <+: history ∧ K.reports (past ++ before) o := by
  induction p generalizing past history outs with
  | done => simp [h.2.1] at ho
  | call o' p ih =>
      obtain ⟨outs', rfl, h⟩ := h
      rcases List.mem_cons.mp ho with rfl | ho
      · exact ⟨[], List.nil_prefix, by simpa using hp.1⟩
      · exact ih hp.2 h ho
  | read k ih =>
      obtain ⟨v, hv, h⟩ := h
      exact ih v (hp.2 v hv) h ho
  | request r callback rest ih =>
      rcases h with ⟨-, rfl, -⟩ | ⟨choice, a, ha, ⟨-, rfl, -⟩ | ⟨history', rfl, h⟩⟩
      · simp at ho
      · simp at ho
      · obtain ⟨before, hpre, hQ⟩ := ih a (hp.2.1 choice a ha) h ho
        exact ⟨⟨r, choice, a⟩ :: before, List.cons_prefix_cons.mpr ⟨rfl, hpre⟩,
          by simpa using hQ⟩

/-- What code does when it runs is what its contract lets it do. -/
theorem Meets.exec (H : Host Env Client Call Act Choice Req Ans View Out) (c : Client) (env : Env)
    {p : Code Req Ans View Out} {past : List (Event Req Ans Choice)}
    (hp : p.Meets V (fun _ => True) K past) :
    (∀ o ∈ (H.exec c p env).outs, K.reports past o) ∧
      ∀ r callback, Task.waiting r callback ∈ (H.exec c p env).tasks → K.asks past r := by
  induction p generalizing env with
  | done => simp [Host.exec]
  | call o p ih =>
      obtain ⟨houts, htasks⟩ := ih (H.emit env c o) hp.2
      refine ⟨fun o' ho' => ?_, htasks⟩
      rcases List.mem_cons.mp ho' with rfl | ho'
      · exact hp.1
      · exact houts o' ho'
  | read k ih => exact ih _ env (hp.2 _ trivial)
  | request r callback rest _ ih =>
      obtain ⟨houts, htasks⟩ := ih env hp.2.2
      refine ⟨houts, fun r' callback' ht => ?_⟩
      rcases List.mem_cons.mp ht with heq | ht
      · obtain ⟨rfl, -⟩ := Task.waiting.inj heq
        exact hp.1
      · exact htasks r' callback' ht

/-- Code reads only where its contract lets it: if the view is good there, all the
views read are. -/
theorem Meets.saw {p : Code Req Ans View Out} {past : List (Event Req Ans Choice)} {env : Env}
    (hp : p.Meets V (fun _ => True) K past)
    (hemit : ∀ env o, H.view (H.emit env c o) c = H.view env c)
    (hview : K.reads past → W (H.view env c)) : H.Saw c W p env := by
  induction p generalizing env with
  | done => trivial
  | call o p ih => exact ih hp.2 (by simpa [hemit] using hview)
  | read k ih => exact ⟨hview hp.1, ih _ (hp.2 _ trivial) hview⟩
  | request r callback rest _ ih => exact ih hp.2.2 hview

end Code

namespace World
variable {H : Host Env Client Call Act Choice Req Ans View Out}
variable {V : (r : Req) → Choice → Ans r → Prop} {W : View → View → Prop}
variable {w w' : World Env Client Call Choice Req Ans View Out}

/-- Every linear operation is at a place of its code. -/
def OnCode (H : Host Env Client Call Act Choice Req Ans View Out)
    (V : (r : Req) → Choice → Ans r → Prop) (W : View → View → Prop)
    (w : World Env Client Call Choice Req Ans View Out) : Prop :=
  ∀ i op, w.ops i = some op → (H.code op.call).Linear →
    (H.code op.call).At V (W op.origin) op.history op.outs op.tasks

/-- The views read in a step satisfy `W`, relative to the view at the call. -/
def Sees (H : Host Env Client Call Act Choice Req Ans View Out) (W : View → View → Prop)
    (w : World Env Client Call Choice Req Ans View Out) : Action Client Call Act Choice → Prop
  | .start _ c call => ∀ env, H.accept w.env c call = some env →
      H.Saw c (W (H.view w.env c)) (H.code call) env
  | .deliver i j => ∀ op code, w.ops i = some op → op.tasks[j]? = some (.ready code) →
      H.Saw op.client (W op.origin) code w.env
  | _ => True

theorem onCode_initial (env : Env) : OnCode H V W (initial env) := by
  intro i op h
  cases h

theorem sees_of_forall (hW : ∀ v v', W v v')
    (w : World Env Client Call Choice Req Ans View Out) (action : Action Client Call Act Choice) :
    Sees H W w action := by
  cases action with
  | start i c call => exact fun env _ => H.saw_of_forall (hW _) _ _
  | deliver i j => exact fun op code _ _ => H.saw_of_forall (hW _) _ _
  | serve i j choice => trivial
  | act a => trivial

/-- **Operations stay on their code.** -/
theorem OnCode.step {action : Action Client Call Act Choice} (h : OnCode H V W w)
    (hV : ∀ env c r choice env' a, H.serve env c r choice = some (env', a) → V r choice a)
    (hW : Sees H W w action) (hs : w.step H action = some w') : OnCode H V W w' := by
  intro k op' hop' hlin
  rcases op_cases hs hop' with hop | ⟨c, call, env, rfl, hk, ha, -, rfl⟩ |
    ⟨j, choice, op, r, callback, a, rfl, hop, ht, hr, rfl⟩ | ⟨j, op, code, rfl, hop, ht, rfl⟩
  · exact h k op' hop hlin
  · exact Code.At.exec hlin (hW env ha)
  · exact (h k op hop hlin).serve ht (hV _ _ _ _ _ _ hr)
  · exact (h k op hop hlin).deliver hlin ht (hW op code hop ht)

end World
end FirebaseApps.Lib
