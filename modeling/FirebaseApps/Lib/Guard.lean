import FirebaseApps.Lib.Callback

/-!
# Calls behind a control

A control that starts a call is disabled when the call is made and enabled again after
the call has reported, at once or by a block that the report leaves behind.  If the call
reports exactly once, as the last thing it does, then no second call can be made while
one is in flight, in any interleaving with the calls of other clients.

`Code.ReportsLast` is what this asks of the code.  `Host.Guarded` adds to the environment of
a host the control of each client and the blocks that are still to release it.
-/

namespace FirebaseApps.Lib

variable {Env Client Call Act Choice Req View Out : Type} {Ans : Req → Type}

/-! ## Code that reports last -/

/-- The code has exactly one effect on every path, as its last step. -/
def Code.ReportsLast : Code Req Ans View Out → Prop
  | done => False
  | call _ p => p = done
  | read k => ∀ v, (k v).ReportsLast
  | request _ callback rest => (∀ a, (callback a).ReportsLast) ∧ rest = done

/-- What is left to run reports last. -/
def Task.ReportsLast : Task Req Ans View Out → Prop
  | .waiting _ callback => ∀ a, (callback a).ReportsLast
  | .ready code => code.ReportsLast

/-- Such code stops before a request, without an effect so far, or reports and is over. -/
theorem Code.ReportsLast.exec (H : Host Env Client Call Act Choice Req Ans View Out) (c : Client)
    {p : Code Req Ans View Out} (hp : p.ReportsLast) (env : Env) :
    (∃ r callback, H.exec c p env = ⟨env, [], [.waiting r callback]⟩ ∧
      ∀ a, (callback a).ReportsLast) ∨ ∃ o, H.exec c p env = ⟨H.emit env c o, [o], []⟩ := by
  induction p with
  | done => exact absurd hp id
  | call o p =>
      obtain rfl := hp
      exact .inr ⟨o, rfl⟩
  | read k ih => exact ih _ (hp _)
  | request r callback rest =>
      obtain ⟨hcallback, rfl⟩ := hp
      exact .inl ⟨r, callback, rfl, hcallback⟩

/-! ## The control of a client -/

/-- The control of `c` has not become free, and as many blocks are due. -/
def Kept (free : Env → Client → Prop) (due : Env → Client → ℕ) (env env' : Env) (c : Client) :
    Prop :=
  (free env' c → free env c) ∧ due env' c = due env c

/-- Each client has a control, which it can use when it is `free`, and `due` blocks that
will free it.  A call needs the control and takes it; a report frees it or leaves a block
due; nothing else frees it but such a block. -/
structure Host.Guarded (H : Host Env Client Call Act Choice Req Ans View Out)
    (free : Env → Client → Prop) (due : Env → Client → ℕ) : Prop where
  accept : ∀ {env c call env'}, H.accept env c call = some env' →
    free env c ∧ ¬ free env' c ∧ due env' c = due env c
  accept_other : ∀ {env c call env' c'}, H.accept env c call = some env' → c' ≠ c →
    Kept free due env env' c'
  serve : ∀ {env c r choice env' a}, H.serve env c r choice = some (env', a) →
    ∀ c', Kept free due env env' c'
  emit : ∀ env c o, due (H.emit env c o) c = due env c ∨
    (due (H.emit env c o) c = due env c + 1 ∧ (free (H.emit env c o) c → free env c))
  emit_other : ∀ env c o {c'}, c' ≠ c → Kept free due env (H.emit env c o) c'
  act : ∀ {env a env'}, H.act env a = some env' →
    ∀ c, Kept free due env env' c ∨ due env c = due env' c + 1

namespace World
variable {H : Host Env Client Call Act Choice Req Ans View Out}
variable {w w' : World Env Client Call Choice Req Ans View Out}

/-- Every operation has reported and is over, or has not and has one thing left to do. -/
def Reporting (w : World Env Client Call Choice Req Ans View Out) : Prop :=
  ∀ i op, w.ops i = some op → (op.tasks = [] ∧ ∃ o, op.outs = [o]) ∨
    (op.outs = [] ∧ ∃ task, op.tasks = [task] ∧ task.ReportsLast)

theorem reporting_initial (env : Env) :
    Reporting (initial env : World Env Client Call Choice Req Ans View Out) := by
  intro i op h
  cases h

/-- A task of such an operation is its only one. -/
theorem Reporting.task (h : Reporting w) {i j : ℕ} {op : Op Client Call Choice Req Ans View Out}
    {task : Task Req Ans View Out} (hop : w.ops i = some op) (ht : op.tasks[j]? = some task) :
    j = 0 ∧ op.outs = [] ∧ op.tasks = [task] ∧ task.ReportsLast := by
  rcases h i op hop with ⟨hnil, -⟩ | ⟨houts, task', htasks, hlast⟩
  · simp [hnil] at ht
  · rw [htasks, List.getElem?_singleton] at ht
    obtain ⟨hj, heq⟩ := Option.ite_none_right_eq_some.mp ht
    obtain rfl := Option.some.inj heq
    exact ⟨hj, houts, htasks, hlast⟩

theorem Reporting.step {action : Action Client Call Act Choice} (h : Reporting w)
    (hcode : ∀ call, (H.code call).ReportsLast) (hs : w.step H action = some w') :
    Reporting w' := by
  intro k op' hop'
  rcases op_cases hs hop' with hop | ⟨c, call, env, rfl, hk, ha, -, rfl⟩ |
    ⟨j, choice, op, r, callback, a, rfl, hop, ht, hr, rfl⟩ | ⟨j, op, code, rfl, hop, ht, rfl⟩
  · exact h k op' hop
  · rcases (hcode call).exec H c env with ⟨r, callback, hexec, hlast⟩ | ⟨o, hexec⟩
    · exact .inr ⟨by rw [hexec], .waiting r callback, by rw [hexec], hlast⟩
    · exact .inl ⟨by rw [hexec], o, by rw [hexec]⟩
  · obtain ⟨rfl, houts, htasks, hlast⟩ := h.task hop ht
    exact .inr ⟨houts, .ready (callback a), by simp [htasks], hlast a⟩
  · obtain ⟨rfl, houts, htasks, hlast⟩ := h.task hop ht
    rcases Code.ReportsLast.exec H op.client hlast w.env with
      ⟨r, callback, hexec, hlast⟩ | ⟨o, hexec⟩
    · exact .inr ⟨by simp [hexec, houts], .waiting r callback, by simp [hexec, htasks], hlast⟩
    · exact .inl ⟨by simp [hexec, htasks], o, by simp [hexec, houts]⟩

/-! ## The control -/

/-- Operation `i` is a call of `c` and is in flight. -/
def InFlight (w : World Env Client Call Choice Req Ans View Out) (i : ℕ) (c : Client) : Prop :=
  ∃ op, w.ops i = some op ∧ op.client = c ∧ op.tasks ≠ []

/-- At most one block is due, and the control is not free while it is. -/
def Released (free : Env → Client → Prop) (due : Env → Client → ℕ) (env : Env) (c : Client) :
    Prop :=
  due env c = 0 ∨ (due env c = 1 ∧ ¬ free env c)

/-- The client `c` has at most one call in flight, and its control is not free then. -/
structure Exclusive (free : Env → Client → Prop) (due : Env → Client → ℕ)
    (w : World Env Client Call Choice Req Ans View Out) (c : Client) : Prop where
  single : ∀ i j, InFlight w i c → InFlight w j c → i = j
  taken : ∀ i, InFlight w i c → ¬ free w.env c ∧ due w.env c = 0
  released : Released free due w.env c

/-- Every client has one call in flight at a time. -/
def OneAtATime (free : Env → Client → Prop) (due : Env → Client → ℕ)
    (w : World Env Client Call Choice Req Ans View Out) : Prop :=
  ∀ c, Exclusive free due w c

section exclusive
variable {free : Env → Client → Prop} {due : Env → Client → ℕ} {c : Client}

/-- Nothing that concerns the client has happened. -/
theorem Exclusive.keep (h : Exclusive free due w c)
    (hin : ∀ i, InFlight w' i c → InFlight w i c) (hkept : Kept free due w.env w'.env c) :
    Exclusive free due w' c where
  single i j hi hj := h.single i j (hin i hi) (hin j hj)
  taken i hi := by
    obtain ⟨hfree, hdue⟩ := h.taken i (hin i hi)
    exact ⟨fun hf => hfree (hkept.1 hf), hkept.2.trans hdue⟩
  released := by
    rcases h.released with hdue | ⟨hdue, hfree⟩
    · exact .inl (hkept.2.trans hdue)
    · exact .inr ⟨hkept.2.trans hdue, fun hf => hfree (hkept.1 hf)⟩

/-- The client has no call in flight. -/
theorem Exclusive.idle (hno : ∀ i, ¬ InFlight w i c) (hreleased : Released free due w.env c) :
    Exclusive free due w c where
  single i _ hi := absurd hi (hno i)
  taken i hi := absurd hi (hno i)
  released := hreleased

/-- A report of a client whose control is taken. -/
theorem Released.emit (hG : H.Guarded free due) {env : Env} (o : Out) (hfree : ¬ free env c)
    (hdue : due env c = 0) : Released free due (H.emit env c o) c := by
  rcases hG.emit env c o with heq | ⟨heq, hf⟩
  · exact .inl (heq.trans hdue)
  · exact .inr ⟨by rw [heq, hdue], fun h => hfree (hf h)⟩

/-- Operations other than `i` are in flight as before. -/
theorem inFlight_of_update {i k : ℕ} {op : Op Client Call Choice Req Ans View Out}
    (hops : w'.ops = Function.update w.ops i (some op)) (h : InFlight w' k c)
    (hne : op.client = c → op.tasks ≠ [] → InFlight w i c) : InFlight w k c := by
  obtain ⟨op', hop', hclient, htasks⟩ := h
  rw [hops] at hop'
  by_cases hk : k = i
  · subst hk
    obtain rfl := by simpa using hop'
    exact hne hclient htasks
  · exact ⟨op', by simpa [hk] using hop', hclient, htasks⟩

/-- Code of `c` has run while `c` had nothing else in flight: it waits, or has reported. -/
theorem Exclusive.ran (hG : H.Guarded free due) {i : ℕ} {env : Env} {code : Code Req Ans View Out}
    {op : Op Client Call Choice Req Ans View Out} (hcode : code.ReportsLast)
    (hfree : ¬ free env c) (hdue : due env c = 0) (henv : w'.env = (H.exec c code env).env)
    (hop : w'.ops i = some op) (htasks : op.tasks = (H.exec c code env).tasks)
    (honly : ∀ k, InFlight w' k c → k = i) : Exclusive free due w' c := by
  rcases hcode.exec H c env with ⟨r, callback, hexec, -⟩ | ⟨o, hexec⟩
  · rw [hexec] at henv
    refine ⟨fun k l hk hl => (honly k hk).trans (honly l hl).symm, fun k _ => ?_, .inl ?_⟩
    · rw [henv]
      exact ⟨hfree, hdue⟩
    · rwa [henv]
  · rw [hexec] at henv htasks
    refine .idle (fun k hk => ?_) ?_
    · obtain rfl := honly k hk
      obtain ⟨op', hop', -, hne⟩ := hk
      obtain rfl := Option.some.inj (hop.symm.trans hop')
      exact hne htasks
    · rw [henv]
      exact .emit hG o hfree hdue

/-- Code of another client has run. -/
theorem Kept.exec (hG : H.Guarded free due) {c₀ : Client} (hne : c ≠ c₀) {env : Env}
    {code : Code Req Ans View Out} (hcode : code.ReportsLast) :
    Kept free due env (H.exec c₀ code env).env c := by
  rcases hcode.exec H c₀ env with ⟨r, callback, hexec, -⟩ | ⟨o, hexec⟩
  · rw [hexec]
    exact ⟨id, rfl⟩
  · rw [hexec]
    exact hG.emit_other env c₀ o hne

/-- **One call at a time**, through a step. -/
theorem OneAtATime.step {action : Action Client Call Act Choice} (h : OneAtATime free due w)
    (hG : H.Guarded free due) (hreport : Reporting w)
    (hcode : ∀ call, (H.code call).ReportsLast) (hs : w.step H action = some w') :
    OneAtATime free due w' := by
  intro c
  rcases step_cases hs with ⟨i, c₀, call, env, rfl, hi, ha, rfl⟩ |
    ⟨i, j, choice, op, r, callback, env, a, rfl, hi, ht, hr, rfl⟩ |
    ⟨i, j, op, code, rfl, hi, ht, rfl⟩ | ⟨a, env, rfl, ha, rfl⟩
  · by_cases hc : c = c₀
    · -- the control was free, so the client had nothing in flight and nothing due
      subst hc
      obtain ⟨hfree, htaken, hsame⟩ := hG.accept ha
      have hnone : ∀ k, ¬ InFlight w k c := fun k hk => ((h c).taken k hk).1 hfree
      have hdue : due env c = 0 := by
        rcases (h c).released with hzero | ⟨-, hbusy⟩
        · exact hsame.trans hzero
        · exact absurd hfree hbusy
      refine .ran hG (hcode call) htaken hdue rfl (Function.update_self i _ _) rfl fun k hk => ?_
      by_contra hne
      obtain ⟨op, hop, hrest⟩ := hk
      exact hnone k ⟨op, by simpa [hne] using hop, hrest⟩
    · obtain ⟨hfree, hdue⟩ := hG.accept_other ha hc
      have hran : Kept free due env (H.exec c₀ (H.code call) env).env c :=
        Kept.exec hG hc (hcode call)
      obtain ⟨hfree', hdue'⟩ := hran
      refine (h c).keep (fun k hk => inFlight_of_update rfl hk fun hclient _ => ?_)
        ⟨fun hf => hfree (hfree' hf), hdue'.trans hdue⟩
      exact absurd hclient.symm hc
  · refine (h c).keep (fun k hk => inFlight_of_update rfl hk fun hclient _ => ?_) (hG.serve hr c)
    exact ⟨op, hi, hclient, List.ne_nil_of_mem (List.mem_of_getElem? ht)⟩
  · obtain ⟨rfl, -, htasks, hlast⟩ := hreport.task hi ht
    by_cases hc : c = op.client
    · -- it is the one call of its client
      subst hc
      have hin : InFlight w i op.client := ⟨op, hi, rfl, by simp [htasks]⟩
      obtain ⟨hfree, hdue⟩ := (h op.client).taken i hin
      refine .ran hG hlast hfree hdue rfl (Function.update_self i _ _) (by simp [htasks])
        fun k hk => (h op.client).single k i ?_ hin
      exact inFlight_of_update rfl hk fun _ _ => hin
    · refine (h c).keep (fun k hk => inFlight_of_update rfl hk fun hclient _ => ?_)
        (Kept.exec hG hc hlast)
      exact absurd hclient.symm hc
  · rcases hG.act ha c with hkept | hdue
    · exact (h c).keep (fun k hk => hk) hkept
    · have hnone : ∀ k, ¬ InFlight w k c := fun k hk => by
        have hzero := ((h c).taken k hk).2
        omega
      have hover : due env c = 0 := by
        rcases (h c).released with hzero | ⟨hone, -⟩ <;> omega
      exact .idle hnone (.inl hover)

end exclusive

end World
end FirebaseApps.Lib
