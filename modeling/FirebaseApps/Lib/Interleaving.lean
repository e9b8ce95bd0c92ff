import FirebaseApps.Lib.Callback

/-!
# The log as an interleaving

The log of a world interleaves the histories of its operations: what an operation has had
served stands in the log in the order in which it was served, with the requests of others
in between.  And an entry was written when the log was what stands before it, so what a
request finds can be told from the log alone.
-/

namespace FirebaseApps.Lib

namespace World

variable {Env Client Call Act Choice Req View Out : Type} {Ans : Req → Type}
variable {H : Host Env Client Call Act Choice Req Ans View Out}
variable {w w' : World Env Client Call Choice Req Ans View Out}
variable {action : Action Client Call Act Choice}

/-- An operation goes on with the call it was made for, and its effects stay. -/
theorem outs_step (hs : w.step H action = some w') {k : ℕ}
    {op : Op Client Call Choice Req Ans View Out} (hop : w.ops k = some op) :
    ∃ op', w'.ops k = some op' ∧ op'.client = op.client ∧ op'.call = op.call ∧
      op.outs ⊆ op'.outs := by
  obtain ⟨op', hop', hfol⟩ := step_op hs hop
  refine ⟨op', hop', hfol.client, hfol.call, ?_⟩
  rcases op_cases hs hop' with hsame | ⟨c, call, env, rfl, hk, ha, henv, rfl⟩ |
    ⟨j, choice, op₀, r, callback, a, rfl, hop₀, ht, hr, rfl⟩ | ⟨j, op₀, code, rfl, hop₀, ht, rfl⟩
  · obtain rfl := Option.some.inj (hop.symm.trans hsame)
    exact List.Subset.refl _
  · cases hop.symm.trans hk
  · obtain rfl := Option.some.inj (hop.symm.trans hop₀)
    exact List.Subset.refl _
  · obtain rfl := Option.some.inj (hop.symm.trans hop₀)
    exact List.subset_append_left _ _

/-- What the log says of an operation. -/
def entriesOf (i : ℕ) (log : List (Entry Call Choice Req Ans)) : List (Entry Call Choice Req Ans) :=
  log.filter fun entry => entry.op = i

/-- The entries that an operation should have. -/
def ownEntries (i : ℕ) :
    Option (Op Client Call Choice Req Ans View Out) → List (Entry Call Choice Req Ans)
  | none => []
  | some op => op.history.map fun e => ⟨i, op.call, e⟩

/-- The log has the history of each operation, in its order. -/
def Interleaved (w : World Env Client Call Choice Req Ans View Out) : Prop :=
  ∀ i, entriesOf i w.log = ownEntries i (w.ops i)

theorem interleaved_initial (env : Env) :
    Interleaved (initial env : World Env Client Call Choice Req Ans View Out) :=
  fun _ => rfl

theorem Interleaved.step (h : Interleaved w) (hs : w.step H action = some w') :
    Interleaved w' := by
  intro k
  rcases step_cases hs with ⟨i, c, call, env, rfl, hi, ha, rfl⟩ |
    ⟨i, j, choice, op, r, callback, env, a, rfl, hi, ht, hr, rfl⟩ |
    ⟨i, j, op, code, rfl, hi, ht, rfl⟩ | ⟨a, env, rfl, ha, rfl⟩
  · by_cases hk : k = i
    · subst hk
      rw [log_resume, h k, hi, ops_resume, Function.update_self]
      rfl
    · rw [log_resume, h k, ops_resume, Function.update_of_ne hk]
  · by_cases hk : k = i
    · subst hk
      have hlog := h k
      rw [hi] at hlog
      simp only [entriesOf] at hlog
      simp [entriesOf, ownEntries, hlog]
    · have hne : i ≠ k := Ne.symm hk
      have hlog := h k
      simp only [entriesOf] at hlog
      simp [entriesOf, hk, hne, hlog]
  · by_cases hk : k = i
    · subst hk
      rw [log_resume, h k, hi, ops_resume, Function.update_self]
      rfl
    · rw [log_resume, h k, ops_resume, Function.update_of_ne hk]
  · exact h k

/-- **Two requests of one operation stand in the log in the order they were served.** -/
theorem Interleaved.split (h : Interleaved w) {i : ℕ} {op : Op Client Call Choice Req Ans View Out}
    (hop : w.ops i = some op) {e e' : Event Req Ans Choice} {rest : List (Event Req Ans Choice)}
    (hhistory : op.history = e :: e' :: rest) :
    ∃ before between after, w.log =
        before ++ ⟨i, op.call, e⟩ :: between ++ ⟨i, op.call, e'⟩ :: after ∧
      ∀ entry ∈ between, entry.op ≠ i := by
  have hlog := h i
  rw [hop, ownEntries, hhistory, entriesOf, List.map_cons, List.map_cons] at hlog
  obtain ⟨before, log, hbefore, -, -, hlog⟩ := List.filter_eq_cons_iff.mp hlog
  obtain ⟨between, after, rfl, hbetween, -, -⟩ := List.filter_eq_cons_iff.mp hlog
  exact ⟨before, between, after, by rw [hbefore]; simp, by simpa using hbetween⟩

/-- Each entry of the log is as `P` says of the log before it. -/
def Recorded (P : List (Entry Call Choice Req Ans) → Entry Call Choice Req Ans → Prop)
    (w : World Env Client Call Choice Req Ans View Out) : Prop :=
  ∀ before entry after, w.log = before ++ entry :: after → P before entry

section recorded
variable {P : List (Entry Call Choice Req Ans) → Entry Call Choice Req Ans → Prop}

theorem recorded_initial (env : Env) :
    Recorded P (initial env : World Env Client Call Choice Req Ans View Out) := by
  intro before entry after h
  simp [initial] at h

/-- **The rule of the log**: an entry has to be checked when it is written. -/
theorem Recorded.step (h : Recorded P w) (hs : w.step H action = some w')
    (hnew : ∀ entry, w'.log = w.log ++ [entry] → P w.log entry) : Recorded P w' := by
  intro before entry after hlog
  rcases log_step hs with heq | ⟨i, op, r, choice, a, -, heq, -⟩
  · exact h before entry after (heq ▸ hlog)
  · rcases List.eq_nil_or_concat after with rfl | ⟨after, last, rfl⟩
    · rw [heq] at hlog
      obtain ⟨rfl, hentry⟩ := List.append_inj' hlog rfl
      exact hnew entry (by rw [heq, hentry])
    · rw [heq, List.concat_eq_append, ← List.cons_append, ← List.append_assoc] at hlog
      exact h before entry after (List.append_inj_left' hlog rfl)

end recorded

end World
end FirebaseApps.Lib
