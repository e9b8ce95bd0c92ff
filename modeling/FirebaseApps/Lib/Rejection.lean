import Mathlib.Data.List.Basic
import Mathlib.Data.Set.Card

/-!
# Rejection sampling

A sampler reads draws one after another, drops those that a test rejects and keeps the
first `n` others.  Over all draw sequences of a given length, each outcome of accepted
draws comes up equally often: replacing the accepted draws of a sequence, in order, by
another outcome is a bijection between the sequences with one outcome and those with
the other (`ncard_sample_eq`).
-/

namespace FirebaseApps.Lib

variable {α : Type} (accept : α → Bool)

/-- The first `n` accepted draws, in order. -/
def sample (n : ℕ) (draws : List α) : List α := (draws.filter accept).take n

/-- Replace the accepted draws by the targets, in order, as long as there are any. -/
def retarget : List α → List α → List α
  | [], draws => draws
  | _ :: _, [] => []
  | target :: targets, draw :: draws =>
      if accept draw then target :: retarget targets draws
      else draw :: retarget (target :: targets) draws

variable {accept}

theorem sample_cons_of_accept {draw : α} (h : accept draw) (n : ℕ) (draws : List α) :
    sample accept (n + 1) (draw :: draws) = draw :: sample accept n draws := by
  simp [sample, h]

theorem sample_cons_of_reject {draw : α} (h : ¬ accept draw) (n : ℕ) (draws : List α) :
    sample accept n (draw :: draws) = sample accept n draws := by
  simp [sample, h]

@[simp] theorem length_retarget (targets draws : List α) :
    (retarget accept targets draws).length = draws.length := by
  induction draws generalizing targets with
  | nil => cases targets <;> rfl
  | cons draw draws ih =>
      cases targets with
      | nil => rfl
      | cons target targets =>
          rw [retarget]
          split <;> simp [ih]

/-- The outcome after the accepted draws were replaced. -/
theorem sample_retarget {targets draws : List α} (htargets : ∀ target ∈ targets, accept target)
    (hdraws : (sample accept targets.length draws).length = targets.length) :
    sample accept targets.length (retarget accept targets draws) = targets := by
  induction draws generalizing targets with
  | nil => cases targets <;> simp_all [sample, retarget]
  | cons draw draws ih =>
      cases targets with
      | nil => simp [sample]
      | cons target targets =>
          rw [List.length_cons] at hdraws ⊢
          rw [retarget]
          by_cases h : accept draw
          · rw [if_pos h, sample_cons_of_accept (htargets target List.mem_cons_self)]
            rw [sample_cons_of_accept h, List.length_cons, Nat.add_right_cancel_iff] at hdraws
            rw [ih (fun t ht => htargets t (List.mem_cons_of_mem _ ht)) hdraws]
          · rw [if_neg h, sample_cons_of_reject h]
            rw [sample_cons_of_reject h] at hdraws
            exact ih htargets hdraws

/-- Putting the old outcome back restores the draws. -/
theorem retarget_retarget {targets outcome draws : List α}
    (hlength : targets.length = outcome.length)
    (htargets : ∀ target ∈ targets, accept target)
    (hdraws : sample accept outcome.length draws = outcome) :
    retarget accept outcome (retarget accept targets draws) = draws := by
  induction draws generalizing targets outcome with
  | nil => cases targets <;> cases outcome <;> rfl
  | cons draw draws ih =>
      cases targets with
      | nil =>
          obtain rfl := List.length_eq_zero_iff.mp hlength.symm
          rfl
      | cons target targets =>
          obtain ⟨old, outcome, rfl⟩ := List.exists_cons_of_length_eq_add_one hlength.symm
          rw [List.length_cons, List.length_cons, Nat.add_right_cancel_iff] at hlength
          rw [List.length_cons] at hdraws
          rw [retarget]
          by_cases h : accept draw
          · rw [sample_cons_of_accept h] at hdraws
            obtain ⟨rfl, hrest⟩ := List.cons.inj hdraws
            have htarget := htargets target List.mem_cons_self
            rw [if_pos h, retarget, if_pos htarget,
              ih hlength (fun t ht => htargets t (List.mem_cons_of_mem _ ht)) hrest]
          · rw [sample_cons_of_reject h] at hdraws
            have hrest :
                retarget accept (old :: outcome) (retarget accept (target :: targets) draws) =
                draws := ih (by simp [hlength]) htargets hdraws
            rw [if_neg h, retarget, if_neg h, hrest]

/-- **Every outcome is equally frequent**: two lists of accepted draws of one length are
the outcome of equally many draw sequences of length `m`. -/
theorem ncard_sample_eq (m : ℕ) {s t : List α} (hlength : s.length = t.length)
    (hs : ∀ draw ∈ s, accept draw) (ht : ∀ draw ∈ t, accept draw) :
    {draws : List α | draws.length = m ∧ sample accept s.length draws = s}.ncard =
      {draws : List α | draws.length = m ∧ sample accept t.length draws = t}.ncard := by
  have hmem : ∀ {s t : List α}, s.length = t.length → (∀ draw ∈ t, accept draw) → ∀ draws,
      draws.length = m ∧ sample accept s.length draws = s →
      (retarget accept t draws).length = m ∧
        sample accept t.length (retarget accept t draws) = t := by
    rintro s t hlength ht draws ⟨hm, hdraws⟩
    exact ⟨by rw [length_retarget, hm], sample_retarget ht (by rw [← hlength, hdraws])⟩
  refine Set.ncard_congr' ⟨fun draws => ⟨retarget accept t draws, hmem hlength ht _ draws.2⟩,
    fun draws => ⟨retarget accept s draws, hmem hlength.symm hs _ draws.2⟩, ?_, ?_⟩
  · rintro ⟨draws, -, hdraws⟩
    exact Subtype.ext (retarget_retarget hlength.symm ht hdraws)
  · rintro ⟨draws, -, hdraws⟩
    exact Subtype.ext (retarget_retarget hlength hs hdraws)

end FirebaseApps.Lib
