import Mathlib.Data.List.Basic

/-!
# Words made of blocks

A word in which every letter is written as a block of the same length can be read in one way
only: if no two letters have the same block, then no two words have the same text.
-/

namespace FirebaseApps.Lib

variable {A B : Type} {block : A → List B} {n : ℕ}

/-- **Block codes are injective.** -/
theorem flatMap_injective (hn : 0 < n) (hlength : ∀ a, (block a).length = n)
    (hblock : Function.Injective block) : Function.Injective (List.flatMap block) := by
  intro word word' heq
  induction word generalizing word' with
  | nil =>
      cases word' with
      | nil => rfl
      | cons b word' =>
          have hnil := congrArg List.length heq
          simp only [List.flatMap_nil, List.length_nil, List.flatMap_cons, List.length_append,
            hlength] at hnil
          omega
  | cons a word ih =>
      cases word' with
      | nil =>
          have hnil := congrArg List.length heq
          simp only [List.flatMap_nil, List.length_nil, List.flatMap_cons, List.length_append,
            hlength] at hnil
          omega
      | cons b word' =>
          rw [List.flatMap_cons, List.flatMap_cons] at heq
          -- the first blocks end at the same place
          obtain ⟨hab, hrest⟩ := List.append_inj heq ((hlength a).trans (hlength b).symm)
          rw [hblock hab, ih hrest]

end FirebaseApps.Lib
