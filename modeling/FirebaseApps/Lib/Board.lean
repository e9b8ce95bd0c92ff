import FirebaseApps.Lib.Run
import Mathlib.Data.List.Nodup
import Mathlib.Data.Prod.Lex
import Mathlib.Data.Set.Insert
import Mathlib.Logic.Relation

/-!
# Boards: entries that are put up, revised and taken down

A board holds entries by key.  A move puts an entry up under a key that was never used,
revises one that is there, or takes one down; what may be put up, and what a revision may
change, are parameters.  A key that has been used and has no entry is gone for good, so an
entry that is seen before and after a run was there throughout, and has only been revised
in between.

A listing has the entries of a board by rank, the highest first.  When revisions keep
the rank, two listings have the entries they share in the same order.

## Main definitions

* `Board`, `Board.Move` — boards and their moves.
* `Board.Lists` — a listing of a board by rank.

## Main results

* `Board.moves_of_run` — a system whose steps are moves or leave the board alone.
* `Board.gone_of_moves`, `Board.revised_of_moves`, `Board.origin_of_moves` — what a run of
  moves keeps, and where an entry comes from.
* `Board.Lists.unique`, `Board.Lists.order_stable` — a board has one listing, and the
  entries of two listings are in the same order.
-/

namespace FirebaseApps.Lib

/-- A board: its entries by key, and the keys that have been used. -/
structure Board (K V : Type) : Type where
  entry : K → Option V
  used : Set K
  mem_used : ∀ k v, entry k = some v → k ∈ used

namespace Board

variable {K V L : Type} {P : V → Prop} {R : V → V → Prop} {b b' : Board K V} {k : K} {v v' : V}

section moves
variable [DecidableEq K]

/-- One move; `P` says what may be put up, and `R` what a revision may change. -/
inductive Move (P : V → Prop) (R : V → V → Prop) (b b' : Board K V) : Prop
  /-- An entry is put up under a new key. -/
  | post (k : K) (v : V) (hP : P v) (hfresh : k ∉ b.used)
      (hentry : b'.entry = Function.update b.entry k (some v)) (hused : b'.used = insert k b.used)
  | revise (k : K) (v v' : V) (hold : b.entry k = some v) (hR : R v v')
      (hentry : b'.entry = Function.update b.entry k (some v')) (hused : b'.used = b.used)
  /-- What is under a key is taken down; there may be nothing. -/
  | erase (k : K) (hentry : b'.entry = Function.update b.entry k none)
      (hused : b'.used = insert k b.used)

/-- Any number of moves. -/
abbrev Moves (P : V → Prop) (R : V → V → Prop) : Board K V → Board K V → Prop :=
  Relation.ReflTransGen (Move P R)

/-- **The rule of refinement.**  When each step of a system is a move of a board or leaves
it alone, a run of the system is a run of moves. -/
theorem moves_of_run {S A : Type} {step : S → A → Option S} {I : S → Prop} (board : S → Board K V)
    (hI : ∀ s a s', I s → step s a = some s' → I s')
    (hstep : ∀ s a s', I s → step s a = some s' →
      board s' = board s ∨ Move P R (board s) (board s'))
    {as : List A} {s s' : S} (hs : I s) (hrun : run step s as = some s') :
    Moves P R (board s) (board s') := by
  have hinv : I s' ∧ Moves P R (board s) (board s') := by
    refine run_invariant (P := fun t => I t ∧ Moves P R (board s) (board t)) ?_ ⟨hs, .refl⟩ hrun
    rintro t a t' ⟨ht, hmoves⟩ hstep'
    refine ⟨hI t a t' ht hstep', ?_⟩
    rcases hstep t a t' ht hstep' with heq | hmove
    · rwa [heq]
    · exact hmoves.tail hmove
  exact hinv.2

/-! ## What moves keep -/

/-- Used keys stay used. -/
theorem Move.used_subset (h : Move P R b b') : b.used ⊆ b'.used := by
  cases h with
  | post k v _ hfresh hentry hused => rw [hused]; exact Set.subset_insert k b.used
  | revise k v v' hold hR hentry hused => exact hused.ge
  | erase k hentry hused => rw [hused]; exact Set.subset_insert k b.used

/-- An entry after a move was there before, has been revised, or has been put up. -/
theorem Move.origin (h : Move P R b b') (hv' : b'.entry k = some v') :
    b.entry k = some v' ∨ (∃ v, b.entry k = some v ∧ R v v') ∨ (k ∉ b.used ∧ P v') := by
  cases h with
  | post k' v hP hfresh hentry _ =>
      by_cases hk : k = k'
      · rw [hentry, hk, Function.update_self] at hv'
        obtain rfl := Option.some.inj hv'
        exact .inr (.inr ⟨hk ▸ hfresh, hP⟩)
      · rw [hentry, Function.update_of_ne hk] at hv'
        exact .inl hv'
  | revise k' v v₀ hold hR hentry _ =>
      by_cases hk : k = k'
      · rw [hentry, hk, Function.update_self] at hv'
        obtain rfl := Option.some.inj hv'
        exact .inr (.inl ⟨v, hk ▸ hold, hR⟩)
      · rw [hentry, Function.update_of_ne hk] at hv'
        exact .inl hv'
  | erase k' hentry _ =>
      by_cases hk : k = k'
      · rw [hentry, hk, Function.update_self] at hv'
        cases hv'
      · rw [hentry, Function.update_of_ne hk] at hv'
        exact .inl hv'

theorem used_of_moves (h : Moves P R b b') : b.used ⊆ b'.used := by
  induction h with
  | refl => exact Set.Subset.rfl
  | tail _ hmove ih => exact Set.Subset.trans ih hmove.used_subset

/-- **Where an entry comes from**: it has been revised from one that was there before, or
from one that was put up under a new key. -/
theorem origin_of_moves (h : Moves P R b b') (hv' : b'.entry k = some v') :
    (∃ v, b.entry k = some v ∧ Relation.ReflTransGen R v v') ∨
      (k ∉ b.used ∧ ∃ v, P v ∧ Relation.ReflTransGen R v v') := by
  induction h generalizing v' with
  | refl => exact .inl ⟨v', hv', .refl⟩
  | tail hmoves hmove ih =>
      rcases hmove.origin hv' with hv | ⟨v, hv, hR⟩ | ⟨hfresh, hP⟩
      · exact ih hv
      · rcases ih hv with ⟨v₀, hv₀, hR₀⟩ | ⟨hnew, v₀, hP, hR₀⟩
        · exact .inl ⟨v₀, hv₀, hR₀.tail hR⟩
        · exact .inr ⟨hnew, v₀, hP, hR₀.tail hR⟩
      · exact .inr ⟨fun hused => hfresh (used_of_moves hmoves hused), v', hP, .refl⟩

/-- **What is gone stays gone.** -/
theorem gone_of_moves (h : Moves P R b b') (hused : k ∈ b.used) (hnone : b.entry k = none) :
    b'.entry k = none := by
  refine Option.eq_none_iff_forall_ne_some.mpr fun v' hv' => ?_
  rcases origin_of_moves h hv' with ⟨v, hv, -⟩ | ⟨hnew, -⟩
  · rw [hnone] at hv
    cases hv
  · exact hnew hused

/-- **What is there before and after has only been revised.** -/
theorem revised_of_moves (h : Moves P R b b') (hv : b.entry k = some v)
    (hv' : b'.entry k = some v') : Relation.ReflTransGen R v v' := by
  rcases origin_of_moves h hv' with ⟨v₀, hv₀, hR⟩ | ⟨hnew, -⟩
  · obtain rfl : v = v₀ := Option.some.inj (hv.symm.trans hv₀)
    exact hR
  · exact absurd (b.mem_used k v hv) hnew

/-- **The rule of entries**: what is put up satisfies `Q`, and revisions keep it. -/
theorem new_entry_of_moves {Q : V → Prop} (hP : ∀ v, P v → Q v) (hR : ∀ v v', Q v → R v v' → Q v')
    (h : Moves P R b b') (hnew : k ∉ b.used) (hv' : b'.entry k = some v') : Q v' := by
  rcases origin_of_moves h hv' with ⟨v, hv, -⟩ | ⟨-, v, hv, hrevised⟩
  · exact absurd (b.mem_used k v hv) hnew
  · clear hv'
    induction hrevised with
    | refl => exact hP v hv
    | tail _ hr ih => exact hR _ _ ih hr

/-- What revisions keep of an entry, a run of moves keeps. -/
theorem eq_of_moves {rank : V → L} (hR : ∀ v v', R v v' → rank v' = rank v) (h : Moves P R b b')
    (hv : b.entry k = some v) (hv' : b'.entry k = some v') : rank v' = rank v := by
  have hrevised := revised_of_moves h hv hv'
  clear hv'
  induction hrevised with
  | refl => rfl
  | tail _ hr ih => exact (hR _ _ hr).trans ih

end moves

/-! ## Listings -/

section listings
variable [LinearOrder K] [LinearOrder L] {rank : V → L} {l l' : List (K × V)}

/-- `l` lists the entries of the board by rank, the highest first, and by key among equals. -/
structure Lists (rank : V → L) (b : Board K V) (l : List (K × V)) : Prop where
  mem_iff : ∀ k v, (k, v) ∈ l ↔ b.entry k = some v
  sorted : l.Pairwise fun x y => toLex (rank y.2, y.1) < toLex (rank x.2, x.1)

/-- The keys of a listing are those that have an entry. -/
theorem Lists.mem_keys (h : b.Lists rank l) : k ∈ l.map Prod.fst ↔ ∃ v, b.entry k = some v := by
  simp [h.mem_iff]

/-- No key is listed twice. -/
theorem Lists.nodup_keys (h : b.Lists rank l) : (l.map Prod.fst).Nodup := by
  refine List.pairwise_map.mpr (h.sorted.imp_of_mem fun {x y} hx hy hlt heq => ?_)
  have hx' := (h.mem_iff x.1 x.2).mp hx
  have hy' := (h.mem_iff y.1 y.2).mp hy
  rw [heq, hy'] at hx'
  obtain rfl : y = x := Prod.ext heq.symm (Option.some.inj hx')
  exact lt_irrefl _ hlt

/-- A board has one listing. -/
theorem Lists.unique (h : b.Lists rank l) (h' : b.Lists rank l') : l = l' := by
  refine List.Perm.eq_of_pairwise (fun x y _ _ hxy hyx => absurd hxy (lt_asymm hyx)) h.sorted
    h'.sorted ?_
  refine (List.perm_ext_iff_of_nodup h.nodup_keys.of_map h'.nodup_keys.of_map).mpr ?_
  rintro ⟨k, v⟩
  rw [h.mem_iff, h'.mem_iff]

/-- The keys of a listing are in the order of rank and key. -/
theorem Lists.sorted_keys (h : b.Lists rank l) : (l.map Prod.fst).Pairwise fun k k' =>
    ∀ v v', b.entry k = some v → b.entry k' = some v' →
      toLex (rank v', k') < toLex (rank v, k) := by
  refine List.pairwise_map.mpr (h.sorted.imp_of_mem fun {x y} hx hy hlt v v' hv hv' => ?_)
  obtain rfl := Option.some.inj (((h.mem_iff x.1 x.2).mp hx).symm.trans hv)
  obtain rfl := Option.some.inj (((h.mem_iff y.1 y.2).mp hy).symm.trans hv')
  exact hlt

/-- **Entries do not change places**: what two listings share is in the same order in both. -/
theorem Lists.order_stable [DecidableEq K] (hR : ∀ v v', R v v' → rank v' = rank v)
    (hmoves : Moves P R b b')
    (h : b.Lists rank l) (h' : b'.Lists rank l') :
    (l.map Prod.fst).filter (· ∈ l'.map Prod.fst) =
      (l'.map Prod.fst).filter (· ∈ l.map Prod.fst) := by
  -- both are sorted by what the keys are on the second board
  let before (k k' : K) : Prop := ∀ v v', b'.entry k = some v → b'.entry k' = some v' →
    toLex (rank v', k') < toLex (rank v, k)
  have hsorted : ((l.map Prod.fst).filter (· ∈ l'.map Prod.fst)).Pairwise before := by
    refine (h.sorted_keys.filter _).imp_of_mem fun {k k'} hk hk' hlt v v' hv hv' => ?_
    obtain ⟨v₀, hv₀⟩ := h.mem_keys.mp (List.mem_of_mem_filter hk)
    obtain ⟨v₀', hv₀'⟩ := h.mem_keys.mp (List.mem_of_mem_filter hk')
    rw [eq_of_moves hR hmoves hv₀ hv, eq_of_moves hR hmoves hv₀' hv']
    exact hlt v₀ v₀' hv₀ hv₀'
  refine @List.Perm.eq_of_pairwise K before _ _ (fun k k' hk hk' hlt hgt => ?_) hsorted
    (h'.sorted_keys.filter _) ?_
  · obtain ⟨v, hv⟩ := h'.mem_keys.mp (by simpa using (List.mem_filter.mp hk).2)
    obtain ⟨v', hv'⟩ := h'.mem_keys.mp (List.mem_of_mem_filter hk')
    exact absurd (hlt v v' hv hv') (lt_asymm (hgt v' v hv' hv))
  · refine (List.perm_ext_iff_of_nodup (h.nodup_keys.filter _) (h'.nodup_keys.filter _)).mpr ?_
    intro k
    simp only [List.mem_filter, decide_eq_true_eq]
    exact and_comm

end listings
end Board
end FirebaseApps.Lib
