import Mathlib.Data.List.Induction
import Mathlib.Logic.Function.Basic

/-!
# Maps as the replay of their writes

A map from keys to values changes by writes to one key each: a key is added, updated
or deleted.  Replaying a list of writes determines the map, and the value of a key
can be read off the list: it is that of the last update since the key was added
(`value_of_replay`).
-/

namespace FirebaseApps.Lib

variable {K V : Type}

/-- A write to a map. -/
inductive MapWrite (K V : Type) : Type
  | add (k : K) (v : V)
  /-- Change the value of a key that is there. -/
  | update (k : K) (v : V)
  | delete (k : K)
  deriving DecidableEq

/-- The key that is written. -/
def MapWrite.key : MapWrite K V → K
  | .add k _ | .update k _ | .delete k => k

/-- The map after a write. -/
def MapWrite.apply [DecidableEq K] (m : K → Option V) : MapWrite K V → K → Option V
  | .add k v => Function.update m k (some v)
  | .update k v => Function.update m k ((m k).map fun _ => v)
  | .delete k => Function.update m k none

/-- The value that a write gives to `k` when it updates it. -/
def MapWrite.update? [DecidableEq K] (k : K) : MapWrite K V → Option V
  | .update k' v => if k' = k then some v else none
  | _ => none

section replay
variable [DecidableEq K]

/-- The map after a run of writes. -/
def replay (m : K → Option V) (ws : List (MapWrite K V)) : K → Option V := ws.foldl MapWrite.apply m

/-- The values that updates give to `k`, oldest first. -/
def updates (k : K) (ws : List (MapWrite K V)) : List V := ws.filterMap (MapWrite.update? k)

variable {m : K → Option V} {ws : List (MapWrite K V)} {k : K} {v : V}

@[simp] theorem replay_nil (m : K → Option V) : replay m [] = m := rfl

@[simp] theorem replay_append_singleton (m : K → Option V) (ws : List (MapWrite K V))
    (write : MapWrite K V) : replay m (ws ++ [write]) = write.apply (replay m ws) := by
  simp [replay]

/-- A write leaves the other keys alone. -/
theorem MapWrite.apply_of_ne {write : MapWrite K V} (h : write.key ≠ k) :
    write.apply m k = m k := by
  cases write <;> exact Function.update_of_ne (Ne.symm h) _ _

@[simp] theorem updates_append (k : K) (ws ws' : List (MapWrite K V)) :
    updates k (ws ++ ws') = updates k ws ++ updates k ws' :=
  List.filterMap_append

/-- `v` is what the writes `ws` leave at `k`, which had the value `v₀` before them. -/
structure Leaves (k : K) (v₀ : V) (ws : List (MapWrite K V)) (v : V) : Prop where
  not_added : ∀ v', .add k v' ∉ ws
  not_deleted : .delete k ∉ ws
  value : v = (updates k ws).getLastD v₀

theorem Leaves.nil (k : K) (v : V) : Leaves k v [] v := ⟨by simp, by simp, rfl⟩

/-- A later update. -/
theorem Leaves.update {v₀ : V} (h : Leaves k v₀ ws v) (v' : V) :
    Leaves k v₀ (ws ++ [.update k v']) v' where
  not_added := by simpa using h.not_added
  not_deleted := by simpa using h.not_deleted
  value := by simp [updates, MapWrite.update?]

/-- A later write to another key. -/
theorem Leaves.other {v₀ : V} (h : Leaves k v₀ ws v) {write : MapWrite K V} (hk : write.key ≠ k) :
    Leaves k v₀ (ws ++ [write]) v where
  not_added v' hmem := by
    rcases List.mem_append.mp hmem with hmem | hmem
    · exact h.not_added v' hmem
    · exact hk (List.mem_singleton.mp hmem ▸ rfl)
  not_deleted hmem := by
    rcases List.mem_append.mp hmem with hmem | hmem
    · exact h.not_deleted hmem
    · exact hk (List.mem_singleton.mp hmem ▸ rfl)
  value := by
    have hnone : updates k [write] = [] := by
      cases write with
      | update k' v' => simp [updates, MapWrite.update?, show k' ≠ k from hk]
      | _ => rfl
    rw [updates_append, hnone, List.append_nil]
    exact h.value

/-- The value is that of the last update, if there is one. -/
theorem Leaves.last {v₀ : V} (h : Leaves k v₀ ws v) :
    (updates k ws).getLast? = some v ∨ v = v₀ ∧ updates k ws = [] := by
  have hvalue := h.value
  rw [List.getLastD_eq_getLast?] at hvalue
  cases hlast : (updates k ws).getLast? with
  | none => exact .inr ⟨by simpa [hlast] using hvalue, List.getLast?_eq_none_iff.mp hlast⟩
  | some last => exact .inl (by simpa [hlast] using hvalue.symm)

/-- **Where a value comes from**: from the last update since the key was added, from
the addition itself, or in the same way from the start. -/
theorem value_of_replay (h : replay m ws k = some v) :
    (∃ before v₀ after, ws = before ++ .add k v₀ :: after ∧ Leaves k v₀ after v) ∨
      ∃ v₀, m k = some v₀ ∧ Leaves k v₀ ws v := by
  induction ws using List.reverseRecOn generalizing v with
  | nil => exact .inr ⟨v, h, .nil k v⟩
  | append_singleton ws write ih =>
      rw [replay_append_singleton] at h
      by_cases hk : write.key = k
      · subst hk
        cases write with
        | add k v' =>
            obtain rfl : v' = v := by simpa [MapWrite.apply, MapWrite.key] using h
            exact .inl ⟨ws, v', [], rfl, .nil k v'⟩
        | update k v' =>
            simp only [MapWrite.apply, MapWrite.key, Function.update_self,
              Option.map_eq_some_iff] at h
            obtain ⟨v₁, h, rfl⟩ := h
            rcases ih h with ⟨before, v₀, after, rfl, hl⟩ | ⟨v₀, hm, hl⟩
            · exact .inl ⟨before, v₀, after ++ [.update k v'], by simp, hl.update v'⟩
            · exact .inr ⟨v₀, hm, hl.update v'⟩
        | delete k => simp [MapWrite.apply, MapWrite.key] at h
      · rw [MapWrite.apply_of_ne hk] at h
        rcases ih h with ⟨before, v₀, after, rfl, hl⟩ | ⟨v₀, hm, hl⟩
        · exact .inl ⟨before, v₀, after ++ [write], by simp, hl.other hk⟩
        · exact .inr ⟨v₀, hm, hl.other hk⟩

end replay
end FirebaseApps.Lib
