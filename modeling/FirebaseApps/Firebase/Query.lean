import FirebaseApps.Firebase.Data
import Mathlib.Data.Bool.Basic
import Mathlib.Data.Int.Order.Basic
import Mathlib.Data.List.Sort
import Mathlib.Data.Prod.Lex
import Mathlib.Data.String.Basic
import Mathlib.Order.Compare

/-!
# Ordered queries

The feeds of two apps are the query `order(by: "datePublished", descending: true)`.  The
SDK compares documents by the value of the field, values of different types by their
type, and equal values by the document id in the same direction; a document without the
field does not match.
-/

namespace FirebaseApps

namespace Value

/-- `GetTypeOrder`. -/
def typeOrder : Value → ℕ
  | .null => 0
  | .boolean _ => 1
  | .number _ => 2
  | .timestamp _ => 3
  | .string _ => 5

/-- `Compare` of two values: by type, then by content. -/
def compare (left right : Value) : Ordering :=
  if left.typeOrder ≠ right.typeOrder then Ord.compare left.typeOrder right.typeOrder
  else
    match left, right with
    | .boolean l, .boolean r => Ord.compare l r
    | .number l, .number r => Ord.compare l r
    | .timestamp l, .timestamp r => Ord.compare l r
    | .string l, .string r => Ord.compare l r
    | _, _ => .eq

/-- A value as a key of a lexicographic order, in which `compare` is the comparison. -/
def sortKey : Value → ℕ ×ₗ Bool ×ₗ ℤ ×ₗ String
  | .null => toLex (0, toLex (false, toLex (0, "")))
  | .boolean b => toLex (1, toLex (b, toLex (0, "")))
  | .number n => toLex (2, toLex (false, toLex (n, "")))
  | .timestamp d => toLex (3, toLex (false, toLex (d, "")))
  | .string s => toLex (5, toLex (false, toLex (0, s)))

theorem sortKey_injective : Function.Injective sortKey := by
  intro v v' h
  cases v <;> cases v' <;> simp_all [sortKey]

/-- Values are ordered as Firestore orders them. -/
instance : LinearOrder Value := LinearOrder.lift' sortKey sortKey_injective

theorem lt_iff {v v' : Value} : v < v' ↔ v.typeOrder < v'.typeOrder ∨
    v.typeOrder = v'.typeOrder ∧ (ofLex v.sortKey).2 < (ofLex v'.sortKey).2 := by
  have hkey : v < v' ↔ v.sortKey < v'.sortKey := Iff.rfl
  have hfst : ∀ v : Value, (ofLex v.sortKey).1 = v.typeOrder := fun v => by cases v <;> rfl
  rw [hkey, Prod.Lex.lt_iff, hfst, hfst]

theorem timestamp_le_timestamp {d d' : Date} : timestamp d ≤ timestamp d' ↔ d ≤ d' := by
  rw [← not_lt, lt_iff]
  simp [typeOrder, sortKey, Prod.Lex.lt_iff]

/-- `compare` is the comparison of this order. -/
theorem compare_eq_lt {v v' : Value} : v.compare v' = .lt ↔ v < v' := by
  rw [lt_iff]
  by_cases htype : v.typeOrder = v'.typeOrder
  · cases v <;> cases v' <;> simp only [typeOrder, reduceCtorEq, Nat.reduceEqDiff] at htype
    all_goals
      simp [compare, typeOrder, sortKey, Prod.Lex.lt_iff, compare_lt_iff_lt]
  · simp [compare, htype, compare_lt_iff_lt]

theorem swap_compare (v v' : Value) : (v.compare v').swap = v'.compare v := by
  by_cases htype : v.typeOrder = v'.typeOrder
  · cases v <;> cases v' <;> simp only [typeOrder, reduceCtorEq, Nat.reduceEqDiff] at htype
    all_goals
      simp [compare, typeOrder, ← Std.OrientedOrd.eq_swap]
  · simp [compare, htype, Ne.symm htype, ← Std.OrientedOrd.eq_swap]

theorem compare_eq_eq {v v' : Value} : v.compare v' = .eq ↔ v = v' := by
  have hgt : v.compare v' = .gt ↔ v' < v := by
    rw [← compare_eq_lt, ← swap_compare v v', Ordering.swap_eq_lt]
  constructor
  · intro heq
    refine le_antisymm (not_lt.mp ?_) (not_lt.mp ?_)
    · rw [← hgt, heq]; decide
    · rw [← compare_eq_lt, heq]; decide
  · rintro rfl
    cases hcase : v.compare v with
    | lt => exact absurd (compare_eq_lt.mp hcase) (lt_irrefl v)
    | eq => rfl
    | gt => exact absurd (hgt.mp hcase) (lt_irrefl v)

end Value

/-! ## The query -/

/-- The comparator of `order(by: field, descending: true)`: `OrderBy::Compare` for the field
and then for the key, which `normalized_order_bys` adds in the same direction.  A matching
document comes with its value of the field. -/
def orderBy (lhs rhs : Value × String × Document) : Ordering :=
  (lhs.1.compare rhs.1).swap.then (compare lhs.2.1 rhs.2.1).swap

/-- No document is after one whose value and id are not smaller. -/
theorem isLE_orderBy {lhs rhs : Value × String × Document} :
    (orderBy lhs rhs).isLE ↔ toLex (rhs.1, rhs.2.1) ≤ toLex (lhs.1, lhs.2.1) := by
  rw [Ordering.isLE_iff_ne_gt, orderBy, Ordering.then_eq_gt, Ordering.swap_eq_gt,
    Ordering.swap_eq_gt, Ordering.swap_eq_eq, Value.compare_eq_lt, Value.compare_eq_eq,
    compare_lt_iff_lt, ← not_lt, Prod.Lex.toLex_lt_toLex]

instance : Std.Total fun lhs rhs => (orderBy lhs rhs).isLE = true where
  total lhs rhs := by
    rw [isLE_orderBy, isLE_orderBy]
    exact le_total _ _

instance : IsTrans (Value × String × Document) fun lhs rhs => (orderBy lhs rhs).isLE = true where
  trans a b c hab hbc := by
    rw [isLE_orderBy] at hab hbc ⊢
    exact hbc.trans hab

namespace Firestore

/-- The documents of a collection that have the field, the greatest value first. -/
def query (fs : Firestore) (collection : Path) (field : String) : List (String × Document) :=
  (((fs.documents collection).filterMap fun d => (d.2 field).map fun v => (v, d)).insertionSort
    fun lhs rhs => (orderBy lhs rhs).isLE = true).map Prod.snd

variable {fs : Firestore} {collection : Path} {field id : String} {doc : Document}

/-- A query lists the documents of its collection that have the field. -/
theorem mem_query : (id, doc) ∈ fs.query collection field ↔
    fs.get (collection ++ [id]) = some doc ∧ (doc field).isSome := by
  simp [query, List.mem_insertionSort, mem_documents, Option.isSome_iff_exists]

/-- The value that a document is listed by. -/
def sortValue (field : String) (doc : Document) : Value := (doc field).getD .null

/-- **A query lists greater values first**, and greater ids among equal values. -/
theorem sorted_query (fs : Firestore) (collection : Path) (field : String) :
    (fs.query collection field).Pairwise fun x y =>
      toLex (sortValue field y.2, y.1) < toLex (sortValue field x.2, x.1) := by
  let matching := (fs.documents collection).filterMap fun d => (d.2 field).map fun v => (v, d)
  have hids : matching.Pairwise fun x y => x.2.1 ≠ y.2.1 := by
    refine List.Pairwise.filterMap _ (fun d d' hne x hx y hy => ?_)
      (List.pairwise_map.mp (fs.nodup_documents collection))
    obtain ⟨v, -, rfl⟩ := Option.map_eq_some_iff.mp hx
    obtain ⟨v', -, rfl⟩ := Option.map_eq_some_iff.mp hy
    exact hne
  have hvalues : ∀ x ∈ matching, sortValue field x.2.2 = x.1 := by
    intro x hx
    obtain ⟨d, -, hd⟩ := List.mem_filterMap.mp hx
    obtain ⟨v, hv, rfl⟩ := Option.map_eq_some_iff.mp hd
    simp [sortValue, hv]
  refine List.pairwise_map.mpr ?_
  have hperm := List.perm_insertionSort (fun lhs rhs => (orderBy lhs rhs).isLE = true) matching
  have hdistinct := (hperm.pairwise_iff (R := fun x y => x.2.1 ≠ y.2.1) Ne.symm).mpr hids
  refine ((List.pairwise_insertionSort (fun lhs rhs => (orderBy lhs rhs).isLE = true)
    matching).and hdistinct).imp_of_mem fun {x y} hx hy hxy => ?_
  rw [hvalues x (hperm.subset hx), hvalues y (hperm.subset hy)]
  refine lt_of_le_of_ne (isLE_orderBy.mp hxy.1) fun heq => hxy.2 ?_
  exact (Prod.mk.inj (toLex_inj.mp heq)).2.symm

/-- A query lists no id twice. -/
theorem distinct_query (fs : Firestore) (collection : Path) (field : String) :
    (fs.query collection field).Pairwise fun x y => x.1 ≠ y.1 := by
  refine (fs.sorted_query collection field).imp_of_mem fun {x y} hx hy hlt hid => ?_
  have hx' := (mem_query.mp hx).1
  rw [hid, (mem_query.mp hy).1] at hx'
  obtain rfl : y = x := Prod.ext hid.symm (Option.some.inj hx')
  exact lt_irrefl _ hlt

/-- **A query of more documents lists what it did before, in the same order.** -/
theorem query_sublist {fs' : Firestore}
    (h : ∀ id doc, fs.get (collection ++ [id]) = some doc →
      fs'.get (collection ++ [id]) = some doc) :
    (fs.query collection field).Sublist (fs'.query collection field) := by
  let before (x y : String × Document) : Prop :=
    toLex (sortValue field y.2, y.1) < toLex (sortValue field x.2, x.1)
  have hasymm : Std.Antisymm before := ⟨fun x y hxy hyx => absurd hxy (lt_asymm hyx)⟩
  have hsorted := fs.sorted_query collection field
  have hnodup : (fs.query collection field).Nodup := hsorted.imp fun hlt heq => by
    rw [heq] at hlt
    exact lt_irrefl _ hlt
  refine List.sublist_of_subperm_of_pairwise (r := before) (List.subperm_of_subset hnodup ?_)
    hsorted (fs'.sorted_query collection field)
  rintro ⟨id, doc⟩ hmem
  obtain ⟨hget, hfield⟩ := mem_query.mp hmem
  exact mem_query.mpr ⟨h id doc hget, hfield⟩

end Firestore
end FirebaseApps
