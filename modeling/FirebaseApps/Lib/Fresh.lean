import FirebaseApps.Lib.Callback
import Mathlib.Data.Set.Card

/-!
# Names that operations draw

An operation may draw a name that no one had before: at its call (a UUID, a nonce)
or from the backend (the id of a new document).  The environment keeps the list of
names drawn.  `Own` says that every name of an operation is on the list and belongs
to no other operation; `Own.step` keeps it, given what the step may draw.

There is one rule for the names of calls (`Own.step_call`) and one for the names that the
backend draws (`Own.step_served`).
-/

namespace FirebaseApps.Lib.World

variable {Env Client Call Act Choice Req View Out N : Type} {Ans : Req → Type}
variable {H : Host Env Client Call Act Choice Req Ans View Out}
variable {w w' : World Env Client Call Choice Req Ans View Out}

/-- Every name of an operation has been drawn, by that operation alone. -/
structure Own (names : Op Client Call Choice Req Ans View Out → N → Prop) (drawn : Env → List N)
    (w : World Env Client Call Choice Req Ans View Out) : Prop where
  mem : ∀ i op n, w.ops i = some op → names op n → n ∈ drawn w.env
  inj : ∀ i j op op' n, w.ops i = some op → w.ops j = some op' → names op n → names op' n → i = j

variable {names : Op Client Call Choice Req Ans View Out → N → Prop} {drawn : Env → List N}

theorem own_initial (env : Env) :
    Own names drawn (initial env : World Env Client Call Choice Req Ans View Out) where
  mem i op n h := by cases h
  inj i j op op' n h := by cases h

/-- **Names through a step.**  A name is an old one of its operation, or a fresh one
of the operation that the action is about. -/
theorem Own.step (action : Action Client Call Act Choice) (h : Own names drawn w)
    (hdrawn : ∀ n ∈ drawn w.env, n ∈ drawn w'.env)
    (hnew : ∀ k op' n, w'.ops k = some op' → names op' n →
      (∃ op, w.ops k = some op ∧ names op n) ∨
      (action.op? = some k ∧ n ∉ drawn w.env ∧ n ∈ drawn w'.env)) : Own names drawn w' where
  mem i op n hop hn := by
    rcases hnew i op n hop hn with ⟨op₀, hop₀, hn₀⟩ | ⟨-, -, hmem⟩
    · exact hdrawn n (h.mem i op₀ n hop₀ hn₀)
    · exact hmem
  inj i j op op' n hop hop' hn hn' := by
    rcases hnew i op n hop hn with ⟨op₀, hop₀, hn₀⟩ | ⟨hi, hfresh, -⟩
    · rcases hnew j op' n hop' hn' with ⟨op₁, hop₁, hn₁⟩ | ⟨-, hfresh, -⟩
      · exact h.inj i j op₀ op₁ n hop₀ hop₁ hn₀ hn₁
      · exact absurd (h.mem i op₀ n hop₀ hn₀) hfresh
    · rcases hnew j op' n hop' hn' with ⟨op₁, hop₁, hn₁⟩ | ⟨hj, -, -⟩
      · exact absurd (h.mem j op₁ n hop₁ hn₁) hfresh
      · exact Option.some.inj (hi.symm.trans hj)

/-- Names that calls draw when they are made. -/
theorem Own.step_call (name? : Call → Option N) {action : Action Client Call Act Choice}
    (h : Own (fun op n => name? op.call = some n) drawn w)
    (hs : w.step H action = some w') (hdrawn : ∀ n ∈ drawn w.env, n ∈ drawn w'.env)
    (haccept : ∀ c call env n, H.accept w.env c call = some env → name? call = some n →
      n ∉ drawn w.env ∧ n ∈ drawn (H.exec c (H.code call) env).env) :
    Own (fun op n => name? op.call = some n) drawn w' := by
  refine h.step action hdrawn fun k op' n hop' hn => ?_
  rcases World.op_of_step hs hop' with ⟨env, rfl, -, ha, henv, -⟩ | ⟨op, hop, hfol⟩
  · obtain ⟨hfresh, hmem⟩ := haccept _ _ env n ha hn
    exact .inr ⟨rfl, hfresh, by rwa [henv]⟩
  · exact .inl ⟨op, hop, by rwa [← hfol.call]⟩

/-- Names that the backend draws when it serves a request. -/
theorem Own.step_served (name? : Event Req Ans Choice → Option N)
    {action : Action Client Call Act Choice}
    (h : Own (fun op n => ∃ e ∈ op.history, name? e = some n) drawn w)
    (hs : w.step H action = some w') (hdrawn : ∀ n ∈ drawn w.env, n ∈ drawn w'.env)
    (hserve : ∀ c r choice env a n, H.serve w.env c r choice = some (env, a) →
      name? ⟨r, choice, a⟩ = some n → n ∉ drawn w.env ∧ n ∈ drawn env) :
    Own (fun op n => ∃ e ∈ op.history, name? e = some n) drawn w' := by
  refine h.step action hdrawn ?_
  rintro k op' n hop' ⟨e, he, hn⟩
  obtain ⟨op, hop, -, he | ⟨j, rfl, hr⟩⟩ := World.event_of_step hs hop' he
  · exact .inl ⟨op, hop, e, he, hn⟩
  · exact .inr ⟨rfl, hserve _ _ _ _ _ n hr hn⟩

/-! ## Counting -/

/-- Operations that have one name each have as many names as they are. -/
theorem Own.encard_names (h : Own names drawn w) {I : Set ℕ}
    (hone : ∀ i ∈ I, ∃ op n, w.ops i = some op ∧ ∀ m, names op m ↔ m = n) :
    {n | ∃ i ∈ I, ∃ op, w.ops i = some op ∧ names op n}.encard = I.encard := by
  have howner : ∀ n ∈ {n | ∃ i ∈ I, ∃ op, w.ops i = some op ∧ names op n}, ∃ i ∈ I,
      ∃ op, w.ops i = some op ∧ names op n := fun n hn => hn
  choose! owner howner hop using howner
  have himage : owner '' {n | ∃ i ∈ I, ∃ op, w.ops i = some op ∧ names op n} = I := by
    refine Set.Subset.antisymm ?_ fun i hi => ?_
    · rintro _ ⟨n, hn, rfl⟩
      exact howner n hn
    · obtain ⟨op, n, hi', hname⟩ := hone i hi
      have hn : names op n := (hname n).mpr rfl
      have hmem : ∃ i ∈ I, ∃ op, w.ops i = some op ∧ names op n := ⟨i, hi, op, hi', hn⟩
      obtain ⟨op', hop', hn'⟩ := hop n hmem
      exact ⟨n, hmem, h.inj _ _ op' op n hop' hi' hn' hn⟩
  refine (Set.InjOn.encard_image fun n hn m hm heq => ?_).symm.trans (congrArg Set.encard himage)
  obtain ⟨op, hop₁, hn₁⟩ := hop n hn
  obtain ⟨op', hop₂, hm₂⟩ := hop m hm
  rw [heq] at hop₁
  obtain rfl : op = op' := Option.some.inj (hop₁.symm.trans hop₂)
  obtain ⟨op₀, k, hop₀, hname⟩ := hone _ (howner m hm)
  obtain rfl : op₀ = op := Option.some.inj (hop₀.symm.trans hop₂)
  exact ((hname n).mp hn₁).trans ((hname m).mp hm₂).symm

/-- A step starts at most one operation. -/
theorem finite_step {action : Action Client Call Act Choice}
    (h : {i | (w.ops i).isSome}.Finite) (hs : w.step H action = some w') :
    {i | (w'.ops i).isSome}.Finite := by
  refine (h.union (Set.finite_singleton (action.op?.getD 0))).subset fun k hk => ?_
  obtain ⟨op', hop'⟩ := Option.isSome_iff_exists.mp hk
  rcases World.op_of_step hs hop' with ⟨env, rfl, -⟩ | ⟨op, hop, -⟩
  · exact .inr rfl
  · exact .inl (Option.isSome_iff_exists.mpr ⟨op, hop⟩)

end FirebaseApps.Lib.World
