import Mathlib.Data.Option.Basic
import Mathlib.Data.List.Basic

/-!
# Runs of a labelled step function

A system is a partial step function `step : S → A → Option S`: the action names
everything that is not determined by the state, so a run is a list of actions
and can be evaluated.  This file has the three ways a property of runs is stated
and the induction rule for each.

## Main definitions

* `run step s as` — the state after the actions `as`, if all of them are enabled.
* `Reachable step s₀ s` — some run leads from `s₀` to `s`.
* `Always step P s as` — every state met along the run satisfies `P`.
* `StepsMeet step R s as` — every step taken along the run satisfies `R`.
-/

namespace FirebaseApps.Lib

variable {S A : Type} {step : S → A → Option S}

/-- The state after a list of actions; `none` when one of them is not enabled. -/
def run (step : S → A → Option S) (s : S) (as : List A) : Option S := as.foldlM step s

@[simp] theorem run_nil (s : S) : run step s [] = some s := rfl

@[simp] theorem run_cons (s : S) (a : A) (as : List A) :
    run step s (a :: as) = (step s a).bind fun s' => run step s' as := by
  simp [run]

theorem run_append (s : S) (as bs : List A) :
    run step s (as ++ bs) = (run step s as).bind fun s' => run step s' bs := by
  simp [run, List.foldlM_append]

/-- Some run leads from `s₀` to `s`. -/
def Reachable (step : S → A → Option S) (s₀ s : S) : Prop :=
  ∃ as, run step s₀ as = some s

/-- A property kept by the steps of a run survives it. -/
theorem run_invariant_of_mem {P : S → Prop} {as : List A} :
    ∀ {s s' : S}, (∀ s, ∀ a ∈ as, ∀ s', P s → step s a = some s' → P s') → P s →
      run step s as = some s' → P s' := by
  induction as with
  | nil =>
      intro s s' _ hs h
      obtain rfl : s = s' := by simpa using h
      exact hs
  | cons a as ih =>
      intro s s' hstep hs h
      rw [run_cons, Option.bind_eq_some_iff] at h
      obtain ⟨t, ht, h⟩ := h
      exact ih (fun s b hb => hstep s b (List.mem_cons_of_mem a hb))
        (hstep s a List.mem_cons_self t hs ht) h

/-- A property kept by every step survives a run. -/
theorem run_invariant {P : S → Prop}
    (hstep : ∀ s a s', P s → step s a = some s' → P s') {as : List A} {s s' : S} (hs : P s)
    (h : run step s as = some s') : P s' :=
  run_invariant_of_mem (fun s a _ s' => hstep s a s') hs h

/-- **The invariant rule.**  What holds at the start and is kept by every step
holds in every reachable state. -/
theorem Reachable.invariant {P : S → Prop} {s₀ s : S} (h : Reachable step s₀ s) (h₀ : P s₀)
    (hstep : ∀ s a s', P s → step s a = some s' → P s') : P s := by
  obtain ⟨as, has⟩ := h
  exact run_invariant hstep h₀ has

theorem Reachable.next {s₀ s s' : S} {a : A} (h : Reachable step s₀ s) (hs : step s a = some s') :
    Reachable step s₀ s' := by
  obtain ⟨as, has⟩ := h
  refine ⟨as ++ [a], ?_⟩
  rw [run_append, has, Option.bind_some, run_cons, hs, Option.bind_some, run_nil]

/-- **The projection rule.**  A system that is laid over another one, and whose steps are steps
of it or leave it alone, reaches only states over states that the other one reaches. -/
theorem Reachable.project {T B : Type} {step' : T → B → Option T} (proj : T → S) {t₀ t : T}
    (hstep : ∀ t b t', step' t b = some t' →
      proj t' = proj t ∨ ∃ a, step (proj t) a = some (proj t'))
    (h : Reachable step' t₀ t) : Reachable step (proj t₀) (proj t) := by
  refine h.invariant (P := fun t => Reachable step (proj t₀) (proj t)) ⟨[], rfl⟩ ?_
  intro t b t' hreach hs
  rcases hstep t b t' hs with heq | ⟨a, ha⟩
  · exact heq ▸ hreach
  · exact hreach.next ha

/-- **The simulation rule.**  A second description that follows each action of a run, and
stays related to the state at each, is related to the state the run ends in. -/
theorem run_simulates_of_mem {B : Type} {R : S → B → Prop} {f : B → A → B} {as : List A} :
    ∀ {s s' : S} {b : B},
      (∀ s b, ∀ a ∈ as, ∀ s', R s b → step s a = some s' → R s' (f b a)) → R s b →
        run step s as = some s' → R s' (as.foldl f b) := by
  induction as with
  | nil =>
      intro s s' b _ hs h
      obtain rfl : s = s' := by simpa using h
      exact hs
  | cons a as ih =>
      intro s s' b hstep hs h
      rw [run_cons, Option.bind_eq_some_iff] at h
      obtain ⟨t, ht, h⟩ := h
      exact ih (fun s b c hc => hstep s b c (List.mem_cons_of_mem a hc))
        (hstep s b a List.mem_cons_self t hs ht) h

/-- The simulation rule, where each action is followed from any state. -/
theorem run_simulates {B : Type} {R : S → B → Prop} {f : B → A → B}
    (hstep : ∀ s b a s', R s b → step s a = some s' → R s' (f b a)) {as : List A} {s s' : S}
    {b : B} (hs : R s b) (h : run step s as = some s') : R s' (as.foldl f b) :=
  run_simulates_of_mem (fun s b a _ s' => hstep s b a s') hs h

/-- **The rule of the fold.**  What is observed of a state follows the actions of a run, when
it follows each action. -/
theorem run_foldl {B : Type} {v : S → B} {f : B → A → B}
    (hstep : ∀ s a s', step s a = some s' → v s' = f (v s) a) {as : List A} {s s' : S}
    (h : run step s as = some s') : v s' = as.foldl f (v s) :=
  run_simulates (R := fun s b => v s = b) (fun s _ a s' hb hs => hb ▸ hstep s a s' hs) rfl h

/-- Every state met along a run, the first one included, satisfies `P`. -/
def Always (step : S → A → Option S) (P : S → Prop) : S → List A → Prop
  | s, [] => P s
  | s, a :: as => P s ∧ ∀ s', step s a = some s' → Always step P s' as

/-- Every step taken along a run satisfies `R`. -/
def StepsMeet (step : S → A → Option S) (R : S → A → S → Prop) : S → List A → Prop
  | _, [] => True
  | s, a :: as => ∀ s', step s a = some s' → R s a s' ∧ StepsMeet step R s' as

instance StepsMeet.decidable {R : S → A → S → Prop} [∀ s a s', Decidable (R s a s')] :
    ∀ (s : S) (as : List A), Decidable (StepsMeet step R s as)
  | _, [] => isTrue trivial
  | s, a :: as =>
    match h : step s a with
    | none => isTrue fun s' hs => by simp [h] at hs
    | some t =>
      have := StepsMeet.decidable (R := R) t as
      decidable_of_iff (R s a t ∧ StepsMeet step R t as)
        ⟨fun hm s' hs => by obtain rfl : t = s' := by simpa [h] using hs
                            exact hm,
          fun hm => hm t h⟩

theorem stepsMeet_of_forall {R : S → A → S → Prop} (h : ∀ s a s', R s a s') (s : S) (as : List A) :
    StepsMeet step R s as := by
  induction as generalizing s with
  | nil => trivial
  | cons a as ih => exact fun s' _ => ⟨h s a s', ih s'⟩

theorem StepsMeet.mono {R R' : S → A → S → Prop} (h : ∀ s a s', R s a s' → R' s a s') :
    ∀ {as : List A} {s : S}, StepsMeet step R s as → StepsMeet step R' s as := by
  intro as
  induction as with
  | nil => exact fun _ => trivial
  | cons a as ih => exact fun hR s' hs => ⟨h _ a s' (hR s' hs).1, ih (hR s' hs).2⟩

/-- What holds always along a run holds in the state the run ends in. -/
theorem Always.last {P : S → Prop} :
    ∀ {as : List A} {s s' : S}, Always step P s as → run step s as = some s' → P s' := by
  intro as
  induction as with
  | nil =>
      intro s s' h hrun
      obtain rfl : s = s' := by simpa using hrun
      exact h
  | cons a as ih =>
      intro s s' h hrun
      rw [run_cons, Option.bind_eq_some_iff] at hrun
      obtain ⟨t, ht, hrun⟩ := hrun
      exact ih (h.2 t ht) hrun

theorem Always.mono {P Q : S → Prop} (h : ∀ s, P s → Q s) :
    ∀ {as : List A} {s : S}, Always step P s as → Always step Q s as := by
  intro as
  induction as with
  | nil => intro s hp; exact h s hp
  | cons a as ih => intro s hp; exact ⟨h s hp.1, fun s' hs => ih (hp.2 s' hs)⟩

/-- **The guarded rule.**  When every step of the run meets `R`, a property that
the steps meeting `R` keep holds in every state of the run.  `I` is an invariant
of all steps that the argument may use. -/
theorem always_of_stepsMeet {I P : S → Prop} {R : S → A → S → Prop}
    (hI : ∀ s a s', I s → step s a = some s' → I s')
    (hP : ∀ s a s', I s → P s → R s a s' → step s a = some s' → P s') :
    ∀ {as : List A} {s : S}, I s → P s → StepsMeet step R s as → Always step P s as := by
  intro as
  induction as with
  | nil => intro s _ hp _; exact hp
  | cons a as ih =>
      intro s hi hp h
      refine ⟨hp, fun s' hs => ?_⟩
      obtain ⟨hR, hrest⟩ := h s' hs
      exact ih (hI s a s' hi hs) (hP s a s' hi hp hR hs) hrest

/-- **The exact rule.**  When a step from a good state leads to a good state if
and only if it meets `R`, all states of a run are good if and only if all its
steps meet `R`. -/
theorem always_iff_stepsMeet {I P : S → Prop} {R : S → A → S → Prop}
    (hI : ∀ s a s', I s → step s a = some s' → I s')
    (hiff : ∀ s a s', I s → P s → step s a = some s' → (P s' ↔ R s a s')) :
    ∀ {as : List A} {s : S}, I s → P s → (Always step P s as ↔ StepsMeet step R s as) := by
  intro as
  induction as with
  | nil => intro s _ hp; exact ⟨fun _ => trivial, fun _ => hp⟩
  | cons a as ih =>
      intro s hi hp
      constructor
      · intro h s' hs
        have hp' : P s' := by
          have htail := h.2 s' hs
          cases as with
          | nil => exact htail
          | cons b bs => exact htail.1
        exact ⟨(hiff s a s' hi hp hs).mp hp', (ih (hI s a s' hi hs) hp').mp (h.2 s' hs)⟩
      · intro h
        refine ⟨hp, fun s' hs => ?_⟩
        obtain ⟨hR, hrest⟩ := h s' hs
        exact (ih (hI s a s' hi hs) ((hiff s a s' hi hp hs).mpr hR)).mpr hrest

end FirebaseApps.Lib
