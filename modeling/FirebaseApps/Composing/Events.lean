import FirebaseApps.Composing.Composer

/-!
# What happens on one screen

Seen from one screen, a run of the screens over the backend is a sequence of events: its
own, taps of the Post control, and what the `addData` calls of its taps do to it.  What holds
of a screen along all such sequences holds of every screen of every run.
-/

namespace FirebaseApps.Composing

variable {C E Out : Type}

/-- What happens on a screen. -/
inductive Event (E Out : Type)
  | edit (event : E)
  /-- A tap of the Post control that calls `addData`. -/
  | tap
  /-- An effect of an `addData` call. -/
  | emit (out : Out)

/-- An event of a screen; a tap is delivered while the control is enabled. -/
def Composer.next (K : Composer C E Out) (c : C) : Event E Out → Option C
  | .edit event => K.edit c event
  | .tap => if K.isEnabled c then (K.post c).map fun posted => posted.2.2 else none
  | .emit out => some (K.emit c out)

variable {K : Composer C E Out} {S : StorageService} {fb : Firebase} {uuids : List UUID}
variable {w w' : World C Out} {action : Action E}

/-- Running code of `addData` does to its screen what its effects do. -/
theorem exec_events (screen other : Screen) (code : Lib.Code Req Ans (Option User) Out)
    (env : Env C) :
    ∃ events, Lib.run K.next (env.composers other) events =
      some (((host K S).exec screen code env).env.composers other) := by
  rw [Lib.Host.exec_env]
  generalize ((host K S).exec screen code env).outs = outs
  induction outs generalizing env with
  | nil => exact ⟨[], rfl⟩
  | cons out outs ih =>
      obtain ⟨events, hevents⟩ := ih ((host K S).emit env screen out)
      by_cases hother : other = screen
      · subst hother
        refine ⟨.emit out :: events, ?_⟩
        rw [Lib.run_cons]
        simpa [Composer.next, host, Env.setComposer] using hevents
      · refine ⟨events, ?_⟩
        simpa [host, Env.setComposer, hother] using hevents

/-- **A screen through a step**: it goes through events, one or more or none. -/
theorem screen_step (hs : step K S w action = some w') (screen : Screen) : ∃ events,
    Lib.run K.next (w.env.composers screen) events = some (w'.env.composers screen) := by
  rcases Lib.World.step_cases hs with ⟨i, tapped, tap, env, rfl, hi, ha, rfl⟩ |
    ⟨i, j, choice, op, r, callback, env, a, rfl, hi, ht, hr, rfl⟩ |
    ⟨i, j, op, code, rfl, hi, ht, rfl⟩ | ⟨a, env, rfl, ha, rfl⟩
  · obtain ⟨-, henabled, c, hpost, rfl⟩ := accept_eq_some ha
    obtain ⟨events, hevents⟩ := exec_events (K := K) (S := S) tapped screen ((host K S).code tap)
      { w.env.setComposer tapped c with uuids := tap.path :: w.env.uuids }
    rw [Lib.World.env_resume]
    by_cases hscreen : screen = tapped
    · subst hscreen
      refine ⟨.tap :: events, ?_⟩
      rw [Lib.run_cons]
      simpa [Composer.next, henabled, hpost, Env.setComposer, Lib.World.opening] using hevents
    · refine ⟨events, ?_⟩
      simpa [Env.setComposer, hscreen, Lib.World.opening] using hevents
  · obtain ⟨firebase, -, rfl⟩ := serve_eq_some hr
    exact ⟨[], rfl⟩
  · exact exec_events op.client screen code w.env
  · cases a with
    | edit edited event =>
        obtain ⟨c, hedit, rfl⟩ := Option.map_eq_some_iff.mp ha
        by_cases hscreen : screen = edited
        · subst hscreen
          refine ⟨[.edit event], ?_⟩
          rw [Lib.run_cons]
          simp [Composer.next, hedit, Env.setComposer]
        · exact ⟨[], by simp [Env.setComposer, hscreen]⟩
    | signIn device user => obtain rfl := Option.some.inj ha; exact ⟨[], rfl⟩
    | signOut device => obtain rfl := Option.some.inj ha; exact ⟨[], rfl⟩
    | thumbnail name =>
        obtain ⟨firebase, -, rfl⟩ := Option.map_eq_some_iff.mp ha
        exact ⟨[], rfl⟩

/-- **The screens of a run go through sequences of events**, from how they open. -/
theorem screen_reachable (h : Reachable K S fb uuids w) (screen : Screen) : ∃ events,
    Lib.run K.next K.initial events = some (w.env.composers screen) := by
  refine h.invariant (P := fun w => ∃ events,
    Lib.run K.next K.initial events = some (w.env.composers screen)) ⟨[], rfl⟩ ?_
  rintro w action w' ⟨events, hevents⟩ hs
  obtain ⟨more, hmore⟩ := screen_step hs screen
  refine ⟨events ++ more, ?_⟩
  rw [Lib.run_append, hevents]
  exact hmore

end FirebaseApps.Composing
