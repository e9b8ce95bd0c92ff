import FirebaseApps.Lib.Places
import FirebaseApps.Lib.Run

/-!
# Code under any answers

How a call ends may depend on every answer it gets.  `Host.any` runs calls against a
backend that can answer each request with anything, once, while the variables that the
code reads change freely; what holds of a finished call there holds whatever the backend
is.  Code whose variables or effects are a part of larger ones is embedded with
`Code.map`.
-/

namespace FirebaseApps.Lib

variable {Call Req View View' Out Out' Choice : Type} {Ans : Req → Type}

/-- Calls over a backend that answers each request with what the step names.  The
environment is the variables that the code reads, and takes any value at any time. -/
def Host.any [DecidableEq Req] (code : Call → Code Req Ans View Out) :
    Host View Unit Call View (Sigma Ans) Req Ans View Out where
  view env _ := env
  emit env _ _ := env
  serve env _ r choice := if h : choice.1 = r then some (env, h ▸ choice.2) else none
  accept env _ _ := some env
  code := code
  act _ view := some view

namespace Code

/-- Code as part of a larger program: it reads some of the variables, and its effects
are some of the effects. -/
def map (f : View' → View) (g : Out → Out') : Code Req Ans View Out → Code Req Ans View' Out'
  | done => done
  | call o p => call (g o) (p.map f g)
  | read k => read fun v => (k (f v)).map f g
  | request r callback rest => request r (fun a => (callback a).map f g) (rest.map f g)

variable {f : View' → View} {g : Out → Out'} {V : (r : Req) → Choice → Ans r → Prop}

theorem Linear.map {p : Code Req Ans View Out} (h : p.Linear) : (p.map f g).Linear := by
  induction p with
  | done => trivial
  | call o p ih => exact ih h
  | read k ih => exact fun v => ih (f v) (h (f v))
  | request r callback rest ih =>
      obtain ⟨hcallback, rfl⟩ := h
      exact ⟨fun a => ih a (hcallback a), rfl⟩

/-- Embedded code comes to its end as the code itself does. -/
theorem At.of_map {p : Code Req Ans View Out} {history : List (Event Req Ans Choice)}
    {outs' : List Out'} (h : (p.map f g).At V (fun _ => True) history outs' []) :
    ∃ outs, outs' = outs.map g ∧ p.At V (fun _ => True) history outs [] := by
  induction p generalizing history outs' with
  | done =>
      obtain ⟨rfl, rfl, -⟩ := h
      exact ⟨[], rfl, rfl, rfl, rfl⟩
  | call o p ih =>
      obtain ⟨rest', rfl, h⟩ := h
      obtain ⟨rest, rfl, hp⟩ := ih h
      exact ⟨o :: rest, rfl, rest, rfl, hp⟩
  | read k ih =>
      obtain ⟨v, -, h⟩ := h
      obtain ⟨outs, rfl, hp⟩ := ih (f v) h
      exact ⟨outs, rfl, f v, trivial, hp⟩
  | request r callback rest ih =>
      obtain ⟨choice, a, history', ha, rfl, hcallback⟩ := At.request_finished h
      obtain ⟨outs, houts, hp⟩ := ih a hcallback
      exact ⟨outs, houts, .inr ⟨choice, a, ha, .inr ⟨history', rfl, hp⟩⟩⟩

end Code
end FirebaseApps.Lib
