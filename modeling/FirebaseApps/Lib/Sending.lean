import FirebaseApps.Lib.Places
import FirebaseApps.Lib.Settling

/-!
# Requests that are announced

An effect of a `Host` is told to the environment when it happens, and a request only when it
is served.  Where a request shows as soon as it is sent (a local store that lays its own
writes over what the server has sent, say), the environment has to learn of it then.
`Code.announced` is the same code with an effect before each request, that names the
request.  It has the places, the pace and the contract of the code itself.
-/

namespace FirebaseApps.Lib

variable {Choice Req View Out : Type} {Ans : Req → Type}

/-- The code, with each of its requests announced. -/
def Code.announced : Code Req Ans View Out → Code Req Ans View (Out ⊕ Req)
  | .done => .done
  | .call o p => .call (.inl o) p.announced
  | .read k => .read fun v => (k v).announced
  | .request r callback rest =>
      .call (.inr r) (.request r (fun a => (callback a).announced) rest.announced)

/-- A contract lets code announce what it lets it ask. -/
def Contract.announced (K : Contract Req Ans Choice Out) : Contract Req Ans Choice (Out ⊕ Req) where
  asks := K.asks
  reports past
    | .inl o => K.reports past o
    | .inr r => K.asks past r
  reads := K.reads

namespace Code
variable {p : Code Req Ans View Out}

theorem Linear.announced (h : p.Linear) : p.announced.Linear := by
  induction p with
  | done => trivial
  | call o p ih => exact ih h
  | read k ih => exact fun v => ih v (h v)
  | request r callback rest ih =>
      obtain ⟨hcallback, rfl⟩ := h
      exact ⟨fun a => ih a (hcallback a), rfl⟩

theorem Within.announced {n : ℕ} (h : p.Within n) : p.announced.Within n := by
  induction p generalizing n with
  | done => trivial
  | call o p ih => exact ih h
  | read k ih => exact fun v => ih v (h v)
  | request r callback rest ih =>
      obtain ⟨rfl, m, hm, hcallback⟩ := h
      exact ⟨rfl, m, hm, fun a => ih a (hcallback a)⟩

theorem Meets.announced {V : (r : Req) → Choice → Ans r → Prop} {W : View → Prop}
    {K : Contract Req Ans Choice Out} {past : List (Event Req Ans Choice)}
    (h : p.Meets V W K past) : p.announced.Meets V W K.announced past := by
  induction p generalizing past with
  | done => trivial
  | call o p ih => exact ⟨h.1, ih h.2⟩
  | read k ih => exact ⟨h.1, fun v hv => ih v (h.2 v hv)⟩
  | request r callback rest ih ihrest =>
      obtain ⟨hasks, hcallback, hrest⟩ := h
      exact ⟨hasks, hasks, fun choice a ha => ih a (hcallback choice a ha), ihrest hrest⟩

end Code
end FirebaseApps.Lib
