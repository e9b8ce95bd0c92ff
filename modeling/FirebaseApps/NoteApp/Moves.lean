import FirebaseApps.NoteApp.System
import Mathlib.Logic.Relation

/-!
# NoteApp: what a step does to the environment

A call may use the lazy reference, register a listener or sign out; an act delivers an
auth state or a snapshot.  A step either serves a request or makes a sequence of these
moves, so an invariant of the environment is checked against the moves and against
the backend, never against the code.
-/

namespace FirebaseApps.NoteApp

open Relation (ReflTransGen)

variable {S : StorageService} {w w' : World} {env env' : Env} {device : Device} {action : Action}

/-- A change of the environment that serves no request. -/
inductive Move (env : Env) : Env → Prop
  /-- A view model uses its `databaseReference`. -/
  | load {d m} (hlive : env.screens.live d = some m) : Move env (env.load d)
  | listen {d m collection} (hlive : env.screens.live d = some m)
      (hcached : (env.screens.viewModels m).databaseReference = some (some collection)) :
      Move env { env with listeners := env.listeners ++ [⟨d, m, collection⟩] }
  | signOut {d} : Move env { env with firebase := env.firebase.signedIn d none }
  | listenToAuthState {d n} :
      Move env { env with authListeners := Function.update env.authListeners d n }
  | authState {d} :
      Move env { env with screens := env.screens.setUser d (env.firebase.currentUser d) }
  | takeSnapshot {l} (hl : l ∈ env.listeners) :
      Move env { env with
        snapshots := env.snapshots ++ [⟨l.viewModel, l.collection, env.firebase.firestore⟩] }
  | deliver {s hm} (hs : s ∈ env.snapshots) :
      Move env { env with
        screens := env.screens.setViewModel s.viewModel hm
          ((env.screens.viewModels s.viewModel).receive (some s.documents)) }
  | listenerError {d collection} : Move env (env.removeListeners d collection)

/-- No move touches the documents. -/
theorem Move.firestore (h : Move env env') : env'.firebase.firestore = env.firebase.firestore := by
  cases h with
  | load hlive => simp
  | _ => rfl

/-! ## Note calls -/

/-- What a note call uses, and the moves it makes. -/
structure NoteEffect (env : Env) (device : Device) (e : Lib.Effect Env Req Ans View Out) :
    Prop where
  moves : ReflTransGen Move env e.env
  listens : ∀ c ∈ e.outs.filterMap Out.collection?, env.reference device = some c
  sends : ∀ c ∈ e.requests.filterMap collection?, env.reference device = some c

theorem NoteEffect.done : NoteEffect env device ⟨env, [], []⟩ :=
  ⟨.refl, by simp, by simp [Lib.Effect.requests]⟩

/-- A use of the reference, and what is done with it. -/
theorem NoteEffect.use {m : ℕ} (hlive : env.screens.live device = some m)
    {k : Option Path → Code}
    (h : NoteEffect (env.load device) device
      ((host S).exec device (k (env.reference device)) (env.load device))) :
    NoteEffect env device ((host S).exec device (NoteViewModel.useDatabaseReference k) env) := by
  obtain ⟨loads, hloads, heq⟩ := exec_useDatabaseReference (S := S) k env device
  rw [heq]
  obtain ⟨hmoves, hlistens, hsends⟩ := h
  rw [env.reference_load hlive] at hlistens hsends
  exact ⟨.head (.load hlive) hmoves,
    by simpa [List.filterMap_append, hloads] using hlistens, hsends⟩

/-- Sending one request to the collection. -/
theorem NoteEffect.request {r : Req} {callback : Ans r → Code} {rest : Code} {collection : Path}
    (hreference : env.reference device = some collection) (hr : collection? r = some collection)
    (h : NoteEffect env device ((host S).exec device rest env)) :
    NoteEffect env device ((host S).exec device (.request r callback rest) env) := by
  refine ⟨h.moves, h.listens, fun c hc => ?_⟩
  rw [Lib.Host.requests_exec_request, List.filterMap_cons_some hr] at hc
  rcases List.mem_cons.mp hc with rfl | hc
  · exact hreference
  · exact h.sends c hc

theorem NoteEffect.deleteEach {m : ℕ} (hlive : env.screens.live device = some m)
    (indices : List ℕ) :
    NoteEffect env device ((host S).exec device (NoteViewModel.deleteEach indices) env) := by
  induction indices generalizing env with
  | nil => exact .done
  | cons index indices ih =>
      rw [NoteViewModel.deleteEach, Lib.Host.exec]
      cases hnote : ((host S).view env device).viewModel.notes[index]? with
      | none => exact .done
      | some note =>
          refine .use hlive ?_
          have hlive' : (env.load device).screens.live device = some m := by simpa using hlive
          cases hreference : env.reference device with
          | none => exact ih hlive'
          | some collection =>
              exact .request ((env.reference_load hlive).trans hreference) (by simp [collection?])
                (ih hlive')

theorem accept_eq {call : Call} (h : env.accept device call = some env') : env' = env := by
  cases call <;>
    simp only [Env.accept, Option.ite_none_right_eq_some, Option.some.injEq] at h
  case fetchData | addData | updateData | deleteData => exact h.2.symm
  all_goals exact h.symm

/-- Note calls need a note list on the screen. -/
theorem live_of_accept {call : Call} (hcall : call.isNote)
    (h : env.accept device call = some env') : ∃ m, env.screens.live device = some m := by
  cases call with
  | deleteData indexSet =>
      simp only [Env.accept, Option.ite_none_right_eq_some] at h
      exact Option.isSome_iff_exists.mp h.1.1
  | fetchData | addData title | updateData title id =>
      simp only [Env.accept, Option.ite_none_right_eq_some] at h
      exact Option.isSome_iff_exists.mp h.1
  | _ => cases hcall

/-- **Note calls use the reference of their view model** and nothing else. -/
theorem exec_note {call : Call} (hcall : call.isNote)
    (h : env.accept device call = some env') :
    NoteEffect env' device ((host S).exec device call.code env') := by
  obtain ⟨m, hlive⟩ := live_of_accept hcall h
  obtain rfl := accept_eq h
  have hlive' : (env'.load device).screens.live device = some m := by simpa using hlive
  have hreference := env'.reference_load hlive
  cases call with
  | fetchData =>
      refine .use hlive ?_
      cases hcached : env'.reference device with
      | none => exact .done
      | some collection =>
          refine ⟨.single ?_, by simp [Lib.Host.exec, Out.collection?, hreference, hcached], by
            simp [Lib.Host.exec, Lib.Effect.requests]⟩
          have hmove : Move _ _ := .listen hlive' (by
            rw [← Screens.viewModel_of_live _ hlive', env'.viewModel_load hlive, hcached])
          simpa [Lib.Host.exec, host, Env.emit, hlive'] using hmove
  | addData title =>
      refine .use hlive ?_
      cases hcached : env'.reference device with
      | none => exact .done
      | some collection => exact .request (hreference.trans hcached) rfl .done
  | updateData title id =>
      refine .use hlive ?_
      cases hcached : env'.reference device with
      | none => exact .done
      | some collection =>
          exact .request (hreference.trans hcached) (by simp [collection?]) .done
  | deleteData indexSet => exact .deleteEach hlive _
  | _ => cases hcall

/-- The request of `addData`. -/
theorem requests_addData {c : Path} (h : env.reference device = some c) (title : String) :
    ((host S).exec device (NoteViewModel.addData title) env).requests =
      [.addDocument c (titleField title)] := by
  obtain ⟨loads, -, heq⟩ := exec_useDatabaseReference (S := S) _ env device
  rw [NoteViewModel.addData, heq, h]
  rfl

/-- The requests of `deleteEach`, for indices within the notes. -/
theorem requests_deleteEach {m : ℕ} (hlive : env.screens.live device = some m) {collection : Path}
    (hreference : env.reference device = some collection) (indices : List ℕ)
    (hrange : ∀ index ∈ indices, index < (env.screens.viewModel device).notes.length) :
    ((host S).exec device (NoteViewModel.deleteEach indices) env).requests =
      indices.map fun index => .deleteDocument
        (collection ++ [((env.screens.viewModel device).notes[index]?.bind Note.id).getD ""]) := by
  induction indices generalizing env with
  | nil => rfl
  | cons index indices ih =>
      have hlive' : (env.load device).screens.live device = some m := by simpa using hlive
      have hnotes : ((env.load device).screens.viewModel device).notes =
          (env.screens.viewModel device).notes := by rw [env.viewModel_load hlive]
      have hnote := List.getElem?_eq_getElem (hrange index List.mem_cons_self)
      have hrest := ih hlive' ((env.reference_load hlive).trans hreference) (by
        intro k hk
        rw [hnotes]
        exact hrange k (List.mem_cons_of_mem _ hk))
      rw [NoteViewModel.deleteEach, Lib.Host.exec]
      have hview : ((host S).view env device).viewModel = env.screens.viewModel device := rfl
      simp only [hview, hnote]
      obtain ⟨loads, -, heq⟩ := exec_useDatabaseReference (S := S) _ env device
      rw [heq, hreference, Lib.Effect.requests]
      rw [hnotes] at hrest
      rw [List.map_cons, ← hrest, hnote]
      rfl

/-! ## Steps -/

/-- The moves of a call. -/
theorem moves_start {call : Call} (h : env.accept device call = some env') :
    ReflTransGen Move env ((host S).exec device call.code env').env := by
  obtain rfl := accept_eq h
  by_cases hcall : call.isNote
  · exact (exec_note hcall h).moves
  · cases call with
    | listenToAuthState => exact .single .listenToAuthState
    | signIn email password => exact .refl
    | signUp email password => exact .refl
    | signOut => exact .single .signOut
    | _ => exact absurd rfl hcall

/-- A delivery of an error changes nothing. -/
theorem receive_none {m : ℕ} (h : env.receive m none = some env') : env' = env := by
  unfold Env.receive at h
  split at h
  next hm =>
    obtain rfl := Option.some.inj h
    simp [NoteViewModel.receive, Screens.setViewModel]
  next => cases h

theorem moves_act {a : Act} (h : env.act a = some env') : ReflTransGen Move env env' := by
  cases a with
  | authState device =>
      simp only [Env.act, Option.ite_none_left_eq_some, Option.some.injEq] at h
      obtain ⟨-, rfl⟩ := h
      exact .single .authState
  | takeSnapshot listener =>
      obtain ⟨l, hl, rfl⟩ := Option.map_eq_some_iff.mp h
      exact .single (.takeSnapshot (List.mem_of_getElem? hl))
  | deliverSnapshot snapshot =>
      obtain ⟨s, hs, h⟩ := Option.bind_eq_some_iff.mp h
      unfold Env.receive at h
      split at h
      next hm =>
        obtain rfl := Option.some.inj h
        exact .single (.deliver (List.mem_of_getElem? hs))
      next => cases h
  | listenerError listener =>
      obtain ⟨l, -, h⟩ := Option.bind_eq_some_iff.mp h
      obtain ⟨env, hreceive, rfl⟩ := Option.map_eq_some_iff.mp h
      obtain rfl := receive_none hreceive
      exact .single .listenerError

/-- The requests of a run are those of its calls. -/
structure Calls (w : World) : Prop where
  accounted : Lib.World.Accounted w
  asked : Lib.World.Asked Asks w

theorem calls_initial (fb : Firebase) : Calls (initial fb) :=
  ⟨Lib.World.accounted_initial _, Lib.World.asked_initial _⟩

theorem Calls.step (h : Calls w) (hs : NoteApp.step S w action = some w') : Calls w' :=
  ⟨h.accounted.step hs, h.asked.step Call.sends_code hs⟩

/-- A step that serves a request: the request, and what the backend did. -/
structure Served (S : StorageService) (w w' : World) (i : ℕ) (op : Op) (r : Req)
    (choice : Choice) (a : Ans r) (firebase : Firebase) : Prop where
  op_eq : w.ops i = some op
  asks : Asks op.call r
  serve : w.env.firebase.serve S op.client r choice = some (firebase, a)
  env_eq : w'.env = { w.env with firebase := firebase }
  log_eq : w'.log = w.log ++ [⟨i, op.call, ⟨r, choice, a⟩⟩]

/-- **What one step does to the environment**: it serves one request, or it makes
some moves. -/
theorem env_step (hasked : Lib.World.Asked Asks w) (hs : step S w action = some w') :
    (∃ i j choice op r a firebase, action = .serve i j choice ∧
      Served S w w' i op r choice a firebase) ∨
    ((∀ i j choice, action ≠ .serve i j choice) ∧ ReflTransGen Move w.env w'.env ∧
      w'.log = w.log) := by
  rcases Lib.World.step_cases hs with ⟨i, device, call, env, rfl, hi, ha, rfl⟩ |
    ⟨i, j, choice, op, r, callback, env, a, rfl, hi, ht, hr, rfl⟩ |
    ⟨i, j, op, code, rfl, hi, ht, rfl⟩ | ⟨a, env, rfl, ha, rfl⟩
  · exact .inr ⟨by simp, moves_start ha, rfl⟩
  · obtain ⟨firebase, hserve, rfl⟩ := serve_eq_some hr
    exact .inl ⟨i, j, choice, op, r, a, firebase, rfl, hi,
      (hasked i op hi _ (List.mem_of_getElem? ht)).1, hserve, rfl, rfl⟩
  · have hsilent : code.Silent (Asks op.call) := hasked i op hi _ (List.mem_of_getElem? ht)
    refine .inr ⟨by simp, ?_, rfl⟩
    rw [Lib.World.env_resume, hsilent.env_exec]
  · exact .inr ⟨by simp, moves_act ha, rfl⟩

end FirebaseApps.NoteApp
