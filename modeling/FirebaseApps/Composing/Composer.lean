import FirebaseApps.Firebase.Backend
import FirebaseApps.Lib.Fresh
import FirebaseApps.Lib.Guard
import FirebaseApps.Lib.Places

/-!
# The screens that compose a post

Both apps have a screen with a picture, a description and a Post control.  A tap hands
the description and the picture to `addData` and disables the control; the completion
enables it again, at once or by a block that it puts on the main queue.  `Composer` is
such a screen with its `addData`, and carries what both of them guarantee; `host` runs
any number of them, on any number of devices, over one backend.
-/

namespace FirebaseApps.Composing

variable {C E Out : Type}

/-- What `addData` has added when it calls its completion with `error`: one document if
there is no error, and none otherwise. -/
def Added (error : Option NSError) (history : List (Lib.Event Req Ans Choice)) : Prop :=
  match error with
  | none => ∃ d, history.filterMap Firebase.newDocument? = [["Posts", d]]
  | some _ => history.filterMap Firebase.newDocument? = []

/-- A screen that composes posts: its state is a `C`, its own events are `E`s, and its
`addData` has effects `Out`. -/
structure Composer (C E Out : Type) where
  /-- The screen as it opens. -/
  initial : C
  /-- The Post control is enabled. -/
  isEnabled : C → Bool
  /-- The Post action: the description and the data it hands to `addData`. -/
  post : C → Option (String × Data × C)
  addData : UUID → String → Date → Data → Lib.Code Req Ans (Option User) Out
  /-- The effect of `addData` that is a call of its completion. -/
  added : Option NSError → Out
  /-- What an effect of `addData` does to the screen at once. -/
  emit : C → Out → C
  /-- An event of the screen; `none` when it cannot happen. -/
  edit : C → E → Option C
  /-- The blocks that completions have put on the main queue. -/
  due : C → ℕ
  initial_due : due initial = 0
  post_eq_some : ∀ {c description data c'}, post c = some (description, data, c') →
    isEnabled c' = false ∧ due c' = due c
  emit_due : ∀ c out, due (emit c out) = due c ∨
    (due (emit c out) = due c + 1 ∧ (isEnabled (emit c out) → isEnabled c))
  edit_eq_some : ∀ {c event c'}, edit c event = some c' →
    ((isEnabled c' → isEnabled c) ∧ due c' = due c) ∨ due c = due c' + 1
  linear_addData : ∀ path description date data, (addData path description date data).Linear
  reportsLast_addData : ∀ path description date data,
    (addData path description date data).ReportsLast
  /-- `addData` calls its completion, after what it has added. -/
  reported_addData : ∀ {S path description date data history outs tasks out},
    (addData path description date data).At (Firebase.Answers S) (fun _ => True) history outs
      tasks → out ∈ outs → ∃ error, out = added error ∧ Added error history
  added_injective : Function.Injective added

/-! ## Screens over one backend -/

/-- A screen: the device it is on, and its number there. -/
structure Screen where
  device : Device
  number : ℕ
  deriving DecidableEq

/-- A Post tap that calls `addData`; `path` is the fresh UUID drawn there. -/
structure Tap where
  path : UUID
  description : String
  datePublished : Date
  data : Data

/-- The backend, the UUIDs drawn so far, and the screens. -/
structure Env (C : Type) where
  firebase : Firebase
  uuids : List UUID
  composers : Screen → C

/-- Replace the state of a screen. -/
def Env.setComposer (env : Env C) (screen : Screen) (c : C) : Env C :=
  { env with composers := Function.update env.composers screen c }

/-- What happens without a Post tap. -/
inductive Act (E : Type)
  | edit (screen : Screen) (event : E)
  | signIn (device : Device) (user : User)
  | signOut (device : Device)
  /-- The server makes the thumbnail of an object. -/
  | thumbnail (name : String)

variable (K : Composer C E Out) (S : StorageService)

/-- A tap is delivered while the control is enabled, and calls `addData` with what the
Post action takes from the screen. -/
def accept (env : Env C) (screen : Screen) (tap : Tap) : Option (Env C) :=
  if tap.path ∉ env.uuids ∧ K.isEnabled (env.composers screen) then
    (K.post (env.composers screen)).bind fun (description, data, c) =>
      if tap.description = description ∧ tap.data = data then
        some { env.setComposer screen c with uuids := tap.path :: env.uuids }
      else none
  else none

/-- The moves of the environment. -/
def act (env : Env C) : Act E → Option (Env C)
  | .edit screen event => (K.edit (env.composers screen) event).map (env.setComposer screen)
  | .signIn device user => some { env with firebase := env.firebase.signedIn device (some user) }
  | .signOut device => some { env with firebase := env.firebase.signedIn device none }
  | .thumbnail name =>
      (env.firebase.makeThumbnail S name).map fun firebase => { env with firebase := firebase }

/-- The screens as a callback host. -/
def host : Lib.Host (Env C) Screen Tap (Act E) Choice Req Ans (Option User) Out where
  view env screen := env.firebase.currentUser screen.device
  emit env screen out := env.setComposer screen (K.emit (env.composers screen) out)
  serve env screen r choice :=
    (env.firebase.serve S screen.device r choice).map fun fa =>
      ({ env with firebase := fa.1 }, fa.2)
  accept := accept K
  code tap := K.addData tap.path tap.description tap.datePublished tap.data
  act := act K S

/-- The screens with all their operations. -/
abbrev World (C Out : Type) := Lib.World (Env C) Screen Tap Choice Req Ans (Option User) Out

abbrev Op (Out : Type) := Lib.Op Screen Tap Choice Req Ans (Option User) Out

abbrev Action (E : Type) := Lib.Action Screen Tap (Act E) Choice

/-- One step of the screens. -/
abbrev step (w : World C Out) (action : Action E) : Option (World C Out) :=
  w.step (host K S) action

/-- All screens are as they open; `uuids` were drawn before. -/
def initial (firebase : Firebase) (uuids : List UUID) : World C Out :=
  .initial ⟨firebase, uuids, fun _ => K.initial⟩

/-- The states the screens can be in, starting on this backend. -/
def Reachable (firebase : Firebase) (uuids : List UUID) (w : World C Out) : Prop :=
  Lib.Reachable (step K S) (initial K firebase uuids) w

/-! ## The control -/

section guarded
variable {K S}

/-- The control of a screen can be used. -/
def free (K : Composer C E Out) (env : Env C) (screen : Screen) : Prop :=
  K.isEnabled (env.composers screen)

/-- The blocks on the main queue that will enable it. -/
def due (K : Composer C E Out) (env : Env C) (screen : Screen) : ℕ :=
  K.due (env.composers screen)

/-- Nothing about a screen has changed. -/
theorem kept_of_eq {env env' : Env C} {screen : Screen}
    (h : env'.composers screen = env.composers screen) :
    Lib.Kept (free K) (due K) env env' screen := by
  simp only [Lib.Kept, free, due, h, imp_self, and_self]

theorem accept_eq_some {env env' : Env C} {screen : Screen} {tap : Tap}
    (h : accept K env screen tap = some env') :
    tap.path ∉ env.uuids ∧ K.isEnabled (env.composers screen) ∧
      ∃ c, K.post (env.composers screen) = some (tap.description, tap.data, c) ∧
        env' = { env.setComposer screen c with uuids := tap.path :: env.uuids } := by
  obtain ⟨⟨hfresh, henabled⟩, hbind⟩ := Option.ite_none_right_eq_some.mp h
  obtain ⟨⟨description, data, c⟩, hpost, hsame⟩ := Option.bind_eq_some_iff.mp hbind
  obtain ⟨⟨rfl, rfl⟩, htaken⟩ := Option.ite_none_right_eq_some.mp hsame
  exact ⟨hfresh, henabled, c, hpost, (Option.some.inj htaken).symm⟩

theorem serve_eq_some {env env' : Env C} {screen : Screen} {r : Req} {choice : Choice} {a : Ans r}
    (h : (host K S).serve env screen r choice = some (env', a)) :
    ∃ firebase, env.firebase.serve S screen.device r choice = some (firebase, a) ∧
      env' = { env with firebase := firebase } :=
  Firebase.serve_of_map h

/-- **The Post control guards `addData`.** -/
theorem guarded_host : (host K S).Guarded (free K) (due K) where
  accept h := by
    obtain ⟨-, henabled, c, hpost, rfl⟩ := accept_eq_some h
    obtain ⟨hdisabled, hdue⟩ := K.post_eq_some hpost
    exact ⟨henabled, by simp [free, Env.setComposer, hdisabled],
      by simp [due, Env.setComposer, hdue]⟩
  accept_other h hne := by
    obtain ⟨-, -, c, -, rfl⟩ := accept_eq_some h
    exact kept_of_eq (Function.update_of_ne hne _ _)
  serve h _ := by
    obtain ⟨firebase, -, rfl⟩ := serve_eq_some h
    exact kept_of_eq rfl
  emit env screen out := by
    simpa [host, free, due, Env.setComposer] using K.emit_due (env.composers screen) out
  emit_other env screen out _ hne := kept_of_eq (Function.update_of_ne hne _ _)
  act {env a env'} h screen := by
    cases a with
    | edit screen' event =>
        obtain ⟨c, hedit, rfl⟩ := Option.map_eq_some_iff.mp h
        by_cases hs : screen = screen'
        · subst hs
          simpa [Lib.Kept, free, due, Env.setComposer] using K.edit_eq_some hedit
        · exact .inl (kept_of_eq (Function.update_of_ne hs _ _))
    | signIn device user => obtain rfl := Option.some.inj h; exact .inl (kept_of_eq rfl)
    | signOut device => obtain rfl := Option.some.inj h; exact .inl (kept_of_eq rfl)
    | thumbnail name =>
        obtain ⟨firebase, -, rfl⟩ := Option.map_eq_some_iff.mp h
        exact .inl (kept_of_eq rfl)

end guarded

/-! ## One upload at a time -/

variable {K S}

/-- The documents that a screen has added to `Posts`. -/
def documents (w : World C Out) (screen : Screen) : Set String :=
  {d | ∃ i op, w.ops i = some op ∧ op.client = screen ∧
    ∃ e ∈ op.history, Firebase.newDocument? e = some ["Posts", d]}

/-- The `addData` calls of a screen whose completion received `nil`. -/
def successes (K : Composer C E Out) (w : World C Out) (screen : Screen) : Set ℕ :=
  {i | ∃ op, w.ops i = some op ∧ op.client = screen ∧ K.added none ∈ op.outs}

/-- A screen has at most one `addData` call in flight, its Post control is disabled
meanwhile, and it has added one document for each call that reported success. -/
structure UploadsOnce (K : Composer C E Out) (w : World C Out) (screen : Screen) : Prop where
  single : ∀ i j, Lib.World.InFlight w i screen → Lib.World.InFlight w j screen → i = j
  disabled : ∀ i, Lib.World.InFlight w i screen →
    K.isEnabled (w.env.composers screen) = false
  finite : (successes K w screen).Finite
  counted : (∀ i, ¬ Lib.World.InFlight w i screen) →
    (documents w screen).encard = (successes K w screen).encard
  /-- A call that reported an error added no document. -/
  failed : ∀ i op e, w.ops i = some op → op.client = screen → K.added (some e) ∈ op.outs →
    ∀ event ∈ op.history, Firebase.newDocument? event = none

/-- The paths of the documents that an operation has added. -/
def names (op : Op Out) (p : Path) : Prop :=
  ∃ e ∈ op.history, Firebase.newDocument? e = some p

/-- What holds in every reachable state. -/
structure Inv (K : Composer C E Out) (S : StorageService) (w : World C Out) : Prop where
  code : Lib.World.OnCode (host K S) (Firebase.Answers S) (fun _ _ => True) w
  report : Lib.World.Reporting w
  once : Lib.World.OneAtATime (free K) (due K) w
  own : Lib.World.Own names (fun env => env.firebase.firestore.used) w
  finite : {i | (w.ops i).isSome}.Finite

variable {fb : Firebase} {uuids : List UUID} {w w' : World C Out} {action : Action E}

theorem inv_initial : Inv K S (initial K fb uuids) where
  code := Lib.World.onCode_initial _
  report := Lib.World.reporting_initial _
  once screen := .idle (fun i ⟨op, hop, _⟩ => by cases hop) (.inl K.initial_due)
  own := Lib.World.own_initial _
  finite := by simp [initial, Lib.World.initial]

/-- Running code leaves the backend alone. -/
theorem firebase_exec (screen : Screen) (code : Lib.Code Req Ans (Option User) Out) (env : Env C) :
    ((host K S).exec screen code env).env.firebase = env.firebase :=
  (host K S).exec_env_invariant (P := fun env' => env'.firebase = env.firebase)
    (fun _ _ _ h => h) rfl

/-- Used paths stay used. -/
theorem used_step (hs : step K S w action = some w') :
    ∀ p ∈ w.env.firebase.firestore.used, p ∈ w'.env.firebase.firestore.used := by
  intro p hp
  rcases Lib.World.step_cases hs with ⟨i, screen, tap, env, rfl, hi, ha, rfl⟩ |
    ⟨i, j, choice, op, r, callback, env, a, rfl, hi, ht, hr, rfl⟩ |
    ⟨i, j, op, code, rfl, hi, ht, rfl⟩ | ⟨a, env, rfl, ha, rfl⟩
  · obtain ⟨-, -, c, -, rfl⟩ := accept_eq_some ha
    rw [Lib.World.env_resume, firebase_exec]
    exact hp
  · obtain ⟨firebase, hfb, rfl⟩ := serve_eq_some hr
    exact Firebase.used_serve hfb p hp
  · rw [Lib.World.env_resume, firebase_exec]
    exact hp
  · cases a with
    | edit screen event =>
        obtain ⟨c, -, rfl⟩ := Option.map_eq_some_iff.mp ha
        exact hp
    | signIn device user => obtain rfl := Option.some.inj ha; exact hp
    | signOut device => obtain rfl := Option.some.inj ha; exact hp
    | thumbnail name =>
        obtain ⟨firebase, hm, rfl⟩ := Option.map_eq_some_iff.mp ha
        obtain ⟨o, -, rfl⟩ := Option.map_eq_some_iff.mp hm
        exact hp

theorem Inv.step (h : Inv K S w) (hs : step K S w action = some w') : Inv K S w' where
  code := h.code.step (fun _ _ _ _ _ _ hr => by
    obtain ⟨firebase, hfb, -⟩ := serve_eq_some hr
    exact .of_serve hfb) (Lib.World.sees_of_forall (fun _ _ => trivial) w action) hs
  report := h.report.step (fun tap => K.reportsLast_addData _ _ _ _) hs
  once := h.once.step guarded_host h.report (fun tap => K.reportsLast_addData _ _ _ _) hs
  own := h.own.step_served _ hs (used_step hs) fun screen r choice env a p hr hp => by
    obtain ⟨firebase, hfb, rfl⟩ := serve_eq_some hr
    exact Firebase.newDocument?_serve hfb hp
  finite := Lib.World.finite_step h.finite hs

theorem inv_reachable (h : Reachable K S fb uuids w) : Inv K S w :=
  h.invariant inv_initial fun _ _ _ hw hs => hw.step hs

/-- The completion of an operation, and what the operation has added by then. -/
theorem Inv.reported (h : Inv K S w) {i : ℕ} {op : Op Out} {out : Out} (hop : w.ops i = some op)
    (ho : out ∈ op.outs) : ∃ error, out = K.added error ∧ Added error op.history :=
  K.reported_addData (h.code i op hop (K.linear_addData _ _ _ _)) ho

/-- What an operation has added by the time it reports. -/
theorem Inv.added (h : Inv K S w) {i : ℕ} {op : Op Out} {error : Option NSError}
    (hop : w.ops i = some op) (ho : K.added error ∈ op.outs) : Added error op.history := by
  obtain ⟨error', heq, hadded⟩ := h.reported hop ho
  obtain rfl := K.added_injective heq
  exact hadded

/-- An operation that has added nothing. -/
theorem newDocument?_of_added {e : NSError} {history : List (Lib.Event Req Ans Choice)}
    (h : Added (some e) history) : ∀ event ∈ history, Firebase.newDocument? event = none :=
  List.filterMap_eq_nil_iff.mp h

/-- An operation that reported success has added one document. -/
theorem names_of_added {op : Op Out} (h : Added none op.history) :
    ∃ d, ∀ p, names op p ↔ p = ["Posts", d] := by
  obtain ⟨d, hd⟩ := h
  refine ⟨d, fun p => ?_⟩
  rw [names, ← List.mem_filterMap, hd, List.mem_singleton]

/-- The operations of a screen with nothing in flight that have added documents are its
successes. -/
theorem Inv.success_of_names (h : Inv K S w) {screen : Screen}
    (hidle : ∀ i, ¬ Lib.World.InFlight w i screen) {i : ℕ} {op : Op Out} {p : Path}
    (hop : w.ops i = some op) (hscreen : op.client = screen) (hp : names op p) :
    i ∈ successes K w screen := by
  rcases h.report i op hop with ⟨-, out, houts⟩ | ⟨-, task, htasks, -⟩
  · obtain ⟨error, rfl, hadded⟩ := h.reported hop (houts ▸ List.mem_singleton_self out)
    cases error with
    | none => exact ⟨op, hop, hscreen, by simp [houts]⟩
    | some e =>
        obtain ⟨event, hevent, hsome⟩ := hp
        rw [newDocument?_of_added hadded event hevent] at hsome
        cases hsome
  · exact absurd ⟨op, hop, hscreen, by simp [htasks]⟩ (hidle i)

/-- The documents of a screen with nothing in flight, by its successes. -/
theorem Inv.documents_eq (h : Inv K S w) {screen : Screen}
    (hidle : ∀ i, ¬ Lib.World.InFlight w i screen) :
    (fun d : String => (["Posts", d] : Path)) '' documents w screen =
      {p | ∃ i ∈ successes K w screen, ∃ op, w.ops i = some op ∧ names op p} := by
  ext p
  constructor
  · rintro ⟨d, ⟨i, op, hop, hscreen, hnames⟩, rfl⟩
    exact ⟨i, h.success_of_names hidle hop hscreen hnames, op, hop, hnames⟩
  · rintro ⟨i, ⟨op, hop, hscreen, ho⟩, op', hop', hnames⟩
    obtain rfl := Option.some.inj (hop.symm.trans hop')
    obtain ⟨d, hd⟩ := names_of_added (h.added hop ho)
    obtain rfl := (hd p).mp hnames
    exact ⟨d, ⟨i, op, hop, hscreen, hnames⟩, rfl⟩

/-- **One upload at a time**, and one document for each reported success. -/
theorem Composer.uploadsOnce_of_reachable (h : Reachable K S fb uuids w) (screen : Screen) :
    UploadsOnce K w screen := by
  have hinv := inv_reachable h
  refine ⟨(hinv.once screen).single, fun i hi => ?_, ?_, fun hidle => ?_, ?_⟩
  · exact Bool.eq_false_of_not_eq_true ((hinv.once screen).taken i hi).1
  · exact hinv.finite.subset fun i ⟨op, hop, _⟩ => Option.isSome_iff_exists.mpr ⟨op, hop⟩
  · have hinj : Function.Injective fun d : String => (["Posts", d] : Path) := fun d d' heq => by
      simpa using heq
    rw [← hinj.encard_image, hinv.documents_eq hidle]
    refine hinv.own.encard_names fun i ⟨op, hop, _, ho⟩ => ?_
    obtain ⟨d, hd⟩ := names_of_added (hinv.added hop ho)
    exact ⟨op, _, hop, hd⟩
  · intro i op e hop _ ho
    exact newDocument?_of_added (hinv.added hop ho)

end FirebaseApps.Composing
