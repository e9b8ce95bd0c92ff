import FirebaseApps.NoteApp.NoteList

/-!
# NoteApp: the texts of the form and of the details

`FormView` adds a note and `DetailsView` changes the title of one, each with the text that it
holds.  Save is disabled while its text is empty, and clears it.  The alert of `DetailsView`
opens on an empty text, with the old title as the placeholder; Update is not disabled and
keeps its text, and Cancel clears it.  So a note whose title is empty got it from an Update
(`titled_reachable`).

The views are laid over the app, on the note list that has presented them: a press is a call
of its view model, and nothing can be pressed once the list is closed.  The list may give an
open `DetailsView` the note again, as it has it then.
-/

namespace FirebaseApps.NoteApp.Drafts

/-! ## The views -/

/-- `FormView`. -/
structure FormView where
  device : Device
  /-- The view model of the list that has presented it. -/
  viewModel : ℕ
  titleText : String
  deriving DecidableEq

/-- `DetailsView`. -/
structure DetailsView where
  device : Device
  /-- The view model of the list that has presented it. -/
  viewModel : ℕ
  note : Note
  presentAlert : Bool
  titleText : String
  deriving DecidableEq

/-- The app, its views by number, and the Updates that were pressed so far: the note that was
shown, and the text. -/
structure State where
  world : World
  forms : ℕ → Option FormView
  details : ℕ → Option DetailsView
  updates : List (Note × String)

/-- What happens. -/
inductive Input
  /-- The app does a step that is not a press in one of the views. -/
  | app (action : Action)
  /-- The pencil of a note list presents a form. -/
  | pencil (k : ℕ) (device : Device)
  | typeForm (k : ℕ) (text : String)
  | save (i k : ℕ)
  /-- A form goes away: by its Cancel, or after Save. -/
  | dismiss (k : ℕ)
  /-- A note of a list is tapped. -/
  | tapNote (k : ℕ) (device : Device) (note : Note)
  /-- The list has a note again, and passes it on. -/
  | refresh (k : ℕ) (note : Note)
  | edit (k : ℕ)
  | typeTitle (k : ℕ) (text : String)
  | update (i k : ℕ)
  | cancel (k : ℕ)
  /-- The user goes back to the list. -/
  | back (k : ℕ)

/-- The calls of the views. -/
def isDraftCall : Call → Bool
  | .addData _ | .updateData .. => true
  | _ => false

/-- The step is a press in one of the views. -/
def isPress : Action → Bool
  | .start _ _ call => isDraftCall call
  | _ => false

namespace State

/-- The app with no view open. -/
def initial (firebase : Firebase) : State :=
  ⟨NoteApp.initial firebase, fun _ => none, fun _ => none, []⟩

def setForm (s : State) (k : ℕ) (form : Option FormView) : State :=
  { s with forms := Function.update s.forms k form }

def setDetails (s : State) (k : ℕ) (view : Option DetailsView) : State :=
  { s with details := Function.update s.details k view }

/-- A view calls the view model of its list, which must still be shown. -/
def press (S : StorageService) (s : State) (i : ℕ) (device : Device) (viewModel : ℕ)
    (call : Call) : Option World :=
  if s.world.env.screens.live device = some viewModel then
    NoteApp.step S s.world (.start i device call)
  else none

/-- One step of the app with its views. -/
def step (S : StorageService) (s : State) : Input → Option State
  | .app action =>
      if isPress action then none
      else (NoteApp.step S s.world action).map fun world => { s with world := world }
  | .pencil k device =>
      if s.forms k = none then
        (s.world.env.screens.live device).map fun m => s.setForm k (some ⟨device, m, ""⟩)
      else none
  | .typeForm k text =>
      (s.forms k).map fun form => s.setForm k (some { form with titleText := text })
  | .save i k =>
      (s.forms k).bind fun form =>
        if form.titleText = "" then none -- the button is disabled
        else
          (s.press S i form.device form.viewModel (.addData form.titleText)).map fun world =>
            { s with world := world }.setForm k (some { form with titleText := "" })
  | .dismiss k => some (s.setForm k none)
  | .tapNote k device note =>
      (s.world.env.screens.live device).bind fun m =>
        if s.details k = none ∧ note ∈ (s.world.env.screens.viewModels m).notes then
          some (s.setDetails k (some ⟨device, m, note, false, ""⟩))
        else none
  | .refresh k note =>
      (s.details k).bind fun view =>
        if note ∈ (s.world.env.screens.viewModels view.viewModel).notes ∧
            note.id = view.note.id then
          some (s.setDetails k (some { view with note := note }))
        else none
  | .edit k =>
      (s.details k).map fun view =>
        s.setDetails k (some { view with presentAlert := !view.presentAlert })
  | .typeTitle k text =>
      (s.details k).bind fun view =>
        if view.presentAlert then some (s.setDetails k (some { view with titleText := text }))
        else none
  | .update i k =>
      (s.details k).bind fun view =>
        if view.presentAlert then
          (s.press S i view.device view.viewModel
            (.updateData view.titleText (view.note.id.getD ""))).map fun world =>
              { s with
                world := world
                updates := s.updates ++ [(view.note, view.titleText)] }.setDetails k
                  (some { view with presentAlert := false })
        else none
  | .cancel k =>
      (s.details k).map fun view =>
        s.setDetails k (some { view with presentAlert := false, titleText := "" })
  | .back k => some (s.setDetails k none)

end State

/-- The states of the app with its views, starting on this backend. -/
def Reachable (S : StorageService) (firebase : Firebase) (s : State) : Prop :=
  Lib.Reachable (State.step S) (.initial firebase) s

variable {S : StorageService} {fb : Firebase} {s s' : State} {input : Input} {u : String}

/-! ## What a step does -/

/-- The note is in a list, or is shown by a view. -/
def Noted (s : State) (note : Note) : Prop :=
  (∃ m, note ∈ (s.world.env.screens.viewModels m).notes) ∨
    ∃ k view, s.details k = some view ∧ view.note = note

/-- What was pressed in a step: nothing, or one of the two buttons. -/
inductive Pressed (s s' : State) : Action → Prop
  | other {action} (hno : isPress action = false) (hupdates : s'.updates = s.updates) :
      Pressed s s' action
  | save {i device title} (htitle : title ≠ "") (hupdates : s'.updates = s.updates) :
      Pressed s s' (.start i device (.addData title))
  | update {i device note title} (hnote : Noted s note)
      (hupdates : s'.updates = s.updates ++ [(note, title)]) :
      Pressed s s' (.start i device (.updateData title (note.id.getD "")))

/-- **What a step does to the app**: it goes on, with what was pressed, or stays. -/
theorem step_world (hs : s.step S input = some s') :
    (∃ action, NoteApp.step S s.world action = some s'.world ∧ Pressed s s' action) ∨
      (s'.world = s.world ∧ s'.updates = s.updates) := by
  cases input with
  | app action =>
      obtain ⟨hno, hs⟩ := Option.ite_none_left_eq_some.mp hs
      obtain ⟨world, hworld, rfl⟩ := Option.map_eq_some_iff.mp hs
      exact .inl ⟨action, hworld, .other (by simpa using hno) rfl⟩
  | save i k =>
      obtain ⟨form, -, hs⟩ := Option.bind_eq_some_iff.mp hs
      obtain ⟨htitle, hs⟩ := Option.ite_none_left_eq_some.mp hs
      obtain ⟨world, hpress, rfl⟩ := Option.map_eq_some_iff.mp hs
      obtain ⟨-, hworld⟩ := Option.ite_none_right_eq_some.mp hpress
      exact .inl ⟨_, hworld, .save htitle rfl⟩
  | update i k =>
      obtain ⟨view, hview, hs⟩ := Option.bind_eq_some_iff.mp hs
      obtain ⟨-, hs⟩ := Option.ite_none_right_eq_some.mp hs
      obtain ⟨world, hpress, rfl⟩ := Option.map_eq_some_iff.mp hs
      obtain ⟨-, hworld⟩ := Option.ite_none_right_eq_some.mp hpress
      exact .inl ⟨_, hworld, .update (.inr ⟨k, view, hview, rfl⟩) rfl⟩
  | pencil k device =>
      obtain ⟨-, hs⟩ := Option.ite_none_right_eq_some.mp hs
      obtain ⟨m, -, rfl⟩ := Option.map_eq_some_iff.mp hs
      exact .inr ⟨rfl, rfl⟩
  | tapNote k device note =>
      obtain ⟨m, -, hs⟩ := Option.bind_eq_some_iff.mp hs
      obtain ⟨-, hs⟩ := Option.ite_none_right_eq_some.mp hs
      obtain rfl := Option.some.inj hs
      exact .inr ⟨rfl, rfl⟩
  | refresh k note | typeTitle k text =>
      obtain ⟨view, -, hs⟩ := Option.bind_eq_some_iff.mp hs
      obtain ⟨-, hs⟩ := Option.ite_none_right_eq_some.mp hs
      obtain rfl := Option.some.inj hs
      exact .inr ⟨rfl, rfl⟩
  | typeForm k text | edit k | cancel k =>
      obtain ⟨view, -, rfl⟩ := Option.map_eq_some_iff.mp hs
      exact .inr ⟨rfl, rfl⟩
  | dismiss k | back k =>
      obtain rfl := Option.some.inj hs
      exact .inr ⟨rfl, rfl⟩

/-- A view that is open shows a note. -/
theorem noted_of_details {k : ℕ} {view : DetailsView} (h : s.details k = some view) :
    Noted s view.note :=
  .inr ⟨k, view, h, rfl⟩

theorem noted_update {k n : ℕ} {view : Option DetailsView} {view' : DetailsView}
    (hview : ∀ view' ∈ view, Noted s view'.note)
    (h : Function.update s.details k view n = some view') : Noted s view'.note := by
  by_cases hn : n = k
  · subst hn
    rw [Function.update_self] at h
    exact hview view' h
  · rw [Function.update_of_ne hn] at h
    exact noted_of_details h

/-- **The notes that views show** come from the lists. -/
theorem noted_step (hs : s.step S input = some s') {n : ℕ} {view' : DetailsView}
    (h : s'.details n = some view') : Noted s view'.note := by
  cases input with
  | app action =>
      obtain ⟨-, hs⟩ := Option.ite_none_left_eq_some.mp hs
      obtain ⟨world, -, rfl⟩ := Option.map_eq_some_iff.mp hs
      exact noted_of_details h
  | save i k =>
      obtain ⟨form, -, hs⟩ := Option.bind_eq_some_iff.mp hs
      obtain ⟨-, hs⟩ := Option.ite_none_left_eq_some.mp hs
      obtain ⟨world, -, rfl⟩ := Option.map_eq_some_iff.mp hs
      exact noted_of_details h
  | pencil k device =>
      obtain ⟨-, hs⟩ := Option.ite_none_right_eq_some.mp hs
      obtain ⟨m, -, rfl⟩ := Option.map_eq_some_iff.mp hs
      exact noted_of_details h
  | typeForm k text =>
      obtain ⟨form, -, rfl⟩ := Option.map_eq_some_iff.mp hs
      exact noted_of_details h
  | dismiss k =>
      obtain rfl := Option.some.inj hs
      exact noted_of_details h
  | tapNote k device note =>
      obtain ⟨m, -, hs⟩ := Option.bind_eq_some_iff.mp hs
      obtain ⟨⟨-, hnote⟩, hs⟩ := Option.ite_none_right_eq_some.mp hs
      obtain rfl := Option.some.inj hs
      refine noted_update (fun view hview => ?_) h
      obtain rfl := Option.some.inj hview
      exact .inl ⟨m, hnote⟩
  | refresh k note =>
      obtain ⟨view, -, hs⟩ := Option.bind_eq_some_iff.mp hs
      obtain ⟨⟨hnote, -⟩, hs⟩ := Option.ite_none_right_eq_some.mp hs
      obtain rfl := Option.some.inj hs
      refine noted_update (fun view' hview' => ?_) h
      obtain rfl := Option.some.inj hview'
      exact .inl ⟨view.viewModel, hnote⟩
  | edit k | cancel k =>
      obtain ⟨view, hview, rfl⟩ := Option.map_eq_some_iff.mp hs
      refine noted_update (fun view' hview' => ?_) h
      obtain rfl := Option.some.inj hview'
      exact .inr ⟨k, view, hview, rfl⟩
  | typeTitle k text =>
      obtain ⟨view, hview, hs⟩ := Option.bind_eq_some_iff.mp hs
      obtain ⟨-, hs⟩ := Option.ite_none_right_eq_some.mp hs
      obtain rfl := Option.some.inj hs
      refine noted_update (fun view' hview' => ?_) h
      obtain rfl := Option.some.inj hview'
      exact .inr ⟨k, view, hview, rfl⟩
  | update i k =>
      obtain ⟨view, hview, hs⟩ := Option.bind_eq_some_iff.mp hs
      obtain ⟨-, hs⟩ := Option.ite_none_right_eq_some.mp hs
      obtain ⟨world, -, rfl⟩ := Option.map_eq_some_iff.mp hs
      refine noted_update (fun view' hview' => ?_) h
      obtain rfl := Option.some.inj hview'
      exact .inr ⟨k, view, hview, rfl⟩
  | back k =>
      obtain rfl := Option.some.inj hs
      exact noted_update (fun view' hview' => by cases hview') h

/-- **The app under the views is the app.** -/
theorem world_reachable (h : Reachable S fb s) : NoteApp.Reachable S fb s.world := by
  refine Lib.Reachable.project State.world (fun s input s' hs => ?_) h
  rcases step_world hs with ⟨action, hworld, -⟩ | ⟨heq, -⟩
  · exact .inr ⟨action, hworld⟩
  · exact .inl heq

/-! ## The calls of the views -/

/-- What the views ask for: a title that is not empty, or one that was entered for a note of
this id. -/
def Wanted (updates : List (Note × String)) : Call → Prop
  | .addData title => title ≠ ""
  | .updateData title id => ∃ note, (note, title) ∈ updates ∧ note.id = some id
  | _ => True

theorem Wanted.append {updates : List (Note × String)} {call : Call} (h : Wanted updates call)
    (new : List (Note × String)) : Wanted (updates ++ new) call := by
  cases call with
  | updateData title id =>
      obtain ⟨note, hmem, hid⟩ := h
      exact ⟨note, List.mem_append_left _ hmem, hid⟩
  | _ => exact h

/-- Other calls want nothing. -/
theorem wanted_of_not_draft {updates : List (Note × String)} {call : Call}
    (h : isDraftCall call = false) : Wanted updates call := by
  cases call with
  | addData title | updateData title id => cases h
  | _ => trivial

/-- What is known of the app with its views. -/
structure Inv (S : StorageService) (fb : Firebase) (s : State) : Prop where
  world : NoteApp.Reachable S fb s.world
  details : ∀ k view, s.details k = some view → ∃ id, view.note.id = some id
  calls : ∀ i op, s.world.ops i = some op → Wanted s.updates op.call

theorem inv_initial (S : StorageService) (fb : Firebase) : Inv S fb (.initial fb) where
  world := ⟨[], rfl⟩
  details k view h := by cases h
  calls i op h := by cases h

/-- A call is wanted when it is made. -/
theorem Pressed.wanted {action : Action} (h : Pressed s s' action)
    (hnoted : ∀ note, Noted s note → ∃ id, note.id = some id) {i : ℕ} {device : Device}
    {call : Call}
    (haction : action = .start i device call) : Wanted s'.updates call := by
  cases h with
  | other hno =>
      subst haction
      exact wanted_of_not_draft hno
  | save htitle =>
      cases haction
      exact htitle
  | @update i device note title hnote hupdates =>
      cases haction
      obtain ⟨id, hid⟩ := hnoted note hnote
      refine ⟨note, by simp [hupdates], ?_⟩
      rw [hid, Option.getD_some]

theorem Pressed.updates {action : Action} (h : Pressed s s' action) :
    ∃ new, s'.updates = s.updates ++ new := by
  cases h with
  | other _ hupdates => exact ⟨[], by simp [hupdates]⟩
  | save _ hupdates => exact ⟨[], by simp [hupdates]⟩
  | update _ hupdates => exact ⟨_, hupdates⟩

theorem Inv.step (hfb : NotesOnly u fb.firestore) (h : Inv S fb s)
    (hs : s.step S input = some s') : Inv S fb s' := by
  have hidentified : Identified s.world.env := (listed_reachable hfb h.world).bound.identified
  have hnoted : ∀ note, Noted s note → ∃ id, note.id = some id := by
    rintro note (⟨m, hnote⟩ | ⟨k, view, hview, rfl⟩)
    · exact hidentified m note hnote
    · exact h.details k view hview
  have hdetails : ∀ k view, s'.details k = some view → ∃ id, view.note.id = some id :=
    fun k view hview => hnoted _ (noted_step hs hview)
  rcases step_world hs with ⟨action, hworld, hpressed⟩ | ⟨hworld, hupdates⟩
  · refine ⟨Lib.Reachable.next h.world hworld, hdetails, fun i op hop => ?_⟩
    rcases Lib.World.op_of_step hworld hop with ⟨env, haction, -⟩ | ⟨op₀, hop₀, hfol⟩
    · exact hpressed.wanted hnoted haction
    · obtain ⟨new, hnew⟩ := hpressed.updates
      rw [hnew, hfol.call]
      exact (h.calls i op₀ hop₀).append new
  · refine ⟨hworld ▸ h.world, hdetails, ?_⟩
    rw [hworld, hupdates]
    exact h.calls

theorem inv_reachable (hfb : NotesOnly u fb.firestore) (h : Reachable S fb s) : Inv S fb s :=
  Lib.Reachable.invariant (P := Inv S fb) h (inv_initial S fb) fun _ _ _ hinv hs => hinv.step hfb hs

/-! ## Titles -/

/-- What the titles of the account `u` have to do with the presses. -/
structure Titled (fb : Firebase) (u : String) (s : State) : Prop where
  saved : ∀ id title, .add id title ∈ writes u s.world → title ≠ ""
  /-- Every change of a title was entered for the note of this id. -/
  updated : ∀ id title, .update id title ∈ writes u s.world →
    ∃ note, (note, title) ∈ s.updates ∧ note.id = some id
  /-- A title is empty only when the last Update of the note has made it so, or when it was
  empty from the start and there was none. -/
  empty : ∀ id, titles s.world.env.firebase.firestore u id = some "" →
    (Lib.updates id (writes u s.world)).getLast? = some "" ∨
      titles fb.firestore u id = some "" ∧ Lib.updates id (writes u s.world) = []

/-- The call that an addition comes from. -/
theorem call_of_add {e : Entry} {id title : String} (h : write? u e = some (.add id title)) :
    e.call = .addData title := by
  unfold write? at h
  split at h
  next title' _ _ _ _ hcall _ =>
    obtain ⟨-, heq⟩ := Option.ite_none_right_eq_some.mp h
    obtain ⟨-, rfl⟩ := Lib.MapWrite.add.inj (Option.some.inj heq)
    exact hcall
  next =>
    obtain ⟨-, heq⟩ := Option.ite_none_right_eq_some.mp h
    cases heq
  next =>
    obtain ⟨_, -, h⟩ := Option.bind_eq_some_iff.mp h
    obtain ⟨-, heq⟩ := Option.ite_none_right_eq_some.mp h
    cases heq
  next => cases h

/-- The call that an update comes from. -/
theorem call_of_update {e : Entry} {id title : String} (h : write? u e = some (.update id title)) :
    e.call = .updateData title id := by
  unfold write? at h
  split at h
  next =>
    obtain ⟨-, heq⟩ := Option.ite_none_right_eq_some.mp h
    cases heq
  next title' id' _ _ _ hcall _ =>
    obtain ⟨-, heq⟩ := Option.ite_none_right_eq_some.mp h
    obtain ⟨rfl, rfl⟩ := Lib.MapWrite.update.inj (Option.some.inj heq)
    exact hcall
  next =>
    obtain ⟨_, -, h⟩ := Option.bind_eq_some_iff.mp h
    obtain ⟨-, heq⟩ := Option.ite_none_right_eq_some.mp h
    cases heq
  next => cases h

/-- The call of an entry is wanted. -/
theorem Inv.wanted (h : Inv S fb s) {e : Entry} (he : e ∈ s.world.log) :
    Wanted s.updates e.call := by
  obtain ⟨op, hop, hcall, -⟩ :=
    (Lib.World.logged_of_reachable h.world).known e.op e.call e.event he
  exact hcall ▸ h.calls e.op op hop

theorem Inv.saved (h : Inv S fb s) {id title : String} (hmem : .add id title ∈ writes u s.world) :
    title ≠ "" := by
  obtain ⟨e, he, hwrite⟩ := List.mem_filterMap.mp hmem
  have hwanted := h.wanted he
  rw [call_of_add hwrite] at hwanted
  exact hwanted

/-- **Titles are empty only where an Update says so.** -/
theorem titled_reachable (S : StorageService) (fb : Firebase) (u : String)
    (hfb : NotesOnly u fb.firestore) (h : Reachable S fb s) : Titled fb u s := by
  have hinv := inv_reachable hfb h
  have hreplayed := (listed_reachable hfb hinv.world).replayed
  refine ⟨fun id title => hinv.saved, fun id title hmem => ?_, fun id hempty => ?_⟩
  · obtain ⟨e, he, hwrite⟩ := List.mem_filterMap.mp hmem
    have hwanted := hinv.wanted he
    rw [call_of_update hwrite] at hwanted
    exact hwanted
  · rw [hreplayed.replay] at hempty
    rcases Lib.value_of_replay hempty with ⟨before, title₀, after, heq, hleaves⟩ |
      ⟨title₀, hstart, hleaves⟩
    · -- the note was saved with a title, so an update came later
      have hadd : .add id title₀ ∈ writes u s.world := by
        rw [heq]
        exact List.mem_append_right _ List.mem_cons_self
      have hupdates : Lib.updates id (writes u s.world) =
          Lib.updates id before ++ Lib.updates id after := by
        rw [heq, Lib.updates_append]
        rfl
      rcases hleaves.last with hlast | ⟨rfl, -⟩
      · left
        rw [hupdates, List.getLast?_append, hlast, Option.some_or]
      · exact absurd rfl (hinv.saved hadd)
    · rcases hleaves.last with hlast | ⟨rfl, hnone⟩
      · exact .inl hlast
      · exact .inr ⟨hstart, hnone⟩

/-- Ana saves a note, and taps Edit and Update on it without typing anything. -/
def emptiedRun : List Input :=
  (openNotes 0 0).map .app ++
    [.pencil 0 0, .typeForm 0 "milk", .save 3 0, .dismiss 0, .app (.serve 3 0 (.documentID "m")),
      .app (.act (.takeSnapshot 0)), .app (.act (.deliverSnapshot 0)),
      .tapNote 0 0 ⟨some "m", some "milk"⟩, .edit 0, .update 4 0, .app (.serve 4 0 .success)]

/-- Her note has an empty title then. -/
theorem titled_emptiedRun : ∃ s, Lib.run (State.step .plain) (.initial .empty) emptiedRun = some s ∧
    titles s.world.env.firebase.firestore "ana" "m" = some "" ∧
    s.updates = [(⟨some "m", some "milk"⟩, "")] ∧ Titled .empty "ana" s := by
  have hrun : ∃ s, Lib.run (State.step .plain) (.initial .empty) emptiedRun = some s ∧
      titles s.world.env.firebase.firestore "ana" "m" = some "" ∧
      s.updates = [(⟨some "m", some "milk"⟩, "")] := ⟨_, rfl, rfl, rfl⟩
  obtain ⟨s, hs, htitle, hupdates⟩ := hrun
  have hempty : NotesOnly "ana" Firebase.empty.firestore := fun id doc h => by cases h
  have hreach : Reachable .plain .empty s := ⟨_, hs⟩
  exact ⟨s, hs, htitle, hupdates, titled_reachable .plain .empty "ana" hempty hreach⟩

end FirebaseApps.NoteApp.Drafts
