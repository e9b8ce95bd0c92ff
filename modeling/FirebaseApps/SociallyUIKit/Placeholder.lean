import FirebaseApps.Composing.Events
import FirebaseApps.SociallyUIKit.NewPostViewController

/-!
# Socially-UIKit: the placeholder of the description

The text view of `NewPostViewController` has no placeholder of its own: it shows the text
`Description` in another colour while nothing is entered and it is not being edited.  The
delegate recognises that by the colour, the Post action by the text.  The two agree, and the
Post action takes what was entered, except that it takes `Description` for the placeholder
when the user has entered it, and takes an empty description while it is being edited.

`Draft` is what the user has entered, without any placeholder; the text view shows the draft
throughout (`represents_reachable`), and `distinguishes_iff` tells the two exceptions.
-/

namespace FirebaseApps.SociallyUIKit.NewPostViewController

/-! ## The draft -/

/-- What the user has entered as the description. -/
structure Draft where
  entered : String := ""
  isEditing : Bool := false
  deriving DecidableEq, Repr

/-- What an event does to the draft. -/
def Draft.next (draft : Draft) : Composing.Event Edit Out → Draft
  | .edit .beginEditing => { draft with isEditing := true }
  | .edit .endEditing => { draft with isEditing := false }
  | .edit (.changeText text) => { draft with entered := text }
  | _ => draft

/-- The draft after these events. -/
def drafted (events : List (Composing.Event Edit Out)) : Draft := events.foldl Draft.next {}

/-- Nothing is entered, and nothing is being entered. -/
def Draft.IsBlank (draft : Draft) : Prop := draft.entered = "" ∧ draft.isEditing = false

instance (draft : Draft) : Decidable draft.IsBlank := by
  unfold Draft.IsBlank
  infer_instance

/-! ## The text view -/

/-- The text view shows the draft, or the placeholder for a blank one. -/
structure Represents (controller : NewPostViewController) (draft : Draft) : Prop where
  isEditing : controller.isEditing = draft.isEditing
  text : controller.text = if draft.IsBlank then "Description" else draft.entered
  textColor : controller.textColor = if draft.IsBlank then .placeholderText else .label

variable {self self' : NewPostViewController} {draft : Draft} {event : Composing.Event Edit Out}

/-- Nothing about the text view has changed. -/
theorem Represents.kept (h : Represents self draft) (hediting : self'.isEditing = self.isEditing)
    (htext : self'.text = self.text) (hcolor : self'.textColor = self.textColor) :
    Represents self' draft :=
  ⟨hediting.trans h.isEditing, htext.trans h.text, hcolor.trans h.textColor⟩

/-- The text view shows the placeholder in its colour, and nothing else. -/
theorem Represents.textColor_iff (h : Represents self draft) :
    self.textColor = .placeholderText ↔ draft.IsBlank := by
  rw [h.textColor]
  split
  · simp [*]
  · simp [*]

/-- A text that is being edited is shown as it is. -/
theorem represents_editing {text : String} (hediting : self.isEditing = true)
    (htext : self.text = text) (hcolor : self.textColor = .label) :
    Represents self ⟨text, true⟩ := by
  have hblank : ¬ Draft.IsBlank ⟨text, true⟩ := fun hblank => by cases hblank.2
  exact ⟨hediting, by rw [htext, if_neg hblank], by rw [hcolor, if_neg hblank]⟩

/-- While the text is being edited, it is what was entered. -/
theorem Represents.editing (h : Represents self draft) (hediting : self.isEditing = true) :
    self.text = draft.entered ∧ self.textColor = .label := by
  have hblank : ¬ draft.IsBlank := fun hblank => by
    rw [h.isEditing, hblank.2] at hediting
    cases hediting
  exact ⟨by rw [h.text, if_neg hblank], by rw [h.textColor, if_neg hblank]⟩

theorem Represents.beginEditing (h : Represents self draft) :
    Represents { self.textViewDidBeginEditing with isEditing := true }
      { draft with isEditing := true } := by
  rw [textViewDidBeginEditing]
  by_cases hblank : draft.IsBlank
  · -- the placeholder is replaced by an empty text
    rw [if_pos (h.textColor_iff.mpr hblank), hblank.1]
    exact represents_editing rfl rfl rfl
  · rw [if_neg (mt h.textColor_iff.mp hblank)]
    refine represents_editing rfl ?_ ?_
    · rw [h.text, if_neg hblank]
    · rw [h.textColor, if_neg hblank]

theorem Represents.endEditing (h : Represents self draft) (hediting : self.isEditing = true) :
    Represents { self.textViewDidEndEditing with isEditing := false }
      { draft with isEditing := false } := by
  obtain ⟨htext, hcolor⟩ := h.editing hediting
  rw [textViewDidEndEditing, htext]
  by_cases hempty : draft.entered = ""
  · have hblank : Draft.IsBlank { draft with isEditing := false } := ⟨hempty, rfl⟩
    rw [if_pos (by simp [hempty])]
    exact ⟨rfl, by rw [if_pos hblank]; rfl, by rw [if_pos hblank]⟩
  · have hblank : ¬ Draft.IsBlank { draft with isEditing := false } := fun hblank => hempty hblank.1
    rw [if_neg (by simpa using hempty)]
    exact ⟨rfl, by rw [if_neg hblank]; exact htext, by rw [if_neg hblank]; exact hcolor⟩

theorem Represents.changeText (h : Represents self draft) (hediting : self.isEditing = true)
    (text : String) : Represents (self.setText text) { draft with entered := text } := by
  have hdraft : draft.isEditing = true := h.isEditing.symm.trans hediting
  rw [hdraft]
  exact represents_editing hediting rfl (h.editing hediting).2

/-- With an image, the Post button takes everything but the text of the placeholder. -/
theorem isSome_postButton (himage : self.selectedImageData.isSome) :
    self.postButton.isSome ↔ self.text ≠ "Description" := by
  obtain ⟨data, hdata⟩ := Option.isSome_iff_exists.mp himage
  rw [postButton, hdata]
  by_cases htext : self.text = "Description" <;> simp [htext]

/-- **The text view through an event.** -/
theorem Represents.next (h : Represents self draft) (hs : composer.next self event = some self') :
    Represents self' (draft.next event) := by
  cases event with
  | edit event =>
      cases edited_of_edit hs with
      | beginEditing => exact h.beginEditing
      | endEditing hediting => exact h.endEditing hediting
      | changeText hediting text => exact h.changeText hediting text
      | selectImage => exact h.kept rfl rfl rfl
      | finishPicking results =>
          rw [didFinishPicking]
          split
          · exact h.kept rfl rfl rfl
          · split <;> exact h.kept rfl rfl rfl
      | load => exact h.kept rfl rfl rfl
      | @runBlock block queue =>
          rcases block with ⟨pick, _ | image⟩ | _ | error <;> exact h.kept rfl rfl rfl
  | tap =>
      obtain ⟨-, heq⟩ := Option.ite_none_right_eq_some.mp hs
      obtain ⟨posted, hpost, rfl⟩ := Option.map_eq_some_iff.mp heq
      rw [(postButton_eq_some hpost).2.2.2]
      exact h.kept rfl rfl rfl
  | emit out =>
      obtain rfl := Option.some.inj hs
      cases out <;> exact h.kept rfl rfl rfl

/-- **The text view shows the draft of its events.** -/
theorem represents_reachable {events : List (Composing.Event Edit Out)}
    (h : Lib.run composer.next composer.initial events = some self) :
    Represents self (drafted events) :=
  Lib.run_simulates (fun _ _ _ _ hself hs => hself.next hs) ⟨rfl, rfl, rfl⟩ h

/-! ## The two tests for the placeholder -/

/-- The placeholder is never confused with what was entered. -/
structure Distinguishes (controller : NewPostViewController) (draft : Draft) : Prop where
  /-- With an image, a tap is accepted if and only if something was entered. -/
  accepts : controller.selectedImageData.isSome →
    (controller.postButton.isSome ↔ draft.entered ≠ "")
  /-- A tap that is accepted takes what was entered. -/
  takes : ∀ posted, controller.postButton = some posted → posted.1 = draft.entered
  /-- The delegate and the Post action agree on whether this is the placeholder. -/
  agrees : controller.textColor = .placeholderText ↔ controller.text = "Description"

/-- The text is that of the placeholder when it is the placeholder, or was entered. -/
theorem Represents.text_iff (h : Represents self draft) :
    self.text = "Description" ↔ draft.IsBlank ∨ draft.entered = "Description" := by
  rw [h.text]
  by_cases hblank : draft.IsBlank <;> simp [hblank]

/-- A text view that shows a draft tells it apart from the placeholder, unless its text is
that of the placeholder or is empty while it is being edited. -/
theorem Represents.distinguishes (h : Represents self draft) : Distinguishes self draft ↔
    draft.entered ≠ "Description" ∧
      (self.selectedImageData.isSome → draft.isEditing → draft.entered ≠ "") := by
  constructor
  · intro hself
    refine ⟨fun hname => ?_, fun himage hediting hempty => ?_⟩
    · have hblank := h.textColor_iff.mp (hself.agrees.mpr (h.text_iff.mpr (.inr hname)))
      rw [hblank.1] at hname
      exact absurd hname (by decide)
    · refine (hself.accepts himage).mp ((isSome_postButton himage).mpr fun htext => ?_) hempty
      rcases h.text_iff.mp htext with hblank | hname
      · rw [hblank.2] at hediting
        cases hediting
      · rw [hempty] at hname
        exact absurd hname (by decide)
  · rintro ⟨hname, hediting⟩
    refine ⟨fun himage => ?_, fun posted hpost => ?_, ?_⟩
    · rw [isSome_postButton himage, Ne, h.text_iff, or_iff_left hname, Ne, not_iff_not]
      refine ⟨fun hblank => hblank.1, fun hempty => ⟨hempty, ?_⟩⟩
      exact Bool.eq_false_of_not_eq_true fun hedited => hediting himage hedited hempty
    · obtain ⟨-, htext, htaken, -⟩ := postButton_eq_some hpost
      have hblank : ¬ draft.IsBlank := fun hblank => htext (h.text_iff.mpr (.inl hblank))
      rw [htaken, h.text, if_neg hblank]
    · rw [h.textColor_iff, h.text_iff, or_iff_left hname]

/-- **The placeholder is told apart** from what was entered, in every reachable state, if and
only if the user has not entered its text, and with an image, is not editing an empty one. -/
theorem distinguishes_iff (events : List (Composing.Event Edit Out)) (self : NewPostViewController)
    (h : Lib.run composer.next composer.initial events = some self) :
    Distinguishes self (drafted events) ↔ (drafted events).entered ≠ "Description" ∧
      (self.selectedImageData.isSome → (drafted events).isEditing →
        (drafted events).entered ≠ "") :=
  (represents_reachable h).distinguishes

/-- An image is picked and loaded, and a text is entered. -/
def enter (text : String) : List (Composing.Event Edit Out) :=
  [.edit .selectImage, .edit (.finishPicking [⟨true⟩]), .edit (.load 0 (some ⟨some [0xFF]⟩)),
    .edit .runBlock, .edit .beginEditing, .edit (.changeText text), .edit .endEditing]

/-- An ordinary text is told apart. -/
theorem distinguishes_hello : ∃ self,
    Lib.run composer.next composer.initial (enter "hello") = some self ∧
      self.selectedImageData = some [0xFF] ∧ Distinguishes self ⟨"hello", false⟩ :=
  ⟨_, rfl, rfl, (distinguishes_iff (enter "hello") _ rfl).mpr (by decide)⟩

/-- The text of the placeholder is not: a tap is refused although it was entered. -/
theorem refusedDescription : ¬ ∀ (events : List (Composing.Event Edit Out))
    (self : NewPostViewController),
    Lib.run composer.next composer.initial events = some self →
    Distinguishes self (drafted events) := by
  intro h
  have haccepts := (h (enter "Description") _ rfl).accepts rfl
  exact absurd haccepts (by decide)

end FirebaseApps.SociallyUIKit.NewPostViewController
