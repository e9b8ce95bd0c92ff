import FirebaseApps.Composing.Composer
import FirebaseApps.SociallyUIKit.System

/-!
# Socially-UIKit: the screen of a new post

`NewPostViewController` keeps its text view, its picture and its Post button by hand.  The
placeholder of the text view is ordinary text in another colour, a picked image is loaded
elsewhere and handed over on the main queue, and the completion of `addData` enables the
button in a block on the main queue.  Layout and console output are left out.
-/

namespace FirebaseApps.SociallyUIKit

/-- A `UIImage`, by its `jpegData(compressionQuality: 0.8)`. -/
structure UIImage where
  jpegData : Option Data
  deriving DecidableEq, Repr

/-- The colours of the description. -/
inductive UIColor
  | placeholderText
  | label
  deriving DecidableEq, Repr

/-- An `NSItemProvider`, by its `canLoadObject(ofClass: UIImage.self)`. -/
structure NSItemProvider where
  canLoadObject : Bool
  deriving DecidableEq, Repr

/-- A block that the screen has put on the main queue. -/
inductive Block
  /-- The image of a pick has been loaded, or could not be. -/
  | loaded (pick : ℕ) (image : Option UIImage)
  /-- `addData` has called its completion. -/
  | uploaded (error : Option NSError)
  deriving DecidableEq, Repr

/-- The completion of `addData` has run, but not its block. -/
def Block.isUploaded : Block → Bool
  | .loaded .. => false
  | .uploaded _ => true

/-- `NewPostViewController`. -/
structure NewPostViewController where
  /-- `descriptionTextView.text`. -/
  text : String := "Description"
  textColor : UIColor := .placeholderText
  isEditing : Bool := false
  /-- `imageView.image`. -/
  image : Option UIImage := none
  selectedImageData : Option Data := none
  /-- `selectImageButton.isHidden`. -/
  isHidden : Bool := false
  /-- `postButton.isEnabled`. -/
  isEnabled : Bool := true
  /-- An image picker is on the screen. -/
  isPicking : Bool := false
  /-- How many loads have been started; they are numbered. -/
  picks : ℕ := 0
  /-- The loads that have not ended. -/
  loads : List ℕ := []
  /-- The blocks on the main queue, the next one first. -/
  queue : List Block := []
  isDismissed : Bool := false
  deriving DecidableEq, Repr

namespace NewPostViewController

/-- What a user, the image picker and the main queue do. -/
inductive Edit
  | beginEditing
  | endEditing
  /-- The user changes the text to this. -/
  | changeText (text : String)
  /-- The button that selects an image is tapped. -/
  | selectImage
  | finishPicking (results : List NSItemProvider)
  /-- A load ends. -/
  | load (pick : ℕ) (image : Option UIImage)
  /-- The main queue runs its next block. -/
  | runBlock
  deriving DecidableEq, Repr

/-- `textView.text = text`; a text view without text has the empty one. -/
def setText (self : NewPostViewController) (text : Option String) : NewPostViewController :=
  { self with text := text.getD "" }

/-- `textViewDidBeginEditing(_:)`. -/
def textViewDidBeginEditing (self : NewPostViewController) : NewPostViewController :=
  if self.textColor = .placeholderText then { self.setText none with textColor := .label }
  else self

/-- `textViewDidEndEditing(_:)`. -/
def textViewDidEndEditing (self : NewPostViewController) : NewPostViewController :=
  if self.text.isEmpty then { self.setText "Description" with textColor := .placeholderText }
  else self

/-- `picker(_:didFinishPicking:)`: the first result is loaded, if it is an image. -/
def didFinishPicking (self : NewPostViewController) (results : List NSItemProvider) :
    NewPostViewController :=
  let self := { self with isPicking := false }
  match results.head? with
  | none => self
  | some provider =>
    if provider.canLoadObject then
      { self with picks := self.picks + 1, loads := self.loads ++ [self.picks] }
    else self

/-- The action of `postButton`: the description and the data that it hands to `addData`. -/
def postButton (self : NewPostViewController) :
    Option (String × Data × NewPostViewController) :=
  match self.selectedImageData with
  | none => none
  | some imageData =>
    if self.text ≠ "Description" then some (self.text, imageData, { self with isEnabled := false })
    else none

/-- The completion that `postButton` passes to `addData`. -/
def completion (self : NewPostViewController) (error : Option NSError) : NewPostViewController :=
  { self with queue := self.queue ++ [.uploaded error] }

/-- A block of the main queue runs. -/
def run (self : NewPostViewController) : Block → NewPostViewController
  | .loaded _ none => self
  | .loaded _ (some image) =>
      { self with image := some image, selectedImageData := image.jpegData, isHidden := true }
  | .uploaded (some _) => { self with isEnabled := true }
  | .uploaded none => { self with isEnabled := true, isDismissed := true }

/-- An event of the screen.  Text changes only while it is edited, a hidden button cannot
be tapped, and a picker is closed before the next one is opened. -/
def edit (self : NewPostViewController) : Edit → Option NewPostViewController
  | .beginEditing =>
      if self.isEditing then none
      else some { self.textViewDidBeginEditing with isEditing := true }
  | .endEditing =>
      if self.isEditing then some { self.textViewDidEndEditing with isEditing := false } else none
  | .changeText text => if self.isEditing then some (self.setText text) else none
  | .selectImage =>
      if self.isHidden ∨ self.isPicking then none else some { self with isPicking := true }
  | .finishPicking results => if self.isPicking then some (self.didFinishPicking results) else none
  | .load pick image =>
      if pick ∈ self.loads then
        some { self with
          loads := self.loads.erase pick
          queue := self.queue ++ [.loaded pick image] }
      else none
  | .runBlock =>
      match self.queue with
      | [] => none
      | block :: queue => some ({ self with queue := queue }.run block)

/-- What an effect of `addData` does to the screen. -/
def emit (self : NewPostViewController) : Out → NewPostViewController
  | .added error => self.completion error
  | _ => self

/-- The completions whose block has not run. -/
def due (self : NewPostViewController) : ℕ := self.queue.countP Block.isUploaded

/-- The ways in which an event can go, with what it leaves. -/
inductive Edited (self : NewPostViewController) : Edit → NewPostViewController → Prop
  | beginEditing : Edited self .beginEditing { self.textViewDidBeginEditing with isEditing := true }
  | endEditing (hediting : self.isEditing = true) :
      Edited self .endEditing { self.textViewDidEndEditing with isEditing := false }
  | changeText (hediting : self.isEditing = true) (text : String) :
      Edited self (.changeText text) (self.setText text)
  | selectImage : Edited self .selectImage { self with isPicking := true }
  | finishPicking (results : List NSItemProvider) :
      Edited self (.finishPicking results) (self.didFinishPicking results)
  | load (pick : ℕ) (image : Option UIImage) : Edited self (.load pick image)
      { self with loads := self.loads.erase pick, queue := self.queue ++ [.loaded pick image] }
  | runBlock {block : Block} {queue : List Block} (hqueue : self.queue = block :: queue) :
      Edited self .runBlock ({ self with queue := queue }.run block)

/-- **An event goes in one of these ways.** -/
theorem edited_of_edit {self self' : NewPostViewController} {event : Edit}
    (h : self.edit event = some self') : Edited self event self' := by
  cases event with
  | beginEditing =>
      obtain ⟨-, heq⟩ := Option.ite_none_left_eq_some.mp h
      exact Option.some.inj heq ▸ .beginEditing
  | endEditing =>
      obtain ⟨hediting, heq⟩ := Option.ite_none_right_eq_some.mp h
      exact Option.some.inj heq ▸ .endEditing hediting
  | changeText text =>
      obtain ⟨hediting, heq⟩ := Option.ite_none_right_eq_some.mp h
      exact Option.some.inj heq ▸ .changeText hediting text
  | selectImage =>
      obtain ⟨-, heq⟩ := Option.ite_none_left_eq_some.mp h
      exact Option.some.inj heq ▸ .selectImage
  | finishPicking results =>
      obtain ⟨-, heq⟩ := Option.ite_none_right_eq_some.mp h
      exact Option.some.inj heq ▸ .finishPicking results
  | load pick image =>
      obtain ⟨-, heq⟩ := Option.ite_none_right_eq_some.mp h
      exact Option.some.inj heq ▸ .load pick image
  | runBlock =>
      simp only [edit] at h
      split at h
      · cases h
      next block queue hqueue => exact Option.some.inj h ▸ .runBlock hqueue

/-- What a tap of the Post button takes. -/
theorem postButton_eq_some {self : NewPostViewController}
    {posted : String × Data × NewPostViewController} (h : self.postButton = some posted) :
    self.selectedImageData = some posted.2.1 ∧ self.text ≠ "Description" ∧
      posted.1 = self.text ∧ posted.2.2 = { self with isEnabled := false } := by
  unfold postButton at h
  split at h
  · cases h
  next data hdata =>
    obtain ⟨htext, heq⟩ := Option.ite_none_right_eq_some.mp h
    obtain rfl := Option.some.inj heq
    exact ⟨hdata, htext, rfl, rfl⟩

/-! ## The screen as a composer -/

/-- Running a block enables the button only after an upload. -/
theorem run_kept (self : NewPostViewController) (block : Block) :
    (self.run block).queue = self.queue ∧
      (block.isUploaded = false → (self.run block).isEnabled = self.isEnabled) := by
  rcases block with ⟨pick, _ | image⟩ | _ | error <;> simp [run, Block.isUploaded]

/-- The editing of the text changes neither the button nor the main queue. -/
theorem textView_kept (self : NewPostViewController) :
    (self.textViewDidBeginEditing.isEnabled = self.isEnabled ∧
      self.textViewDidBeginEditing.queue = self.queue) ∧
    self.textViewDidEndEditing.isEnabled = self.isEnabled ∧
      self.textViewDidEndEditing.queue = self.queue := by
  constructor
  · rw [textViewDidBeginEditing]
    split <;> exact ⟨rfl, rfl⟩
  · rw [textViewDidEndEditing]
    split <;> exact ⟨rfl, rfl⟩

/-- Neither does picking an image. -/
theorem didFinishPicking_kept (self : NewPostViewController) (results : List NSItemProvider) :
    (self.didFinishPicking results).isEnabled = self.isEnabled ∧
      (self.didFinishPicking results).queue = self.queue := by
  simp only [didFinishPicking]
  split
  · exact ⟨rfl, rfl⟩
  · split <;> exact ⟨rfl, rfl⟩

/-- **What an event does to the Post button**: it enables it only by running the block of a
completion. -/
theorem edit_kept {self self' : NewPostViewController} {event : Edit}
    (h : self.edit event = some self') :
    ((self'.isEnabled → self.isEnabled) ∧ self'.due = self.due) ∨ self.due = self'.due + 1 := by
  have hkept : self'.isEnabled = self.isEnabled ∧ self'.queue = self.queue →
      ((self'.isEnabled → self.isEnabled) ∧ self'.due = self.due) ∨ self.due = self'.due + 1 := by
    rintro ⟨henabled, hqueue⟩
    exact .inl ⟨fun hi => henabled ▸ hi, by rw [due, due, hqueue]⟩
  cases edited_of_edit h with
  | beginEditing => exact hkept self.textView_kept.1
  | endEditing => exact hkept self.textView_kept.2
  | changeText => exact hkept ⟨rfl, rfl⟩
  | selectImage => exact hkept ⟨rfl, rfl⟩
  | finishPicking results => exact hkept (self.didFinishPicking_kept results)
  | load => exact .inl ⟨id, by simp [due, Block.isUploaded]⟩
  | @runBlock block queue hqueue =>
      obtain ⟨hsame, henabled⟩ := run_kept { self with queue := queue } block
      rw [due, due, hsame, hqueue, List.countP_cons]
      cases hblock : block.isUploaded with
      | false => exact .inl ⟨fun hi => henabled hblock ▸ hi, by simp⟩
      | true => exact .inr (by simp)

/-- The screen as a composer. -/
def composer : Composing.Composer NewPostViewController Edit Out where
  initial := {}
  isEnabled := isEnabled
  post := postButton
  addData path description datePublished data :=
    addData path description datePublished data fun error => .call (.added error) .done
  added := .added
  emit := emit
  edit := edit
  due := due
  initial_due := rfl
  post_eq_some {self description data self'} h := by
    simp only [postButton] at h
    split at h
    · cases h
    · obtain ⟨-, heq⟩ := Option.ite_none_right_eq_some.mp h
      obtain ⟨-, -, rfl⟩ := Prod.mk.inj (Option.some.inj heq)
      exact ⟨rfl, rfl⟩
  emit_due self out := by
    cases out with
    | added error => exact .inr ⟨by simp [emit, completion, due, Block.isUploaded], id⟩
    | updated result => exact .inl rfl
    | deleted result => exact .inl rfl
  edit_eq_some := edit_kept
  linear_addData path description date data :=
    Call.linear_code .plain (.addData path description date data)
  reportsLast_addData path description date data := by
    refine ⟨fun error => ?_, rfl⟩
    cases error with
    | some error => exact rfl
    | none => exact fun currentUser => ⟨fun error => rfl, rfl⟩
  reported_addData h ho := by
    obtain ⟨error, rfl, -, hends⟩ := ends_addData h (.inr (List.ne_nil_of_mem ho))
    refine ⟨error, List.mem_singleton.mp ho, ?_⟩
    cases hends with
    | published user d => exact ⟨d, rfl⟩
    | _ => rfl
  added_injective _ _ h := Out.added.inj h

end NewPostViewController
end FirebaseApps.SociallyUIKit
