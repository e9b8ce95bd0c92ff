import FirebaseApps.Composing.Composer
import FirebaseApps.SociallyApp.Uploads

/-!
# SociallyApp: the screen of a new post

`PostView` binds a text field to `description` and a photo picker to `selectedItem`.  A
change of the selection starts a load, whose result is stored when it comes; the
completion of `addData` enables the Post button at once.  Layout and console output are
left out.
-/

namespace FirebaseApps.SociallyApp

/-- A `PhotosPickerItem`, of which only its identity is used. -/
abbrev PhotosPickerItem := ℕ

/-- `PostView`. -/
structure PostView where
  description : String := ""
  isUploading : Bool := false
  data : Option Data := none
  selectedItem : List PhotosPickerItem := []
  /-- How many loads have been started; they are numbered. -/
  picks : ℕ := 0
  /-- The loads that have not ended. -/
  loads : List ℕ := []
  isDismissed : Bool := false
  deriving DecidableEq, Repr

namespace PostView

/-- What a user, the photo picker and its loads do. -/
inductive Edit
  /-- The text field gets this text. -/
  | changeText (text : String)
  /-- The photo picker selects these items. -/
  | select (items : List PhotosPickerItem)
  /-- A load ends. -/
  | load (pick : ℕ) (result : Except NSError (Option Data))

/-- `onChange(of: selectedItem)`: the selected item is loaded. -/
def onChange (self : PostView) : PostView :=
  match self.selectedItem.head? with
  | none => self
  | some _ => { self with picks := self.picks + 1, loads := self.loads ++ [self.picks] }

/-- The callback of `loadTransferable(type: Data.self)`. -/
def loaded (self : PostView) : Except NSError (Option Data) → PostView
  | .ok (some data) => { self with data := some data }
  | .ok none | .error _ => self

/-- The action of the Post button: the description and the data that it hands to `addData`;
`none` is the trap at `data!`. -/
def postButton (self : PostView) : Option (String × Data × PostView) :=
  let self := { self with isUploading := true }
  match self.data with
  | none => none
  | some data => some (self.description, data, self)

/-- The completion that `postButton` passes to `addData`. -/
def completion (self : PostView) (error : Option NSError) : PostView :=
  let self := { self with isUploading := false }
  match error with
  | some _ => self
  | none => { self with isDismissed := true }

/-- An event of the screen.  The picker selects one item at most, and only a change of the
selection is noticed. -/
def edit (self : PostView) : Edit → Option PostView
  | .changeText text => some { self with description := text }
  | .select items =>
      if items.length ≤ 1 ∧ items ≠ self.selectedItem then
        some { self with selectedItem := items }.onChange
      else none
  | .load pick result =>
      if pick ∈ self.loads then
        some ({ self with loads := self.loads.erase pick }.loaded result)
      else none

/-- What an effect of `addData` does to the screen. -/
def emit (self : PostView) : Out → PostView
  | .added error => self.completion error
  | .refreshUser => self

/-! ## The screen as a composer -/

/-- Events do not touch the Post button. -/
theorem isUploading_edit {self self' : PostView} {event : Edit}
    (h : self.edit event = some self') : self'.isUploading = self.isUploading := by
  cases event with
  | changeText text => obtain rfl := Option.some.inj h; rfl
  | select items =>
      obtain ⟨-, heq⟩ := Option.ite_none_right_eq_some.mp h
      obtain rfl := Option.some.inj heq
      rw [onChange]
      split <;> rfl
  | load pick result =>
      obtain ⟨-, heq⟩ := Option.ite_none_right_eq_some.mp h
      obtain rfl := Option.some.inj heq
      rcases result with _ | _ | data <;> rfl

/-- The screen as a composer. -/
def composer : Composing.Composer PostView Edit Out where
  initial := {}
  isEnabled self := !self.isUploading
  post := postButton
  addData fileUUID description datePublished data :=
    PostViewModel.addData fileUUID description datePublished data
      fun error => .call (.added error) .done
  added := .added
  emit := emit
  edit := edit
  due _ := 0
  initial_due := rfl
  post_eq_some {self description data self'} h := by
    simp only [postButton] at h
    split at h
    · cases h
    · obtain ⟨-, -, rfl⟩ := Prod.mk.inj (Option.some.inj h)
      exact ⟨rfl, rfl⟩
  emit_due _ _ := .inl rfl
  edit_eq_some h := .inl ⟨by rw [isUploading_edit h]; exact id, rfl⟩
  linear_addData fileUUID description date data :=
    Call.linear_code (.addData fileUUID description date data)
  reportsLast_addData fileUUID description date data := by
    refine ⟨fun error => ?_, rfl⟩
    cases error with
    | some error => exact rfl
    | none =>
        refine ⟨fun answer => ?_, rfl⟩
        obtain ⟨_ | url, _ | error⟩ := answer
        · exact rfl
        · exact rfl
        · exact ⟨fun error => rfl, rfl⟩
        · exact rfl
  reported_addData h ho := by
    obtain ⟨error, rfl, -, hends⟩ := PostViewModel.ends_addData h (.inr (List.ne_nil_of_mem ho))
    refine ⟨error, List.mem_singleton.mp ho, ?_⟩
    cases hends with
    | published d => exact ⟨d, rfl⟩
    | _ => rfl
  added_injective _ _ h := Out.added.inj h

end PostView
end FirebaseApps.SociallyApp
