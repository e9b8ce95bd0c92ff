import FirebaseApps.Composing.Events
import FirebaseApps.Composing.OneUpload
import Mathlib.Data.List.MinMax

/-!
# Which picture is posted?

Each pick starts a load of its own, and both screens store the result of a load when it
comes, whichever pick it is of.  So the picture that a tap posts is the one that was
stored last, which need not be the one that was picked last; in `NewPostViewController` a
picture that cannot be encoded even takes the place of one that can.

Once all loads have ended, the picture to be posted is that of the latest pick if and only
if its load was stored last (`latest_posted_iff`).
-/

namespace FirebaseApps.Composing

/-! ## Results of loads -/

/-- What the loads of a run have given, in the order in which it was stored: the pick, and
its picture or `none`. -/
abbrev Results := List (ℕ × Option Data)

/-- The result of the latest pick that gave a picture. -/
def latestResult? (results : Results) : Option (ℕ × Option Data) :=
  (results.filter (·.2.isSome)).argmax Prod.fst

/-- The picture of the latest pick that gave one. -/
def latest (results : Results) : Option Data := (latestResult? results).bind Prod.snd

/-- The result that is stored last is that of the latest pick that gave a picture, or has the
same picture. -/
def InTurn (results : Results) : Prop :=
  ∀ last ∈ results.getLast?, ∀ result ∈ latestResult? results, last.2 = result.2

instance (results : Results) : Decidable (InTurn results) := by
  unfold InTurn
  infer_instance

/-- What is stored when the results come one after another. -/
def store (picture : Option Data) (results : Results) : Option Data :=
  results.foldl (fun _ result => result.2) picture

theorem store_append (picture : Option Data) (first second : Results) :
    store picture (first ++ second) = store (store picture first) second :=
  List.foldl_append

/-- **The last result wins**, so it has to be the right one. -/
theorem store_eq_latest_iff (results : Results) : store none results = latest results ↔
    InTurn results := by
  rcases results.eq_nil_or_concat' with rfl | ⟨first, last, rfl⟩
  · exact iff_of_true rfl fun last h => by cases h
  · have hstore : store none (first ++ [last]) = last.2 := by
      rw [store_append]
      rfl
    rw [hstore, InTurn, List.getLast?_concat, latest]
    cases hresult : latestResult? (first ++ [last]) with
    | some result =>
        simp
    | none =>
        -- no load gave a picture, the last one included
        have hnil := List.argmax_eq_none.mp hresult
        have hlast : last.2 = none := by
          have hmem := List.filter_eq_nil_iff.mp hnil last (by simp)
          simpa using hmem
        simp [hlast]

end FirebaseApps.Composing

/-! ## `PostView` -/

namespace FirebaseApps.SociallyApp.PostView

open Composing

/-- What an event of `PostView` stores: a load that fails, or has no data, stores nothing. -/
def result? : Composing.Event Edit Out → Option (ℕ × Option Data)
  | .edit (.load pick (.ok (some data))) => some (pick, some data)
  | _ => none

/-- The picture that a tap in `PostView` hands to `addData`. -/
def picture (self : PostView) : Option Data := self.postButton.map fun posted => posted.2.1

theorem picture_eq (self : PostView) : self.picture = self.data := by
  unfold picture postButton
  cases self.data <;> rfl

/-- **An event of `PostView`** stores what its load gives. -/
theorem data_next {self self' : PostView} {event : Composing.Event Edit Out}
    (h : composer.next self event = some self') :
    self'.data = store self.data (result? event).toList := by
  cases event with
  | edit event =>
      cases event with
      | changeText text => obtain rfl := Option.some.inj h; rfl
      | select items =>
          obtain ⟨-, heq⟩ := Option.ite_none_right_eq_some.mp h
          obtain rfl := Option.some.inj heq
          unfold onChange
          split <;> rfl
      | load pick result =>
          obtain ⟨-, heq⟩ := Option.ite_none_right_eq_some.mp h
          obtain rfl := Option.some.inj heq
          rcases result with _ | _ | data <;> rfl
  | tap =>
      obtain ⟨-, heq⟩ := Option.ite_none_right_eq_some.mp h
      obtain ⟨⟨description, data, self'⟩, hpost, rfl⟩ := Option.map_eq_some_iff.mp heq
      simp only [composer, postButton] at hpost
      split at hpost
      · cases hpost
      · obtain ⟨-, -, rfl⟩ := Prod.mk.inj (Option.some.inj hpost)
        rfl
  | emit out =>
      obtain rfl := Option.some.inj h
      rcases out with (_ | error) | _ <;> rfl

end FirebaseApps.SociallyApp.PostView

/-! ## `NewPostViewController` -/

namespace FirebaseApps.SociallyUIKit.NewPostViewController

open Composing

/-- What an event of `NewPostViewController` stores: an image, as JPEG if it can be encoded. -/
def result? : Composing.Event Edit Out → Option (ℕ × Option Data)
  | .edit (.load pick (some image)) => some (pick, image.jpegData)
  | _ => none

/-- The picture that a tap in `NewPostViewController` hands to `addData`, when it accepts the
description. -/
def picture (self : NewPostViewController) : Option Data :=
  (postButton { self with text := "" }).map fun posted => posted.2.1

theorem picture_eq (self : NewPostViewController) : self.picture = self.selectedImageData := by
  unfold picture postButton
  cases self.selectedImageData <;> rfl

/-- No image waits on the main queue to be stored. -/
def AllStored (self : NewPostViewController) : Prop := ∀ block ∈ self.queue, block.isUploaded = true

instance (self : NewPostViewController) : Decidable self.AllStored := by
  unfold AllStored
  infer_instance

/-- What a block of the main queue stores. -/
def blockResult? : Block → Option (ℕ × Option Data)
  | .loaded pick (some image) => some (pick, image.jpegData)
  | _ => none

/-- The picture that is stored when the main queue has run. -/
def settled (self : NewPostViewController) : Option Data :=
  store self.selectedImageData (self.queue.filterMap blockResult?)

/-- Nothing that is stored, or waits to be, has changed. -/
theorem settled_congr {self self' : NewPostViewController}
    (hdata : self'.selectedImageData = self.selectedImageData) (hqueue : self'.queue = self.queue) :
    self'.settled = self.settled := by
  rw [settled, settled, hdata, hqueue]

/-- **An event of `NewPostViewController`** stores what its load gives, when the main queue
has run. -/
theorem settled_next {self self' : NewPostViewController} {event : Composing.Event Edit Out}
    (h : composer.next self event = some self') :
    self'.settled = store self.settled (result? event).toList := by
  have hqueued : ∀ block, self'.selectedImageData = self.selectedImageData →
      self'.queue = self.queue ++ [block] →
      self'.settled = store self.settled (blockResult? block).toList := by
    intro block hdata hqueue
    rw [settled, hdata, hqueue, List.filterMap_append, store_append]
    cases hblock : blockResult? block <;> simp [hblock, settled]
  cases event with
  | edit event =>
      cases edited_of_edit h with
      | beginEditing =>
          refine settled_congr ?_ ?_ <;>
            (unfold textViewDidBeginEditing; split <;> rfl)
      | endEditing =>
          refine settled_congr ?_ ?_ <;>
            (unfold textViewDidEndEditing; split <;> rfl)
      | changeText => exact settled_congr rfl rfl
      | selectImage => exact settled_congr rfl rfl
      | finishPicking results =>
          refine settled_congr ?_ (self.didFinishPicking_kept results).2
          simp only [didFinishPicking]
          split
          · rfl
          · split <;> rfl
      | load pick image =>
          rw [hqueued (.loaded pick image) rfl rfl]
          cases image <;> rfl
      | @runBlock block queue hqueue =>
          rw [settled, settled, hqueue]
          rcases block with ⟨pick, _ | image⟩ | _ | error <;> rfl
  | tap =>
      obtain ⟨-, heq⟩ := Option.ite_none_right_eq_some.mp h
      obtain ⟨posted, hpost, rfl⟩ := Option.map_eq_some_iff.mp heq
      rw [(postButton_eq_some hpost).2.2.2]
      exact settled_congr rfl rfl
  | emit out =>
      obtain rfl := Option.some.inj h
      cases out with
      | added error => exact hqueued (.uploaded error) rfl rfl
      | updated result => exact settled_congr rfl rfl
      | deleted result => exact settled_congr rfl rfl

/-- When no image waits, what is stored is what the main queue leaves. -/
theorem AllStored.settled_eq {self : NewPostViewController} (h : self.AllStored) :
    self.settled = self.selectedImageData := by
  have hnil : self.queue.filterMap blockResult? = [] := by
    refine List.filterMap_eq_nil_iff.mpr fun block hblock => ?_
    have hup := h block hblock
    cases block with
    | loaded pick image => cases hup
    | uploaded error => rfl
  rw [settled, hnil]
  rfl

end FirebaseApps.SociallyUIKit.NewPostViewController

/-! ## The picture that is posted -/

namespace FirebaseApps.Composing

open SociallyApp (PostView)
open SociallyUIKit (NewPostViewController)

variable {C E Out : Type}

/-- What the loads of a run give, in the order in which they end. -/
def results (result? : Event E Out → Option (ℕ × Option Data)) (events : List (Event E Out)) :
    Results := events.filterMap result?

/-- Along a run, results are stored one after another. -/
theorem store_results {K : Composer C E Out} {result? : Event E Out → Option (ℕ × Option Data)}
    {picture : C → Option Data}
    (hnext : ∀ c event c', K.next c event = some c' →
      picture c' = store (picture c) (result? event).toList)
    {events : List (Event E Out)} {c : C} (h : Lib.run K.next K.initial events = some c) :
    picture c = store (picture K.initial) (results result? events) := by
  have hfold : picture c = events.foldl (fun stored event => store stored (result? event).toList)
      (picture K.initial) := Lib.run_foldl hnext h
  rw [hfold, results, store, List.foldl_filterMap]
  congr 1
  funext stored event
  cases result? event <;> rfl

/-- **The picture that is posted**, in either app, is that of the latest pick whose load has
given one, if and only if the result that was stored last is that of this pick (or is the
same picture). -/
theorem latest_posted_iff (events : List (Event PostView.Edit SociallyApp.Out))
    (eventsUIKit : List (Event NewPostViewController.Edit SociallyUIKit.Out)) :
    (∀ self, Lib.run PostView.composer.next PostView.composer.initial events = some self →
      (self.picture = latest (results PostView.result? events) ↔
        InTurn (results PostView.result? events))) ∧
    ∀ self,
      Lib.run NewPostViewController.composer.next NewPostViewController.composer.initial
        eventsUIKit = some self → self.AllStored →
      (self.picture = latest (results NewPostViewController.result? eventsUIKit) ↔
        InTurn (results NewPostViewController.result? eventsUIKit)) := by
  constructor
  · intro self hrun
    have hdata : self.data = store none (results PostView.result? events) :=
      store_results (fun _ _ _ => PostView.data_next) hrun
    rw [PostView.picture_eq, hdata, store_eq_latest_iff]
  · intro self hrun hstored
    have hsettled : self.settled = store none (results NewPostViewController.result? eventsUIKit) :=
      store_results (fun _ _ _ => NewPostViewController.settled_next) hrun
    rw [NewPostViewController.picture_eq, ← hstored.settled_eq, hsettled, store_eq_latest_iff]

/-- Two pictures are picked in `PostView`, and loaded in the order of `loads`. -/
def twoPicks (loads : List ℕ) : List (Event PostView.Edit SociallyApp.Out) :=
  [.edit (.select [7]), .edit (.select [8])] ++
    loads.map fun pick => .edit (.load pick (.ok (some [UInt8.ofNat pick])))

/-- Two pictures are picked in `NewPostViewController`, and loaded in the order of `loads`. -/
def twoPicksUIKit (loads : List ℕ) : List (Event NewPostViewController.Edit SociallyUIKit.Out) :=
  [.edit .selectImage, .edit (.finishPicking [⟨true⟩]), .edit .selectImage,
    .edit (.finishPicking [⟨true⟩])] ++
    (loads.map fun pick => .edit (.load pick (some ⟨some [UInt8.ofNat pick]⟩))) ++
    [.edit .runBlock, .edit .runBlock]

/-- Where the loads end in turn, the picture picked last is posted. -/
theorem latest_posted_inTurn :
    (∃ self, Lib.run PostView.composer.next PostView.composer.initial (twoPicks [0, 1]) =
      some self ∧ self.picture = some [1]) ∧
    ∃ self, Lib.run NewPostViewController.composer.next NewPostViewController.composer.initial
      (twoPicksUIKit [0, 1]) = some self ∧ self.picture = some [1] := by
  constructor
  · exact ⟨_, rfl, ((latest_posted_iff (twoPicks [0, 1]) []).1 _ rfl).mpr (by decide)⟩
  · exact ⟨_, rfl, ((latest_posted_iff [] (twoPicksUIKit [0, 1])).2 _ rfl (by decide)).mpr
      (by decide)⟩

/-- An earlier pick is posted: the load of the first picture ends last. -/
theorem earlierPickPosted :
    (¬ ∀ events self,
      Lib.run PostView.composer.next PostView.composer.initial events = some self →
      self.loads = [] → self.picture = latest (results PostView.result? events)) ∧
    ¬ ∀ events self,
      Lib.run NewPostViewController.composer.next NewPostViewController.composer.initial events =
        some self → self.loads = [] → self.AllStored →
      self.picture = latest (results NewPostViewController.result? events) := by
  constructor
  · intro h
    have hlast := h (twoPicks [1, 0]) _ rfl rfl
    exact absurd hlast (by decide)
  · intro h
    have hlast := h (twoPicksUIKit [1, 0]) _ rfl rfl (by decide)
    exact absurd hlast (by decide)

end FirebaseApps.Composing
