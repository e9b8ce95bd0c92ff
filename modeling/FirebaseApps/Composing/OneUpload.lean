import FirebaseApps.SociallyApp.PostView
import FirebaseApps.SociallyUIKit.NewPostViewController

/-!
# One upload per composer

The screens of a new post of both apps, over any number of runs: a screen has one upload
in flight at a time and adds one document for each upload that it reports as done.
-/

namespace FirebaseApps.Composing

open SociallyApp (PostView)
open SociallyUIKit (NewPostViewController)

/-- **One upload per composer at a time**, and as many documents as reported successes, in
both apps. -/
theorem uploadsOnce_reachable (S : StorageService) (fb : Firebase) (uuids : List UUID) :
    (∀ w, Reachable NewPostViewController.composer S fb uuids w → ∀ screen,
      UploadsOnce NewPostViewController.composer w screen) ∧
    ∀ w, Reachable PostView.composer S fb uuids w → ∀ screen,
      UploadsOnce PostView.composer w screen :=
  ⟨fun _ hw screen => Composer.uploadsOnce_of_reachable hw screen,
    fun _ hw screen => Composer.uploadsOnce_of_reachable hw screen⟩

/-- The screen of the runs below. -/
def firstScreen : Screen := ⟨0, 0⟩

/-- A picture is picked and a text is entered. -/
def compose : List NewPostViewController.Edit :=
  [.selectImage, .finishPicking [⟨true⟩], .load 0 (some ⟨some [0xFF]⟩), .runBlock,
    .beginEditing, .changeText "hello", .endEditing]

/-- After `compose`, an upload fails, and a second tap posts picture and text. -/
def retryRun : List (Action NewPostViewController.Edit) :=
  compose.map (fun event => .act (.edit firstScreen event)) ++
  ([.start 0 firstScreen ⟨.sample, "hello", 0, [0xFF]⟩,
    .serve 0 0 (.failure ⟨"storage", 1, "offline"⟩), .deliver 0 0,
    .act (.edit firstScreen .runBlock),
    .start 1 firstScreen ⟨⟨"8B32", by decide⟩, "hello", 0, [0xFF]⟩,
    .serve 1 0 .success, .deliver 1 0, .serve 1 0 (.documentID "d"),
    .deliver 1 0] : List (Action NewPostViewController.Edit))

/-- A picture is selected and posted. -/
def selectRun : List (Action PostView.Edit) :=
  [.act (.edit firstScreen (.select [7])), .act (.edit firstScreen (.load 0 (.ok (some [0x89])))),
    .start 0 firstScreen ⟨.sample, "", 0, [0x89]⟩]

theorem uploadsOnce_retryRun :
    (∃ w : World NewPostViewController SociallyUIKit.Out,
      Lib.run (step NewPostViewController.composer .plain)
        (initial NewPostViewController.composer .empty []) retryRun = some w ∧
      (documents w firstScreen).encard =
        (successes NewPostViewController.composer w firstScreen).encard) ∧
    ∃ w : World PostView SociallyApp.Out,
      Lib.run (step PostView.composer .plain) (initial PostView.composer .empty []) selectRun =
        some w ∧ PostView.composer.isEnabled (w.env.composers firstScreen) = false := by
  constructor
  · refine ⟨_, rfl, ((uploadsOnce_reachable .plain .empty []).1 _ ⟨retryRun, rfl⟩
      firstScreen).counted ?_⟩
    rintro (_ | _ | i) ⟨op, hop, -, htasks⟩
    · obtain rfl := Option.some.inj hop
      exact htasks rfl
    · obtain rfl := Option.some.inj hop
      exact htasks rfl
    · cases hop
  · exact ⟨_, rfl, ((uploadsOnce_reachable .plain .empty []).2 _ ⟨selectRun, rfl⟩
      firstScreen).disabled 0 ⟨_, rfl, rfl, List.cons_ne_nil _ _⟩⟩

end FirebaseApps.Composing
