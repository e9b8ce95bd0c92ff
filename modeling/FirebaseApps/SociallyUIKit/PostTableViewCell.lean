import FirebaseApps.Lib.Run
import FirebaseApps.SociallyUIKit.Post
import Mathlib.Data.List.Basic

/-!
# Socially-UIKit: a row of the feed

The table view recycles its cells, so one `PostTableViewCell` is configured for one post
after another while image downloads for earlier posts are still running.  Kingfisher
tells a download that is out of date by the task identifier of the image view:
`setImage` puts a new one there, and a finished download sets the image only if its
identifier is still there.  The branch of `configureItem` for a post without an image
URL assigns the image directly and leaves the identifier of an earlier post in place.

Fonts, constraints and the activity indicator are left out, and so are the options of
the download.

A cell shows only its current post exactly as long as no download of an earlier one succeeds
under the current identifier for a post without an image URL (`always_shows_iff`).
-/

namespace FirebaseApps.SociallyUIKit

open Lib (Always StepsMeet)

/-! ## The cell -/

section cell
variable (URL : Type)

/-- What an image view shows: `UIImage(systemName: "photo.artframe")`, or the image that was
downloaded from a URL. -/
inductive Picture
  | photoArtframe
  | downloaded (url : URL)
  deriving DecidableEq

/-- An image view, with the task identifier that Kingfisher keeps in it. -/
structure PostImageView where
  image : Option (Picture URL)
  taskIdentifier : Option ℕ
  deriving DecidableEq

/-- A subview of the content view; a control opens the details of a post. -/
inductive Subview
  | descriptionLabel
  | postImageView
  | control (post : Post)
  deriving DecidableEq

/-- `subview is UIControl`. -/
def Subview.isControl : Subview → Bool
  | control _ => true
  | _ => false

/-- `PostTableViewCell`. -/
structure PostTableViewCell where
  /-- `descriptionLabel.text`. -/
  text : Option String
  postImageView : PostImageView URL
  /-- `contentView.subviews`. -/
  subviews : List Subview
  deriving DecidableEq

/-- A download that Kingfisher has started for the image view. -/
structure Download where
  identifier : ℕ
  url : URL
  deriving DecidableEq

/-- A cell, the downloads under way for it, and what has been started and shown so far. -/
structure Row where
  cell : PostTableViewCell URL
  /-- The number of identifiers that Kingfisher has issued. -/
  issued : ℕ
  downloads : List (Download URL)
  /-- The post that the cell was configured for last. -/
  item : Option Post
  deriving DecidableEq

end cell

variable {URL : Type}


/-- `init(style:reuseIdentifier:)`. -/
def PostTableViewCell.new : PostTableViewCell URL :=
  ⟨none, ⟨none, none⟩, [.descriptionLabel, .postImageView]⟩

/-- A row that has just been created. -/
def Row.new : Row URL := ⟨.new, 0, [], none⟩

namespace Row

/-- `postImageView.kf.setImage(with: url, placeholder: …)`. -/
def setImage (self : Row URL) (url : URL) : Row URL :=
  { self with
    cell.postImageView := ⟨some .photoArtframe, some self.issued⟩
    issued := self.issued + 1
    downloads := self.downloads ++ [⟨self.issued, url⟩] }

/-- A download finishes. -/
def finish [DecidableEq URL] (self : Row URL) (download : Download URL) (success : Bool) :
    Row URL :=
  let self := { self with downloads := self.downloads.erase download }
  if self.cell.postImageView.taskIdentifier = some download.identifier then
    { self with
      cell.postImageView :=
        ⟨if success then some (.downloaded download.url) else self.cell.postImageView.image, none⟩ }
  else self

end Row

/-- What `configureItem` asks for: a post without an image URL has its thumbnail looked up. -/
def PostTableViewCell.lookup (item : Post) : Code :=
  match item.imageURL, item.path with
  | none, some path => item.checkImageURL path
  | _, _ => .done

/-- `configureItem(with:)`: the row, and what it asks for; `none` is the trap at
`URL(string: imageURL)!`. -/
def Row.configureItem (string : String → Option URL) (self : Row URL) (item : Post) :
    Option (Row URL × Code) :=
  let self := { self with cell.text := item.description }
  match item.imageURL with
  | some imageURL =>
      (string imageURL).map fun url => (self.setImage url, PostTableViewCell.lookup item)
  | none =>
      some ({ self with cell.postImageView.image := some .photoArtframe },
        PostTableViewCell.lookup item)

/-- The cell provider of `configureDataSource()`: the cell is configured, its old controls are
removed, and it gets a control that opens the post. -/
def Row.cellProvider (string : String → Option URL) (self : Row URL) (item : Post) :
    Option (Row URL × Code) :=
  (self.configureItem string item).map fun (self, code) =>
    ({ self with
       cell.subviews := self.cell.subviews.filter (!·.isControl) ++ [.control item]
       item := some item }, code)

/-- What happens to a row. -/
inductive Row.Event (URL : Type)
  /-- The cell is used for this post. -/
  | configure (item : Post)
  | finish (download : Download URL) (success : Bool)

/-- One event of a row. -/
def Row.step [DecidableEq URL] (string : String → Option URL) (self : Row URL) :
    Row.Event URL → Option (Row URL)
  | .configure item => (self.cellProvider string item).map Prod.fst
  | .finish download success =>
      if download ∈ self.downloads then some (self.finish download success) else none

/-! ## What a cell shows -/

/-- A cell that is configured for this post shows its description, opens it, and shows the
placeholder or the post's own image. -/
structure Shows (string : String → Option URL) (item : Post) (cell : PostTableViewCell URL) :
    Prop where
  text : cell.text = item.description
  control : cell.subviews.filter Subview.isControl = [.control item]
  image : cell.postImageView.image = some .photoArtframe ∨
    ∃ imageURL url, item.imageURL = some imageURL ∧ string imageURL = some url ∧
      cell.postImageView.image = some (.downloaded url)

/-- The cell shows the post that it was configured for last. -/
def ShowsCurrent (string : String → Option URL) (self : Row URL) : Prop :=
  ∀ item, self.item = some item → Shows string item self.cell

/-- A download that succeeds while the cell is configured for a post without image URL does not
have the current identifier. -/
def NotLate (self : Row URL) : Row.Event URL → Prop
  | .finish download true => ∀ item ∈ self.item, item.imageURL = none →
      self.cell.postImageView.taskIdentifier ≠ some download.identifier
  | _ => True

instance (self : Row URL) : (event : Row.Event URL) → Decidable (NotLate self event)
  | .finish download true => by unfold NotLate; infer_instance
  | .finish _ false | .configure _ => isTrue trivial

/-! ## Identifiers and downloads -/

/-- Identifiers are issued once, and the current one, on a cell that is configured for a
post with an image URL, is that of a download from this URL. -/
structure Identified (string : String → Option URL) (row : Row URL) : Prop where
  issued : ∀ download ∈ row.downloads, download.identifier < row.issued
  valid : ∀ item imageURL, row.item = some item → item.imageURL = some imageURL →
    ∃ url, string imageURL = some url
  own : ∀ item imageURL url, row.item = some item → item.imageURL = some imageURL →
    string imageURL = some url → ∀ download ∈ row.downloads,
      row.cell.postImageView.taskIdentifier = some download.identifier → download.url = url

variable {string : String → Option URL} {self self' : Row URL} {event : Row.Event URL}

/-- **A configured row**, as the cell provider leaves it. -/
theorem cellProvider_eq_some {item : Post} {code : Code}
    (h : self.cellProvider string item = some (self', code)) :
    self'.item = some item ∧ self'.cell.text = item.description ∧
      self'.cell.subviews.filter Subview.isControl = [.control item] ∧
      self'.cell.postImageView.image = some .photoArtframe ∧
      ((item.imageURL = none ∧ self'.issued = self.issued ∧ self'.downloads = self.downloads) ∨
        ∃ imageURL url, item.imageURL = some imageURL ∧ string imageURL = some url ∧
          self'.issued = self.issued + 1 ∧
          self'.downloads = self.downloads ++ [⟨self.issued, url⟩] ∧
          self'.cell.postImageView.taskIdentifier = some self.issued) := by
  obtain ⟨⟨configured, code'⟩, hitem, heq⟩ := Option.map_eq_some_iff.mp h
  obtain ⟨rfl, rfl⟩ := Prod.mk.inj heq
  have hcontrols : ∀ subviews : List Subview,
      (subviews.filter (fun subview => !subview.isControl) ++ [Subview.control item]).filter
        Subview.isControl = [.control item] := by
    intro subviews
    simp [List.filter_append, List.filter_filter, Subview.isControl]
  simp only [Row.configureItem] at hitem
  split at hitem
  next imageURL himage =>
    obtain ⟨url, hurl, heq⟩ := Option.map_eq_some_iff.mp hitem
    obtain ⟨rfl, -⟩ := Prod.mk.inj heq
    exact ⟨rfl, rfl, hcontrols _, rfl, .inr ⟨imageURL, url, himage, hurl, rfl, rfl, rfl⟩⟩
  next himage =>
    obtain ⟨rfl, -⟩ := Prod.mk.inj (Option.some.inj hitem)
    exact ⟨rfl, rfl, hcontrols _, rfl, .inl ⟨himage, rfl, rfl⟩⟩

/-- A configured cell shows its post. -/
theorem showsCurrent_configured {item : Post} {code : Code}
    (h : self.cellProvider string item = some (self', code)) : ShowsCurrent string self' := by
  obtain ⟨hitem, htext, hcontrol, himage, -⟩ := cellProvider_eq_some h
  intro item' h'
  obtain rfl := Option.some.inj (hitem.symm.trans h')
  exact ⟨htext, hcontrol, .inl himage⟩

theorem identified_new : Identified string Row.new where
  issued download h := by cases h
  valid item imageURL h := by cases h
  own item imageURL url h := by cases h

variable [DecidableEq URL]

/-- A finished download touches the image and its identifier only. -/
theorem finish_kept (self : Row URL) (download : Download URL) (success : Bool) :
    (self.finish download success).item = self.item ∧
      (self.finish download success).issued = self.issued ∧
      (self.finish download success).downloads = self.downloads.erase download ∧
      (self.finish download success).cell.text = self.cell.text ∧
      (self.finish download success).cell.subviews = self.cell.subviews := by
  unfold Row.finish
  dsimp only
  split <;> exact ⟨rfl, rfl, rfl, rfl, rfl⟩

/-- A finished download puts nothing in the place of its identifier. -/
theorem taskIdentifier_finish {download : Download URL} {success : Bool} {identifier : ℕ}
    (h : (self.finish download success).cell.postImageView.taskIdentifier = some identifier) :
    self.cell.postImageView.taskIdentifier = some identifier := by
  unfold Row.finish at h
  dsimp only at h
  split at h
  · cases h
  · exact h

/-- The image changes only when a download succeeds that has the current identifier. -/
theorem image_finish (self : Row URL) (download : Download URL) (success : Bool) :
    (self.finish download success).cell.postImageView.image =
      if success = true ∧ self.cell.postImageView.taskIdentifier = some download.identifier then
        some (.downloaded download.url)
      else self.cell.postImageView.image := by
  by_cases hid : self.cell.postImageView.taskIdentifier = some download.identifier
  · cases success <;> simp [Row.finish, hid]
  · simp [Row.finish, hid]

theorem Identified.step (h : Identified string self) (hs : self.step string event = some self') :
    Identified string self' := by
  cases event with
  | configure item =>
      obtain ⟨⟨configured, code⟩, hconfigure, rfl⟩ := Option.map_eq_some_iff.mp hs
      obtain ⟨hitem, -, -, -, hrest⟩ := cellProvider_eq_some hconfigure
      rcases hrest with ⟨hnone, hissued, hdownloads⟩ |
        ⟨imageURL, url, himage, hurl, hissued, hdownloads, hcurrent⟩
      · refine ⟨fun download hmem => ?_, fun item' imageURL h' himage => ?_,
          fun item' imageURL url h' himage => ?_⟩
        · rw [hissued]
          exact h.issued download (hdownloads ▸ hmem)
        all_goals
          obtain rfl := Option.some.inj (hitem.symm.trans h')
          rw [hnone] at himage
          cases himage
      · refine ⟨fun download hmem => ?_, fun item' imageURL' h' himage' => ?_,
          fun item' imageURL' url' h' himage' hurl' download hmem hid => ?_⟩
        · rw [hdownloads, List.mem_append, List.mem_singleton] at hmem
          simp only [hissued]
          rcases hmem with hmem | rfl
          · exact Nat.lt_succ_of_lt (h.issued download hmem)
          · exact Nat.lt_succ_self _
        · obtain rfl := Option.some.inj (hitem.symm.trans h')
          obtain rfl := Option.some.inj (himage.symm.trans himage')
          exact ⟨url, hurl⟩
        · obtain rfl := Option.some.inj (hitem.symm.trans h')
          obtain rfl := Option.some.inj (himage.symm.trans himage')
          obtain rfl := Option.some.inj (hurl.symm.trans hurl')
          rw [hdownloads, List.mem_append, List.mem_singleton] at hmem
          rcases hmem with hmem | rfl
          · -- an earlier download has an earlier identifier
            have hlt := h.issued download hmem
            rw [hcurrent, Option.some.injEq] at hid
            omega
          · rfl
  | finish download success =>
      obtain ⟨-, heq⟩ := Option.ite_none_right_eq_some.mp hs
      obtain rfl := Option.some.inj heq
      obtain ⟨hitem, hissued, hdownloads, -, -⟩ := finish_kept self download success
      have hmem : ∀ d ∈ (self.finish download success).downloads, d ∈ self.downloads :=
        fun d hd => List.mem_of_mem_erase (hdownloads ▸ hd)
      refine ⟨fun d hd => hissued ▸ h.issued d (hmem d hd),
        fun item imageURL h' => h.valid item imageURL (hitem ▸ h'),
        fun item imageURL url h' himage hurl d hd hid => ?_⟩
      exact h.own item imageURL url (hitem ▸ h') himage hurl d (hmem d hd)
        (taskIdentifier_finish hid)

/-- After a finished download only the image can be wrong. -/
theorem ShowsCurrent.finish_iff (h : ShowsCurrent string self) (download : Download URL)
    (success : Bool) : ShowsCurrent string (self.finish download success) ↔
      ∀ item, self.item = some item →
        (self.finish download success).cell.postImageView.image = some .photoArtframe ∨
          ∃ imageURL url, item.imageURL = some imageURL ∧ string imageURL = some url ∧
            (self.finish download success).cell.postImageView.image =
              some (.downloaded url) := by
  obtain ⟨hitem, -, -, htext, hsubviews⟩ := finish_kept self download success
  constructor
  · intro hshows item h'
    exact (hshows item (hitem.trans h')).image
  · intro himage item h'
    rw [hitem] at h'
    exact ⟨htext.trans (h item h').text, hsubviews ▸ (h item h').control, himage item h'⟩

/-- **What a step does to what is shown.** -/
theorem showsCurrent_step_iff (h : Identified string self) (hshows : ShowsCurrent string self)
    (hs : self.step string event = some self') :
    ShowsCurrent string self' ↔ NotLate self event := by
  cases event with
  | configure item =>
      obtain ⟨⟨configured, code⟩, hconfigure, rfl⟩ := Option.map_eq_some_iff.mp hs
      exact iff_of_true (showsCurrent_configured hconfigure) trivial
  | finish download success =>
      obtain ⟨hmem, heq⟩ := Option.ite_none_right_eq_some.mp hs
      obtain rfl := Option.some.inj heq
      rw [hshows.finish_iff, image_finish]
      split
      next hcurrent =>
        obtain ⟨rfl, hid⟩ := hcurrent
        constructor
        · intro himage item h' hnone _
          rcases himage item h' with hart | ⟨imageURL, _, hsome, -⟩
          · cases hart
          · rw [hnone] at hsome
            cases hsome
        · intro hlate item h'
          cases hurl : item.imageURL with
          | none => exact absurd hid (hlate item h' hurl)
          | some imageURL =>
              -- the current identifier is that of a download of the post's own image
              obtain ⟨url, hvalid⟩ := h.valid item imageURL h' hurl
              obtain rfl := h.own item imageURL url h' hurl hvalid download hmem hid
              exact .inr ⟨imageURL, _, rfl, hvalid, rfl⟩
      next hcurrent =>
        refine iff_of_true (fun item h' => (hshows item h').image) ?_
        cases success with
        | false => trivial
        | true => exact fun item _ _ hid => hcurrent ⟨rfl, hid⟩

/-- **A cell shows only its current post** along a run if and only if no download succeeds
under the current identifier while the cell is configured for a post without image URL. -/
theorem always_shows_iff (string : String → Option URL) (events : List (Row.Event URL)) :
    Always (Row.step string) (ShowsCurrent string) Row.new events ↔
      StepsMeet (Row.step string) (fun self event _ => NotLate self event) Row.new events := by
  refine Lib.always_iff_stepsMeet (I := Identified string) (fun self event self' h hs => h.step hs)
    (fun self event self' h hshows hs => showsCurrent_step_iff h hshows hs) identified_new ?_
  intro item h
  cases h

/-- A post with an image, and one whose thumbnail is not there yet. -/
def postWithImage : Post := { id := some "a", description := some "A", imageURL := some "a.png" }

def postWithoutImage : Post := { id := some "b", description := some "B", path := some "B" }

/-- A cell that is configured for two posts while the image of the first is on its way. -/
def reuseRun : List (Row.Event String) :=
  [.configure postWithImage, .configure postWithoutImage, .finish ⟨0, "a.png"⟩ true]

/-- A reused cell shows the image of another post: the download for the first post ends when
the cell is configured for the second one. -/
theorem staleImage : ¬ ∀ (URL : Type) (_ : DecidableEq URL) (string : String → Option URL)
    (events : List (Row.Event URL)),
    Always (Row.step string) (ShowsCurrent string) Row.new events := by
  intro h
  let stale : Row String := ⟨⟨some "B", ⟨some (.downloaded "a.png"), none⟩,
    [.descriptionLabel, .postImageView, .control postWithoutImage]⟩, 1, [], some postWithoutImage⟩
  have hrun : Lib.run (Row.step some) Row.new reuseRun = some stale := rfl
  have hstale := (h String inferInstance some reuseRun).last hrun
  rcases (hstale postWithoutImage rfl).image with himage | ⟨_, _, himage, -⟩
  · cases himage
  · cases himage

end FirebaseApps.SociallyUIKit
