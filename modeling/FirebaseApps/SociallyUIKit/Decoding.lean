import FirebaseApps.SociallyUIKit.Edits

/-!
# Socially-UIKit: what is read back from a post's document

A post is decoded from its document in two places.  The feed uses
`Post.init?(document:)`, which reads neither `userId` nor `datePublished`; an edit uses
the decoder inside `updatePost`, which requires `datePublished` and drops `userId`,
`userName` and `path`.  So no document that `addData` has written reads back as it was
written (`not_readsBack_reachable`), whatever edits and thumbnail writes came after, and the
two decoders never build the same post (`decoders_disagree`).
-/

namespace FirebaseApps.SociallyUIKit

variable {S : StorageService} {fb : Firebase} {w : World} {d : String}

/-! ## Reading a document back -/

/-- The fields that `Post.init?(document:)` does read: each is what the document stores,
and `nil` exactly when it stores nothing. -/
structure Shown (d : String) (doc : Document) (post : Post) : Prop where
  id : post.id = some d
  userName : post.userName.map .string = doc "userName"
  description : post.description.map .string = doc "description"
  path : post.path.map .string = doc "path"
  imageURL : post.imageURL.map .string = doc "imageURL"

/-- A post says what its document says, in every field. -/
structure ReadsBack (d : String) (doc : Document) (post : Post) : Prop extends
    Shown d doc post where
  userId : post.userId.map .string = doc "userId"
  datePublished : post.datePublished.map .timestamp = doc "datePublished"

/-- A field that holds a string or nothing reads back. -/
theorem map_string_of_field {doc : Document} {key : String} {s : Option String}
    (h : doc key = s.map .string) : (doc.string key).map .string = doc key := by
  rw [Document.string, h]
  cases s <;> rfl

/-- What the edits of a run leave of the path that a document was written with. -/
theorem path_of_written {i : ℕ} {o : Publication} {doc : Document} (hw : Written fb w)
    (hlog : Lib.World.Logged w) (hadd : Added w i o d) (hdel : .deleted d ∉ writes w)
    (hdoc : document w d = some doc) : doc "path" = some (.string o.path.uuidString) := by
  obtain ⟨rest, -, heq⟩ := hw.document_eq (hadd.created hlog) hdel
  obtain rfl := Option.some.inj (heq.symm.trans hdoc)
  rw [Document.replay_key, lastEdit_other rest (by decide) (by decide) (by decide)]
  rfl

/-- **The feed's decoder on a document of `addData`**: five fields are what the document
says, and the other two are `nil`. -/
theorem Kept.shown {i : ℕ} {o : Publication} {doc : Document} (hk : Kept S w d o doc)
    (hw : Written fb w) (hlog : Lib.World.Logged w) (hadd : Added w i o d)
    (hdel : .deleted d ∉ writes w) (hdoc : document w d = some doc) :
    ∃ post, Post.initDocument d doc = some post ∧ Shown d doc post ∧ post.userId = none ∧
      post.datePublished = none := by
  refine ⟨_, rfl, ⟨rfl, ?_, ?_, ?_, ?_⟩, rfl, rfl⟩
  · exact map_string_of_field (s := some _) hk.userName
  · exact map_string_of_field (s := some _) hk.description
  · exact map_string_of_field (s := some _) (path_of_written hw hlog hadd hdel hdoc)
  · by_cases hthumb : thumbnails d (writes w) = []
    · exact map_string_of_field (s := none) (hk.unlinked hthumb)
    · exact map_string_of_field (s := some _) (hk.linked hthumb)

/-- **No document of `addData` reads back**: in every reachable state, whatever merge
writes of `updatePost` and `checkImageURL` came after it, the feed's decoder loses the
author's uid and the date, which the document holds. -/
theorem not_readsBack_reachable (S : StorageService) (fb : Firebase) (h : Reachable S fb w) :
    ∀ i o d, Added w i o d → .deleted d ∉ writes w →
      ∃ doc post, document w d = some doc ∧ Post.initDocument d doc = some post ∧
        Shown d doc post ∧ post.userId.map .string ≠ doc "userId" ∧
        post.datePublished.map .timestamp ≠ doc "datePublished" ∧ ¬ ReadsBack d doc post := by
  intro i o d hadd hdel
  have hw := written_reachable h
  have hlog := logged_reachable h
  obtain ⟨doc, hdoc, hk⟩ := kept_of_written (traced_reachable h) hw hlog hadd hdel
  obtain ⟨post, hpost, hshown, huser, hdate⟩ := hk.shown hw hlog hadd hdel hdoc
  have hlost : post.datePublished.map .timestamp ≠ doc "datePublished" := by
    simp [hdate, hk.datePublished]
  refine ⟨doc, post, hdoc, hpost, hshown, ?_, hlost, fun hread => hlost hread.datePublished⟩
  simp [huser, hk.userId]

/-- Device `0` publishes a post; its thumbnail is linked, and an edit is saved and read
back. -/
def savedRun : List Action :=
  editRun [.serve 2 0 .success, .serve 1 0 .success, .deliver 1 0, .serve 1 0 .success,
    .deliver 1 0]

theorem not_readsBack_savedRun : ∃ w doc post,
    Lib.run (step .plain) (initial .empty) savedRun = some w ∧ document w "d" = some doc ∧
    Post.initDocument "d" doc = some post ∧ ¬ ReadsBack "d" doc post := by
  obtain ⟨w, hw, hadd, hdel⟩ : ∃ w, Lib.run (step .plain) (initial .empty) savedRun = some w ∧
      Added w 0 ⟨.sample, "hello", 0, [0xFF], none⟩ "d" ∧ .deleted "d" ∉ writes w :=
    ⟨_, rfl, ⟨_, rfl, rfl, rfl⟩, by decide⟩
  obtain ⟨doc, post, hdoc, hpost, -, -, -, hlost⟩ :=
    not_readsBack_reachable .plain .empty ⟨_, hw⟩ 0 _ "d" hadd hdel
  exact ⟨w, doc, post, hw, hdoc, hpost, hlost⟩

/-- The date of a post is not read back: `addData` writes it, and the feed's decoder
leaves `datePublished` at `nil`. -/
theorem dateLost : ¬ ∀ (S : StorageService) (fb : Firebase) (w : World), Reachable S fb w →
    ∀ i o d doc, Added w i o d → .deleted d ∉ writes w → document w d = some doc →
      ∃ post, Post.initDocument d doc = some post ∧ ReadsBack d doc post := by
  intro h
  obtain ⟨w, doc, hw, hadd, hdel, hdoc, hdate⟩ : ∃ w doc,
      Lib.run (step .plain) (initial .empty) savedRun = some w ∧
      Added w 0 ⟨.sample, "hello", 0, [0xFF], none⟩ "d" ∧ .deleted "d" ∉ writes w ∧
      document w "d" = some doc ∧ doc "datePublished" = some (.timestamp 0) :=
    ⟨_, _, rfl, ⟨_, rfl, rfl, rfl⟩, by decide, rfl, by decide⟩
  obtain ⟨post, hpost, hread⟩ := h .plain .empty w ⟨_, hw⟩ 0 _ "d" doc hadd hdel hdoc
  obtain rfl := Option.some.inj hpost
  have hnil := hread.datePublished
  rw [hdate] at hnil
  cases hnil

/-! ## The two decoders -/

/-- `edited` is the post `shown` with a new description. -/
def OnlyDescription (shown edited : Post) : Prop :=
  edited = { shown with description := edited.description }

theorem OnlyDescription.datePublished {shown edited : Post} (h : OnlyDescription shown edited) :
    edited.datePublished = shown.datePublished := by
  rw [OnlyDescription] at h
  rw [h]

/-- The feed's decoder never finds a date. -/
theorem datePublished_of_initDocument {doc : Document} {shown : Post}
    (h : Post.initDocument d doc = some shown) : shown.datePublished = none := by
  obtain rfl := Option.some.inj h
  rfl

/-- The decoder of an edit always does. -/
theorem datePublished_of_updatedPost {doc : Document} {edited : Post}
    (h : PostService.updatedPost ⟨d, some doc⟩ = some edited) : edited.datePublished ≠ none := by
  obtain ⟨description, imageURL, datePublished, -, -, -, rfl⟩ :=
    PostService.updatedPost_eq_some h
  exact Option.some_ne_none datePublished

/-- **The two decoders never agree**: on every document that an edit can decode, the
feed's decoder builds another post, with the same id, description and image URL; and no
post that a successful edit reports is a post of a feed with a new description. -/
theorem decoders_disagree (S : StorageService) (fb : Firebase) (h : Reachable S fb w) :
    (∀ d data edited, PostService.updatedPost ⟨d, some data⟩ = some edited →
      ∃ shown, Post.initDocument d data = some shown ∧ edited ≠ shown ∧
        edited.id = shown.id ∧ edited.description = shown.description ∧
        edited.imageURL = shown.imageURL) ∧
    ∀ i op edited, w.ops i = some op → .updated (.ok edited) ∈ op.outs →
      ∀ fs shown, shown ∈ feed fs → ¬ OnlyDescription shown edited := by
  constructor
  · intro d data edited hedit
    refine ⟨_, rfl, fun heq => ?_, ?_⟩
    · exact datePublished_of_updatedPost hedit (heq ▸ datePublished_of_initDocument rfl)
    · obtain ⟨description, imageURL, datePublished, hdesc, himage, -, rfl⟩ :=
        PostService.updatedPost_eq_some hedit
      exact ⟨rfl, hdesc.symm, himage.symm⟩
  · intro i op edited hop hout fs shown hshown honly
    obtain ⟨post, newDescription, postId, data, -, -, -, hedit⟩ :=
      (traced_reachable h).code.edited hop hout
    obtain ⟨d, doc, -, hinit⟩ := mem_feed hshown
    exact datePublished_of_updatedPost hedit
      (honly.datePublished.trans (datePublished_of_initDocument hinit))

theorem decoders_disagree_savedRun : ∃ w edited,
    Lib.run (step .plain) (initial .empty) savedRun = some w ∧
    (∃ op, w.ops 1 = some op ∧ .updated (.ok edited) ∈ op.outs) ∧
    ∀ shown ∈ feed w.env.firebase.firestore, ¬ OnlyDescription shown edited := by
  obtain ⟨w, op, edited, hw, hop, hout⟩ : ∃ w op edited,
      Lib.run (step .plain) (initial .empty) savedRun = some w ∧ w.ops 1 = some op ∧
      .updated (.ok edited) ∈ op.outs :=
    ⟨_, _, _, rfl, rfl, List.mem_singleton_self _⟩
  refine ⟨w, edited, hw, ⟨op, hop, hout⟩, fun shown hshown => ?_⟩
  exact (decoders_disagree .plain .empty ⟨_, hw⟩).2 1 op edited hop hout _ shown hshown

/-- The two decoders differ on the document of a linked post: an edit keeps its date and
drops its author's name, the feed does the reverse. -/
theorem decodersDiffer : ¬ ∀ (d : String) (data : Document) (edited : Post),
    PostService.updatedPost ⟨d, some data⟩ = some edited →
      Post.initDocument d data = some edited := by
  intro h
  let data := (Document.empty.merge (NewPostViewController.newPost "hello" 0 none .sample)).merge
    (Post.thumbnailFields "url")
  have hbad := h "d" data (Post.initValues "d" "hello" "url" 0) (by decide)
  exact absurd hbad (by decide)

end FirebaseApps.SociallyUIKit
