import FirebaseApps.Firebase.Changes
import FirebaseApps.Firebase.Query
import FirebaseApps.Lib.Board
import FirebaseApps.SociallyUIKit.Publications
import FirebaseApps.SociallyUIKit.Resurrection

/-!
# Socially-UIKit: the feed as a board

`FeedViewController` shows the result of one query, the documents of `Posts` that have a
publication date, newest first.  To its users the collection is a board: `addData` puts a
post up, `updatePost` and `checkImageURL` revise the one they find, and `deletePost` takes
it down.  A merge write that comes after the deletion brings a document back, but one
without a publication date, which the query does not list.

## Main definitions

* `board` — the documents that the query lists, as a board.
* `WellFormed` — the fields of a listed document, and their types.

## Main results

* `feed_refines_board` — runs of the app are runs of the board, and the feed lists it.
* `unlisted_of_deleted` — a deleted post is not listed again.
* `feed_order_stable` — posts that stay do not change places.
* `wellFormed_listed` — what the feed decodes has the fields it asks for.
-/

namespace FirebaseApps.SociallyUIKit

variable {S : StorageService} {fb : Firebase} {fs : Firestore} {w w' : World} {action : Action}
  {d : String} {doc doc' : Document}

/-- The documents of the backend. -/
abbrev database (w : World) : Firestore := w.env.firebase.firestore

/-! ## The query -/

/-- The ids of the posts that the feed shows, in its order. -/
def feedIDs (fs : Firestore) : List String := (orderedFeed fs).filterMap Post.id

theorem feedIDs_eq (fs : Firestore) : feedIDs fs = (listed fs).map Prod.fst := by
  rw [feedIDs, orderedFeed, List.filterMap_filterMap]
  exact congrFun List.filterMap_eq_map (listed fs)

/-- The feed has the posts of `feed`, in the order of the query. -/
theorem orderedFeed_perm (fs : Firestore) : (orderedFeed fs).Perm (feed fs) := by
  refine List.Perm.filterMap _ ((List.perm_ext_iff_of_nodup ?_ ?_).mpr fun d => ?_)
  · exact (fs.sorted_query ["Posts"] "datePublished").imp fun hlt heq => by simp [heq] at hlt
  · exact ((fs.nodup_documents ["Posts"]).of_map).filter _
  · rw [listed, Firestore.mem_query, List.mem_filter, Firestore.mem_documents]

/-! ## The board -/

/-- The documents that the query lists, and the ids used in the collection. -/
def board (fs : Firestore) : Lib.Board String Document where
  entry d := (fs.get ["Posts", d]).filter isListed
  used := {d | ["Posts", d] ∈ fs.used}
  mem_used _ _ h := Firestore.mem_used_of_get (Option.filter_eq_some_iff.mp h).1

/-- What is put up: a document written by `addData`. -/
def Published (doc : Document) : Prop :=
  ∃ path description datePublished user,
    doc = Document.empty.merge (NewPostViewController.newPost description datePublished user path)

/-- What a revision does: `updatePost` sets the description, `checkImageURL` the image. -/
inductive Revises : Document → Document → Prop
  | describe (doc : Document) (description : String) :
      Revises doc (doc.merge [("description", .value (.string description))])
  | link (doc : Document) (url : String) : Revises doc (doc.merge (Post.thumbnailFields url))

/-- **The feed lists the board**, newest first. -/
theorem lists_board (fs : Firestore) :
    (board fs).Lists (Firestore.sortValue "datePublished") (listed fs) where
  mem_iff d doc := by
    rw [listed, Firestore.mem_query, board, Option.filter_eq_some_iff]
    rfl
  sorted := fs.sorted_query ["Posts"] "datePublished"

/-- A revision changes no field but the description, the image URL and the misspelt path. -/
theorem Revises.key (h : Revises doc doc') {key : String} (hdescription : key ≠ "description")
    (himage : key ≠ "imageURL") (hpaht : key ≠ "paht") : doc' key = doc key := by
  cases h with
  | describe description => exact doc.merge_of_notMem (by simpa using hdescription)
  | link url => exact doc.merge_of_notMem (by simp [Post.thumbnailFields, himage, hpaht])

/-- A revised document is listed if it was. -/
theorem Revises.isListed_eq (h : Revises doc doc') : isListed doc' = isListed doc := by
  rw [isListed, isListed, h.key (by decide) (by decide) (by decide)]

/-! ## Runs of the app are runs of the board -/

theorem entry_set (fs : Firestore) (d : String) (doc : Document) :
    (board (fs.set ["Posts", d] doc)).entry =
      Function.update (board fs).entry d ((some doc).filter isListed) := by
  funext d'
  by_cases hd : d' = d
  · subst hd; simp [board]
  · simp [board, hd]

theorem used_set (fs : Firestore) (d : String) (doc : Document) :
    (board (fs.set ["Posts", d] doc)).used = insert d (board fs).used := by
  ext d'
  simp [board]

/-- A merge write revises the post that is there; where there is none, it puts none up. -/
theorem move_merge {old : Document} (hold : (fs.get ["Posts", d]).getD .empty = old)
    (h : Revises old doc) :
    Lib.Board.Move Published Revises (board fs) (board (fs.set ["Posts", d] doc)) := by
  cases hentry : (board fs).entry d with
  | some listed =>
      obtain ⟨hget, hlisted⟩ := Option.filter_eq_some_iff.mp hentry
      obtain rfl : listed = old := by simpa [hget] using hold
      refine .revise d listed doc hentry h ?_ ?_
      · rw [entry_set, Option.filter_some, h.isListed_eq, if_pos hlisted]
      · rw [used_set, Set.insert_eq_of_mem ((board fs).mem_used d listed hentry)]
  | none =>
      have hunlisted : isListed old = false := by
        cases hget : fs.get ["Posts", d] with
        | none => rw [hget] at hold; exact hold ▸ rfl
        | some doc₀ =>
            obtain rfl : doc₀ = old := by simpa [hget] using hold
            simpa [board, hget] using hentry
      refine .erase d ?_ (used_set fs d doc)
      rw [entry_set, Option.filter_some, h.isListed_eq, hunlisted]
      rfl

/-- A write is a move of the board. -/
theorem Applies.move {fs' : Firestore} {op : Op} {r : Req} {choice : Choice} {write : Write}
    (h : Applies S fs op r choice write fs') :
    Lib.Board.Move Published Revises (board fs) (board fs') := by
  cases h with
  | @created path description date data d user hcall hhistory hfresh =>
      exact .post d _ ⟨path, description, date, user, rfl⟩ hfresh (entry_set _ _ _) (used_set _ _ _)
  | described => exact move_merge rfl (.describe _ _)
  | linked => exact move_merge rfl (.link _ _)
  | @deleted post d =>
      refine .erase d (funext fun d' => ?_) (Set.ext fun d' => ?_)
      · by_cases hd : d' = d
        · subst hd; simp [board]
        · simp [board, hd]
      · simp [board]

/-- A step is a move of the board or leaves it alone. -/
theorem board_step (hcode : OnCode S (fun _ _ => True) w) (hs : step S w action = some w') :
    board (database w') = board (database w) ∨
      Lib.Board.Move Published Revises (board (database w)) (board (database w')) := by
  rcases step_write hcode hs with ⟨hfs, -⟩ | ⟨_, _, _, _, _, _, _, -, -, -, -, happ⟩
  · exact .inl (by rw [database, database, hfs])
  · exact .inr happ.move

theorem moves_run (h : Reachable S fb w) {actions : List Action}
    (hrun : Lib.run (step S) w actions = some w') :
    Lib.Board.Moves Published Revises (board (database w)) (board (database w')) :=
  Lib.Board.moves_of_run (I := OnCode S fun _ _ => True) (fun w : World => board (database w))
    (fun _ _ _ hcode hs => onCode_step_any hcode hs) (fun _ _ _ hcode hs => board_step hcode hs)
    (traced_reachable h).code hrun

/-- **The app refines a board.**  A run of the app puts posts of `addData` up under new ids,
revises the description or the image of posts that are there, and takes posts down; and what
the feed shows is a listing of the board, newest first. -/
theorem feed_refines_board (h : Reachable S fb w) {actions : List Action}
    (hrun : Lib.run (step S) w actions = some w') :
    Lib.Board.Moves Published Revises (board (database w)) (board (database w')) ∧
      (board (database w')).Lists (Firestore.sortValue "datePublished") (listed (database w')) :=
  ⟨moves_run h hrun, lists_board _⟩

/-- Device `0` publishes a post, then another one with a later date. -/
def twoPostsRun : List Action :=
  [.start 0 0 (.addData .sample "first" 0 [0xFF]), .serve 0 0 .success, .deliver 0 0,
    .serve 0 0 (.documentID "a"),
    .start 1 0 (.addData ⟨"91D0", by decide⟩ "second" 1 [0x89]), .serve 1 0 .success, .deliver 1 0,
    .serve 1 0 (.documentID "b")]

/-- It edits the first post. -/
def editFirstRun : List Action :=
  let shown : Post :=
    { id := some "a", userName := some "Unknown", description := some "first", path := some "7A21" }
  [.act (.snapshot 0), .start 2 0 (.updatePost shown "edited"), .serve 2 0 .success]

theorem feed_refines_twoPosts : ∃ w, Lib.run (step .plain) (initial .empty) twoPostsRun = some w ∧
    Lib.Board.Moves Published Revises (board Firebase.empty.firestore) (board (database w)) ∧
    (board (database w)).Lists (Firestore.sortValue "datePublished") (listed (database w)) := by
  have hrun : ∃ w, Lib.run (step .plain) (initial .empty) twoPostsRun = some w := ⟨_, rfl⟩
  obtain ⟨w, hw⟩ := hrun
  have hinitial : Reachable .plain .empty (initial .empty) := ⟨[], rfl⟩
  exact ⟨w, hw, feed_refines_board hinitial hw⟩

/-! ## Deleted posts -/

/-- The id is used, and the board has nothing under it. -/
def Gone (w : World) (d : String) : Prop :=
  d ∈ (board (database w)).used ∧ (board (database w)).entry d = none

/-- A deletion leaves nothing under its id. -/
theorem Applies.gone {fs' : Firestore} {op : Op} {r : Req} {choice : Choice}
    (h : Applies S fs op r choice (.deleted d) fs') :
    d ∈ (board fs').used ∧ (board fs').entry d = none := by
  generalize hwrite : Write.deleted d = write at h
  cases h with
  | deleted =>
      obtain rfl := Write.deleted.inj hwrite
      simp [board]
  | _ => cases hwrite

theorem gone_step (hcode : OnCode S (fun _ _ => True) w)
    (h : ∀ d, .deleted d ∈ writes w → Gone w d) (hs : step S w action = some w') :
    ∀ d, .deleted d ∈ writes w' → Gone w' d := by
  intro d hd
  rcases step_write hcode hs with ⟨hfs, hw⟩ | ⟨_, _, _, _, _, _, write, -, -, -, hw, happ⟩
  · rw [Gone, database, hfs]
    exact h d (hw ▸ hd)
  · rw [hw, List.mem_append, List.mem_singleton] at hd
    rcases hd with hd | rfl
    · obtain ⟨hused, hentry⟩ := h d hd
      exact ⟨happ.move.used_subset hused, Lib.Board.gone_of_moves (.single happ.move) hused hentry⟩
    · exact happ.gone

/-- **A deleted post is not listed again**, whatever writes to its document come late. -/
theorem unlisted_of_deleted (h : Reachable S fb w) (hdel : .deleted d ∈ writes w) :
    d ∉ feedIDs (database w) := by
  have hgone : OnCode S (fun _ _ => True) w ∧ ∀ d, .deleted d ∈ writes w → Gone w d :=
    h.invariant (P := fun w => OnCode S (fun _ _ => True) w ∧ ∀ d, .deleted d ∈ writes w → Gone w d)
      ⟨Lib.World.onCode_initial _, fun d hd => by cases hd⟩
      fun _ _ _ hinv hs => ⟨onCode_step_any hinv.1 hs, gone_step hinv.1 hinv.2 hs⟩
  rw [feedIDs_eq, (lists_board (database w)).mem_keys]
  rintro ⟨doc, hdoc⟩
  rw [(hgone.2 d hdel).2] at hdoc
  cases hdoc

/-- A post that is deleted while its thumbnail is being linked comes back as a document, and
still is not listed. -/
theorem unlisted_lateThumbnail : ∃ w,
    Lib.run (step .plain) (initial .empty) lateThumbnailRun = some w ∧
    (document w "d").isSome ∧ "d" ∉ feedIDs (database w) := by
  have hrun : ∃ w, Lib.run (step .plain) (initial .empty) lateThumbnailRun = some w ∧
      .deleted "d" ∈ writes w ∧ (document w "d").isSome := ⟨_, rfl, by decide, by decide⟩
  obtain ⟨w, hw, hdel, hsome⟩ := hrun
  exact ⟨w, hw, hsome, unlisted_of_deleted ⟨_, hw⟩ hdel⟩

/-! ## The order of the feed -/

/-- **Posts that stay do not change places**: any two states of a run show the posts that
both have in the same order. -/
theorem feed_order_stable (h : Reachable S fb w) {actions : List Action}
    (hrun : Lib.run (step S) w actions = some w') :
    (feedIDs (database w)).filter (· ∈ feedIDs (database w')) =
      (feedIDs (database w')).filter (· ∈ feedIDs (database w)) := by
  rw [feedIDs_eq, feedIDs_eq]
  refine Lib.Board.Lists.order_stable (fun doc doc' hrev => ?_) (moves_run h hrun)
    (lists_board (database w)) (lists_board (database w'))
  rw [Firestore.sortValue, Firestore.sortValue, hrev.key (by decide) (by decide) (by decide)]

/-- The edited post stays in its place. -/
theorem feed_order_edit : ∃ w w', Lib.run (step .plain) (initial .empty) twoPostsRun = some w ∧
    Lib.run (step .plain) w editFirstRun = some w' ∧ feedIDs (database w) = ["b", "a"] ∧
    feedIDs (database w') = ["b", "a"] ∧
    (feedIDs (database w)).filter (· ∈ feedIDs (database w')) =
      (feedIDs (database w')).filter (· ∈ feedIDs (database w)) := by
  have hrun : ∃ w w', Lib.run (step .plain) (initial .empty) twoPostsRun = some w ∧
      Lib.run (step .plain) w editFirstRun = some w' ∧ feedIDs (database w) = ["b", "a"] ∧
      feedIDs (database w') = ["b", "a"] := ⟨_, _, rfl, rfl, by decide, by decide⟩
  obtain ⟨w, w', hw, hw', hids, hids'⟩ := hrun
  have hreach : Reachable .plain .empty w := ⟨_, hw⟩
  exact ⟨w, w', hw, hw', hids, hids', feed_order_stable hreach hw'⟩

/-! ## The fields of a listed document -/

/-- The fields that the app writes, with their types. -/
structure WellFormed (doc : Document) : Prop where
  description : ∃ s, doc "description" = some (.string s)
  datePublished : ∃ date, doc "datePublished" = some (.timestamp date)
  userId : ∃ uid, doc "userId" = some (.string uid)
  userName : ∃ name, doc "userName" = some (.string name)
  path : ∃ u : UUID, doc "path" = some (.string u.uuidString)
  imageURL : doc "imageURL" = none ∨ ∃ url, doc "imageURL" = some (.string url)
  others : ∀ key, key ∉ ["description", "datePublished", "userId", "userName", "path", "imageURL"] →
    doc key = none

theorem wellFormed_published (h : Published doc) : WellFormed doc := by
  obtain ⟨path, description, date, user, rfl⟩ := h
  refine ⟨⟨_, rfl⟩, ⟨_, rfl⟩, ⟨_, rfl⟩, ⟨_, rfl⟩, ⟨_, rfl⟩, .inl rfl, fun key hkey => ?_⟩
  exact Document.merge_of_notMem _ fun hmem => hkey (List.mem_append_left ["imageURL"] hmem)

theorem WellFormed.revises (h : WellFormed doc) (hrev : Revises doc doc') : WellFormed doc' := by
  have hkey : ∀ key, key ≠ "description" → key ≠ "imageURL" → key ≠ "paht" → doc' key = doc key :=
    fun key => hrev.key
  refine ⟨?_, ?_, ?_, ?_, ?_, ?_, fun key hother => ?_⟩
  · cases hrev with
    | describe s => exact ⟨s, rfl⟩
    | link url => exact h.description
  · rw [hkey _ (by decide) (by decide) (by decide)]; exact h.datePublished
  · rw [hkey _ (by decide) (by decide) (by decide)]; exact h.userId
  · rw [hkey _ (by decide) (by decide) (by decide)]; exact h.userName
  · rw [hkey _ (by decide) (by decide) (by decide)]; exact h.path
  · cases hrev with
    | describe s => exact h.imageURL
    | link url => exact .inr ⟨url, rfl⟩
  · by_cases hpaht : key = "paht"
    · subst hpaht
      cases hrev with
      | describe s => exact h.others "paht" hother
      | link url => rfl
    · simp only [List.mem_cons, not_or] at hother
      rw [hkey key hother.1 hother.2.2.2.2.2.1 hpaht]
      exact h.others key (by simpa using hother)

/-- **What the feed decodes is well formed**: every post that has been put up has a
description, a date, its author and its path, of the types that the app asks for, perhaps an
image URL, and no other field. -/
theorem wellFormed_listed (h : Reachable S fb w) (hmem : (d, doc) ∈ listed (database w))
    (hnew : ["Posts", d] ∉ fb.firestore.used) : WellFormed doc := by
  obtain ⟨actions, hrun⟩ := h
  have hinitial : Reachable S fb (initial fb) := ⟨[], rfl⟩
  exact Lib.Board.new_entry_of_moves (fun _ => wellFormed_published)
    (fun _ _ hdoc hrev => hdoc.revises hrev) (moves_run hinitial hrun) hnew
    (((lists_board (database w)).mem_iff d doc).mp hmem)

theorem wellFormed_twoPosts : ∃ w doc, Lib.run (step .plain) (initial .empty) twoPostsRun = some w ∧
    ("a", doc) ∈ listed (database w) ∧ WellFormed doc := by
  have hrun : ∃ w doc, Lib.run (step .plain) (initial .empty) twoPostsRun = some w ∧
      ("a", doc) ∈ listed (database w) :=
    ⟨_, _, rfl, Firestore.mem_query.mpr ⟨rfl, rfl⟩⟩
  obtain ⟨w, doc, hw, hmem⟩ := hrun
  have hreach : Reachable .plain .empty w := ⟨_, hw⟩
  exact ⟨w, doc, hw, hmem, wellFormed_listed hreach hmem (by simp [Firebase.empty])⟩

end FirebaseApps.SociallyUIKit
