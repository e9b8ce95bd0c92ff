import FirebaseApps.SociallyUIKit.Board
import FirebaseApps.SociallyUIKit.FeedViewController

/-!
# Socially-UIKit: what the feed makes of the collection

The rows of the feed write nothing but the image URLs of their documents, and all lookups of
a document are of one thumbnail, whose URL is always the same.  So every view of the
collection (that of the server, and the local view of each device) is the starting
collection with some of its documents linked, and a view changes when a document gets linked
in it, or is unlinked by a rollback.  `Stored` says so of a local store and `Given` of all
that a device is given; `weight` counts the steps that a device still has the occasion for.
A snapshot costs nothing when documents get linked, since one of them pays for it.
-/

namespace FirebaseApps.SociallyUIKit.Feed

variable {S : StorageService} {fs fs' fs₀ : Firestore} {d path : String} {doc : Document} {r : Req}

/-! ## Linked documents -/

/-- The ids of the documents in the collection. -/
def ids (fs : Firestore) : Finset String := ((fs.documents ["Posts"]).map Prod.fst).toFinset

/-- The documents without an image URL, as a row reads it. -/
def unresolved (fs : Firestore) : Finset String :=
  (ids fs).filter fun d => ((fs.get ["Posts", d]).bind (·.string "imageURL")) = none

theorem mem_ids : d ∈ ids fs ↔ (fs.get ["Posts", d]).isSome := by
  rw [ids, List.mem_toFinset, List.mem_map, Option.isSome_iff_exists]
  constructor
  · rintro ⟨⟨d', doc⟩, hmem, rfl⟩
    exact ⟨doc, Firestore.mem_documents.mp hmem⟩
  · rintro ⟨doc, hdoc⟩
    exact ⟨(d, doc), Firestore.mem_documents.mpr hdoc, rfl⟩

theorem mem_unresolved : d ∈ unresolved fs ↔
    ∃ doc, fs.get ["Posts", d] = some doc ∧ doc.string "imageURL" = none := by
  rw [unresolved, Finset.mem_filter, mem_ids, Option.isSome_iff_exists]
  constructor
  · rintro ⟨⟨doc, hdoc⟩, hnone⟩
    exact ⟨doc, hdoc, by simpa [hdoc] using hnone⟩
  · rintro ⟨doc, hdoc, hnone⟩
    exact ⟨⟨doc, hdoc⟩, by simpa [hdoc] using hnone⟩

/-- A snapshot has at most one row for each document. -/
theorem length_orderedFeed_le (fs : Firestore) : (orderedFeed fs).length ≤ (ids fs).card := by
  have hcard : (ids fs).card = (fs.documents ["Posts"]).length := by
    rw [ids, List.toFinset_card_of_nodup (fs.nodup_documents _), List.length_map]
  rw [(orderedFeed_perm fs).length_eq, hcard]
  exact (List.length_filterMap_le _ _).trans (List.length_filter_le _ _)

/-- The write of `checkImageURL`, applied. -/
abbrev linked (S : StorageService) (path : String) (doc : Document) : Document :=
  doc.merge (Post.thumbnailFields (S.downloadURL (thumbPath path)))

/-- Writing the link again changes nothing. -/
theorem linked_linked (S : StorageService) (path : String) (doc : Document) :
    linked S path (linked S path doc) = linked S path doc := by
  funext key
  simp only [linked, Document.merge]
  split <;> rfl

theorem string_linked (S : StorageService) (path : String) (doc : Document) :
    (linked S path doc).string "imageURL" = some (S.downloadURL (thumbPath path)) := rfl

theorem isListed_linked (S : StorageService) (path : String) (doc : Document) :
    isListed (linked S path doc) = isListed doc :=
  (Revises.link doc (S.downloadURL (thumbPath path))).isListed_eq

/-- The query lists the document, which has this path and no image URL. -/
structure Unlinked (fs : Firestore) (d path : String) (doc : Document) : Prop where
  get_eq : fs.get ["Posts", d] = some doc
  listed : isListed doc
  path_eq : doc.string "path" = some path
  imageURL_eq : doc.string "imageURL" = none

/-- The write links an unlinked document. -/
def IsLink (S : StorageService) (fs : Firestore) (r : Req) : Prop :=
  ∃ d path doc, Unlinked fs d path doc ∧ r = link S d path

/-- The collection is the starting one with some of its documents linked. -/
def Derived (S : StorageService) (fs₀ fs : Firestore) : Prop :=
  ∀ d, fs.get ["Posts", d] = fs₀.get ["Posts", d] ∨
    ∃ path doc, Unlinked fs₀ d path doc ∧ fs.get ["Posts", d] = some (linked S path doc)

theorem Derived.refl (S : StorageService) (fs : Firestore) : Derived S fs fs := fun _ => .inl rfl

theorem Derived.ids_eq (h : Derived S fs₀ fs) : ids fs = ids fs₀ := by
  ext d
  rw [mem_ids, mem_ids]
  rcases h d with heq | ⟨path, doc, hu, heq⟩
  · rw [heq]
  · simp [heq, hu.get_eq]

/-- An unlinked document is still as it was, or it is linked. -/
theorem Derived.cases (h : Derived S fs₀ fs) (hu : Unlinked fs₀ d path doc) :
    (fs.get ["Posts", d] = some doc ∧ d ∈ unresolved fs) ∨
      (fs.get ["Posts", d] = some (linked S path doc) ∧ d ∉ unresolved fs) := by
  rcases h d with heq | ⟨path', doc', hu', heq⟩
  · rw [hu.get_eq] at heq
    exact .inl ⟨heq, mem_unresolved.mpr ⟨doc, heq, hu.imageURL_eq⟩⟩
  · -- all lookups of a document are of the same thumbnail
    obtain rfl := Option.some.inj (hu.get_eq.symm.trans hu'.get_eq)
    obtain rfl := Option.some.inj (hu.path_eq.symm.trans hu'.path_eq)
    refine .inr ⟨heq, fun hmem => ?_⟩
    obtain ⟨doc', hdoc', hnone⟩ := mem_unresolved.mp hmem
    obtain rfl := Option.some.inj (heq.symm.trans hdoc')
    rw [string_linked] at hnone
    cases hnone

/-! ## Writes of links -/

/-- The documents after a link was written. -/
theorem Derived.get_link (h : Derived S fs₀ fs) (hu : Unlinked fs₀ d path doc) (e : String) :
    (applyToLocalView fs (link S d path)).get ["Posts", e] =
      if e = d then some (linked S path doc) else fs.get ["Posts", e] := by
  simp only [applyToLocalView, if_true, Firestore.get_set, List.cons.injEq, and_true, true_and]
  split
  next he =>
    rcases h.cases hu with ⟨heq, -⟩ | ⟨heq, -⟩
    · rw [heq, Option.getD_some]
    · rw [heq, Option.getD_some]
      exact congrArg some (linked_linked S path doc)
  next => rfl

theorem Derived.link (h : Derived S fs₀ fs) (hr : IsLink S fs₀ r) :
    Derived S fs₀ (applyToLocalView fs r) := by
  obtain ⟨d, path, doc, hu, rfl⟩ := hr
  intro e
  rw [h.get_link hu]
  split
  next he => exact .inr ⟨path, doc, he ▸ hu, rfl⟩
  next => exact h e

/-- **A link takes its document out of the unresolved ones.** -/
theorem Derived.mem_unresolved_link (h : Derived S fs₀ fs) (hu : Unlinked fs₀ d path doc)
    (e : String) : e ∈ unresolved (applyToLocalView fs (SociallyUIKit.link S d path)) ↔
      e ∈ unresolved fs ∧ e ≠ d := by
  rw [mem_unresolved, mem_unresolved, h.get_link hu]
  by_cases he : e = d
  · simp [he, string_linked]
  · simp [he]

/-- Several writes of links. -/
theorem Derived.foldl {writes : List Req} (h : Derived S fs₀ fs)
    (hwrites : ∀ r ∈ writes, IsLink S fs₀ r) :
    Derived S fs₀ (writes.foldl applyToLocalView fs) ∧
      ∀ e, e ∈ unresolved (writes.foldl applyToLocalView fs) ↔
        e ∈ unresolved fs ∧ ∀ path, SociallyUIKit.link S e path ∉ writes := by
  induction writes generalizing fs with
  | nil => simpa using h
  | cons r writes ih =>
      have hr := hwrites r List.mem_cons_self
      obtain ⟨hderived, hmem⟩ := ih (h.link hr) fun r hr => hwrites r (List.mem_cons_of_mem _ hr)
      refine ⟨hderived, fun e => ?_⟩
      obtain ⟨d, path, doc, hu, rfl⟩ := hr
      rw [List.foldl_cons, hmem, h.mem_unresolved_link hu, and_assoc]
      refine and_congr_right fun _ => ⟨?_, fun hnot => ⟨?_, fun path' hmem => ?_⟩⟩
      · rintro ⟨he, hrest⟩ path' hmem
        rcases List.mem_cons.mp hmem with heq | hmem
        · simp only [SociallyUIKit.link, Req.setData.injEq, List.cons.injEq] at heq
          exact he heq.1.2.1
        · exact hrest path' hmem
      · rintro rfl
        exact hnot path List.mem_cons_self
      · exact hnot path' (List.mem_cons_of_mem _ hmem)

/-- Two views of a document that the query lists. -/
theorem seesChange_of_get {p : Path} {doc doc' : Document} (fields : Fields) (merge : Bool)
    (h : fs.get p = some doc) (hlisted : isListed doc) (h' : fs'.get p = some doc')
    (hlisted' : isListed doc') : seesChange fs fs' (.setData p fields merge) =
      fields.any fun field => doc field.1 != doc' field.1 := by
  have hfilter : (some doc).filter isListed = some doc := Option.filter_some_pos hlisted
  have hfilter' : (some doc').filter isListed = some doc' := Option.filter_some_pos hlisted'
  simp only [seesChange, h, h', hfilter, hfilter']

/-- **When the query sees a change**: when the document of the write is unresolved in one of the
two views only. -/
theorem Derived.seesChange_link (h : Derived S fs₀ fs) (h' : Derived S fs₀ fs')
    (hu : Unlinked fs₀ d path doc) :
    seesChange fs fs' (SociallyUIKit.link S d path) = true ↔
      (d ∈ unresolved fs ↔ d ∉ unresolved fs') := by
  have hlisted : isListed (linked S path doc) = true := (isListed_linked S path doc).trans hu.listed
  have hurl : doc "imageURL" ≠ linked S path doc "imageURL" := by
    intro heq
    have hnone := hu.imageURL_eq
    rw [Document.string, heq] at hnone
    cases hnone
  rcases h.cases hu with ⟨heq, hmem⟩ | ⟨heq, hmem⟩ <;>
  rcases h'.cases hu with ⟨heq', hmem'⟩ | ⟨heq', hmem'⟩
  · rw [seesChange_of_get _ _ heq hu.listed heq' hu.listed]
    simp [hmem, hmem']
  · rw [seesChange_of_get _ _ heq hu.listed heq' hlisted]
    simp [hmem, hmem', Post.thumbnailFields, hurl]
  · rw [seesChange_of_get _ _ heq hlisted heq' hu.listed]
    simp [hmem, hmem', Post.thumbnailFields, hurl.symm]
  · rw [seesChange_of_get _ _ heq hlisted heq' hlisted]
    simp [hmem, hmem']

/-- **A link changes the documents once**: its document becomes resolved, or nothing changes. -/
theorem Derived.seesChange_cases (h : Derived S fs₀ fs) (hr : IsLink S fs₀ r)
    (hfs' : fs' = applyToLocalView fs r) :
    (seesChange fs fs' r = true ∧ (unresolved fs').card + 1 = (unresolved fs).card) ∨
      (seesChange fs fs' r = false ∧ unresolved fs' = unresolved fs ∧
        ∀ e, fs'.get ["Posts", e] = fs.get ["Posts", e]) := by
  subst hfs'
  have hlinked := h.link hr
  obtain ⟨d, path, doc, hu, rfl⟩ := hr
  have hsees := h.seesChange_link hlinked hu
  have hmem := h.mem_unresolved_link hu
  have herase : unresolved (applyToLocalView fs (SociallyUIKit.link S d path)) =
      (unresolved fs).erase d := by
    ext e
    rw [hmem, Finset.mem_erase, and_comm]
  have hd : d ∉ unresolved (applyToLocalView fs (SociallyUIKit.link S d path)) := by
    simp [herase]
  rcases h.cases hu with ⟨-, hbefore⟩ | ⟨hget, hbefore⟩
  · refine .inl ⟨hsees.mpr ⟨fun _ => hd, fun _ => hbefore⟩, ?_⟩
    rw [herase, Finset.card_erase_add_one hbefore]
  · refine .inr ⟨?_, by rw [herase, Finset.erase_eq_of_notMem hbefore], fun e => ?_⟩
    · exact Bool.eq_false_of_not_eq_true fun h' => hbefore ((hsees.mp h').mpr hd)
    · rw [h.get_link hu]
      split
      next he => rw [he, hget]
      next => rfl

theorem seesChange_self (fs : Firestore) (r : Req) : seesChange fs fs r = false := by
  unfold seesChange
  split
  · split
    next h h' =>
      obtain rfl := Option.some.inj (h.symm.trans h')
      simp
    next => rfl
    next hsome hnone =>
      exfalso
      cases h : (fs.get _).filter isListed with
      | none => exact hnone h h
      | some doc => exact hsome doc doc h h
  · rfl

/-- **A snapshot is paid for** by a document that was unresolved before. -/
theorem Derived.card_lt_of_sees {writes : List Req} (h : Derived S fs₀ fs)
    (h' : Derived S fs₀ fs') (hwrites : ∀ r ∈ writes, IsLink S fs₀ r)
    (hsub : unresolved fs' ⊆ unresolved fs) (hsees : writes.any (seesChange fs fs')) :
    (unresolved fs').card < (unresolved fs).card := by
  obtain ⟨r, hr, hsees⟩ := List.any_eq_true.mp hsees
  obtain ⟨d, path, doc, hu, rfl⟩ := hwrites r hr
  have hd := (h.seesChange_link h' hu).mp hsees
  refine Finset.card_lt_card ⟨hsub, fun hsup => ?_⟩
  by_cases hmem : d ∈ unresolved fs
  · exact hd.mp hmem (hsup hmem)
  · exact hmem (hsub (not_not.mp fun hnot => hmem (hd.mpr hnot)))

/-- What a row says about its document: where a thumbnail is to be looked up, the document was
unlinked at the start. -/
def Fits (fs₀ : Firestore) (post : Post) : Prop :=
  post.imageURL = none → ∀ path, post.path = some path →
    ∃ d doc, post.id = some d ∧ Unlinked fs₀ d path doc

/-- The rows of a snapshot fit the starting collection. -/
theorem Derived.fits (h : Derived S fs₀ fs) {post : Post} (hpost : post ∈ orderedFeed fs) :
    Fits fs₀ post := by
  obtain ⟨⟨d, doc⟩, hlisted, hinit⟩ := List.mem_filterMap.mp hpost
  obtain rfl := Option.some.inj hinit
  obtain ⟨hdoc, hdate⟩ := Firestore.mem_query.mp hlisted
  intro hurl path hpath
  rcases h d with heq | ⟨path', doc', -, heq⟩
  · exact ⟨d, doc, rfl, heq.symm.trans hdoc, hdate, hpath, hurl⟩
  · obtain rfl := Option.some.inj (heq.symm.trans hdoc)
    rw [string_linked] at hurl
    cases hurl

/-! ## What a device is given -/

section clients
variable {client : FeedClient} {store : LocalStore} {n : ℕ}

/-- The store of a device: views of the collection, under writes of links. -/
structure Stored (S : StorageService) (fs₀ : Firestore) (store : LocalStore) : Prop where
  remote : Derived S fs₀ store.remoteDocuments
  queue : ∀ r ∈ store.mutationQueue, IsLink S fs₀ r
  events : ∀ r ∈ store.remoteEvents, IsLink S fs₀ r

namespace Stored

theorem localView (h : Stored S fs₀ store) : Derived S fs₀ store.localView :=
  (h.remote.foldl h.queue).1

/-- The unresolved documents of the local view. -/
theorem mem_unresolved (h : Stored S fs₀ store) (d : String) : d ∈ unresolved store.localView ↔
    d ∈ unresolved store.remoteDocuments ∧ ∀ path, link S d path ∉ store.mutationQueue :=
  (h.remote.foldl h.queue).2 d

/-- A write that is issued resolves its document. -/
theorem writeLocally (h : Stored S fs₀ store) (hr : IsLink S fs₀ r) :
    Stored S fs₀ (store.writeLocally r) ∧
      unresolved (store.writeLocally r).localView ⊆ unresolved store.localView := by
  have hstored : Stored S fs₀ (store.writeLocally r) := by
    refine ⟨h.remote, fun r' hr' => ?_, h.events⟩
    rcases List.mem_append.mp hr' with hr' | hr'
    · exact h.queue r' hr'
    · exact List.mem_singleton.mp hr' ▸ hr
  refine ⟨hstored, fun d hd => ?_⟩
  obtain ⟨hd, hnot⟩ := (hstored.mem_unresolved d).mp hd
  exact (h.mem_unresolved d).mpr ⟨hd, fun path hmem => hnot path (List.mem_append_left _ hmem)⟩

/-- A write that is acknowledged stays in the local view. -/
theorem acknowledgeBatch (h : Stored S fs₀ store) (hr : store.mutationQueue.head? = some r) :
    Stored S fs₀ (store.acknowledgeBatch r) ∧
      (store.acknowledgeBatch r).localView = store.localView := by
  obtain ⟨queue, hqueue⟩ := List.head?_eq_some_iff.mp hr
  refine ⟨⟨h.remote.link (h.queue r (hqueue ▸ List.mem_cons_self)),
    fun r' hr' => h.queue r' (List.mem_of_mem_tail hr'), h.events⟩, ?_⟩
  rw [LocalStore.localView, LocalStore.localView, LocalStore.acknowledgeBatch, hqueue]
  rfl

theorem rejectBatch (h : Stored S fs₀ store) : Stored S fs₀ store.rejectBatch :=
  ⟨h.remote, fun r' hr' => h.queue r' (List.mem_of_mem_tail hr'), h.events⟩

/-- A write that is rolled back makes no other document unresolved. -/
theorem unresolved_rejectBatch (h : Stored S fs₀ store)
    (hr : store.mutationQueue.head? = some (link S d path)) :
    unresolved store.rejectBatch.localView ⊆ insert d (unresolved store.localView) := by
  obtain ⟨queue, hqueue⟩ := List.head?_eq_some_iff.mp hr
  intro e he
  obtain ⟨he, hnot⟩ := (h.rejectBatch.mem_unresolved e).mp he
  by_cases hd : e = d
  · exact Finset.mem_insert.mpr (.inl hd)
  · refine Finset.mem_insert_of_mem ((h.mem_unresolved e).mpr ⟨he, fun path' hmem => ?_⟩)
    rw [hqueue] at hmem
    rcases List.mem_cons.mp hmem with heq | hmem
    · simp only [link, Req.setData.injEq, List.cons.injEq] at heq
      exact hd heq.1.2.1
    · exact hnot path' (by rwa [LocalStore.rejectBatch, hqueue])

/-- The server tells of links, which resolve more documents. -/
theorem applyRemoteEvent (h : Stored S fs₀ store) (count : ℕ) :
    Stored S fs₀ (store.applyRemoteEvent count) ∧
      unresolved (store.applyRemoteEvent count).localView ⊆ unresolved store.localView := by
  have hevents : ∀ r ∈ store.remoteEvents.take count, IsLink S fs₀ r :=
    fun r hr => h.events r (List.mem_of_mem_take hr)
  obtain ⟨hremote, hmem⟩ := h.remote.foldl hevents
  have hstored : Stored S fs₀ (store.applyRemoteEvent count) :=
    ⟨hremote, h.queue, fun r hr => h.events r (List.mem_of_mem_drop hr)⟩
  refine ⟨hstored, fun d hd => ?_⟩
  obtain ⟨hd, hnot⟩ := (hstored.mem_unresolved d).mp hd
  exact (h.mem_unresolved d).mpr ⟨((hmem d).mp hd).1, hnot⟩

end Stored

/-- All that a device holds, is about to be shown and still has to configure fits the starting
collection. -/
structure Given (S : StorageService) (fs₀ : Firestore) (client : FeedClient) : Prop where
  stored : Stored S fs₀ client.store
  snapshots : ∀ posts ∈ client.feed.snapshots, posts.length ≤ (ids fs₀).card ∧
    ∀ post ∈ posts, Fits fs₀ post
  changed : ∀ post ∈ client.feed.changed, Fits fs₀ post

/-- The steps for which a device has been given the occasion: a delivery for each snapshot,
and the configuration of a row and the four steps of its lookup for each row in it; as much
for each document that may still be linked in its view; and one step for each write that it
has yet to be told of. -/
def weight (n : ℕ) (client : FeedClient) : ℕ :=
  (1 + 5 * n) * (client.feed.snapshots.length + (unresolved client.store.localView).card) +
    5 * client.feed.changed.length + client.store.remoteEvents.length

theorem Given.emitNewSnapshots (h : Given S fs₀ client) (hstore : Stored S fs₀ store)
    (writes : List Req) : Given S fs₀ (client.emitNewSnapshots store writes) := by
  refine ⟨hstore, fun posts hposts => ?_, fun post hpost => ?_⟩
  · unfold FeedClient.emitNewSnapshots at hposts
    dsimp only at hposts
    split at hposts
    · rcases List.mem_append.mp hposts with hposts | hposts
      · exact h.snapshots posts hposts
      · obtain rfl := List.mem_singleton.mp hposts
        exact ⟨hstore.localView.ids_eq ▸ length_orderedFeed_le _,
          fun post => hstore.localView.fits⟩
    · exact h.snapshots posts hposts
  · unfold FeedClient.emitNewSnapshots at hpost
    dsimp only at hpost
    split at hpost <;> exact h.changed post hpost

/-- The weight after a change of the store. -/
theorem weight_emitNewSnapshots (n : ℕ) (client : FeedClient) (store : LocalStore)
    (writes : List Req) : weight n (client.emitNewSnapshots store writes) =
      (1 + 5 * n) * (client.feed.snapshots.length +
        (if writes.any (seesChange client.store.localView store.localView) then 1 else 0) +
        (unresolved store.localView).card) +
      5 * client.feed.changed.length + store.remoteEvents.length := by
  unfold weight FeedClient.emitNewSnapshots
  dsimp only
  split <;> simp

/-- **A snapshot costs nothing when documents get linked.** -/
theorem weight_of_subset (h : Given S fs₀ client) (hstore : Stored S fs₀ store)
    (writes : List Req) (hwrites : ∀ r ∈ writes, IsLink S fs₀ r)
    (hsub : unresolved store.localView ⊆ unresolved client.store.localView) :
    weight n (client.emitNewSnapshots store writes) + client.store.remoteEvents.length ≤
      weight n client + store.remoteEvents.length := by
  have hcard : (if writes.any (seesChange client.store.localView store.localView) then 1 else 0) +
      (unresolved store.localView).card ≤ (unresolved client.store.localView).card := by
    split
    next hsees =>
      have hlt := h.stored.localView.card_lt_of_sees hstore.localView hwrites hsub hsees
      omega
    next => simpa using Finset.card_le_card hsub
  have hmul := Nat.mul_le_mul_left (1 + 5 * n)
    (Nat.add_le_add_left hcard client.feed.snapshots.length)
  rw [weight_emitNewSnapshots, weight, Nat.add_assoc client.feed.snapshots.length]
  omega

theorem Given.writeMutations (h : Given S fs₀ client) (hr : IsLink S fs₀ r) :
    Given S fs₀ (client.writeMutations r) ∧
      weight n (client.writeMutations r) ≤ weight n client := by
  obtain ⟨hstore, hsub⟩ := h.stored.writeLocally hr
  refine ⟨h.emitNewSnapshots hstore _, ?_⟩
  have hweight := weight_of_subset (n := n) h hstore [r] (by simpa using hr) hsub
  exact Nat.le_of_add_le_add_right hweight

theorem Given.handleSuccessfulWrite (h : Given S fs₀ client)
    (hr : client.store.mutationQueue.head? = some r) :
    Given S fs₀ (client.handleSuccessfulWrite r) ∧
      weight n (client.handleSuccessfulWrite r) ≤ weight n client := by
  obtain ⟨hstore, hview⟩ := h.stored.acknowledgeBatch hr
  have hlink := h.stored.queue r (List.mem_of_mem_head? hr)
  refine ⟨h.emitNewSnapshots hstore _, ?_⟩
  have hweight := weight_of_subset (n := n) h hstore [r] (by simpa using hlink)
    (by rw [hview])
  exact Nat.le_of_add_le_add_right hweight

/-- **A refused write is the only one that adds weight**, when the listener sees its
rollback. -/
theorem Given.handleRejectedWrite (h : Given S fs₀ client)
    (hr : client.store.mutationQueue.head? = some r) :
    Given S fs₀ (client.handleRejectedWrite r) ∧
      weight n (client.handleRejectedWrite r) ≤
        weight n client + if client.rollsBack r then 2 * (1 + 5 * n) else 0 := by
  obtain ⟨d, path, doc, hu, rfl⟩ := h.stored.queue r (List.mem_of_mem_head? hr)
  have hstore := h.stored.rejectBatch
  have hsub := h.stored.unresolved_rejectBatch hr
  refine ⟨h.emitNewSnapshots hstore _, ?_⟩
  by_cases hrolls : client.rollsBack (link S d path)
  · have hcard := (Finset.card_le_card hsub).trans (Finset.card_insert_le _ _)
    have hmul := Nat.mul_le_mul_left (1 + 5 * n)
      (Nat.add_le_add_left hcard (client.feed.snapshots.length + 1))
    have hany : [link S d path].any
        (seesChange client.store.localView client.store.rejectBatch.localView) = true := by
      simpa [FeedClient.rollsBack] using hrolls
    rw [FeedClient.handleRejectedWrite, weight_emitNewSnapshots, if_pos hany, if_pos hrolls, weight]
    have hevents : client.store.rejectBatch.remoteEvents = client.store.remoteEvents := rfl
    rw [hevents]
    simp only [Nat.mul_add, Nat.mul_one] at hmul ⊢
    omega
  · -- the document is unresolved before the refusal if it is afterwards
    have hsame := (h.stored.localView.seesChange_link hstore.localView hu).not.mp hrolls
    have hsub' : unresolved client.store.rejectBatch.localView ⊆
        unresolved client.store.localView := by
      intro e he
      rcases Finset.mem_insert.mp (hsub he) with rfl | hmem
      · by_contra hnot
        exact hsame ⟨fun hmem => absurd hmem hnot, fun habsent => absurd he habsent⟩
      · exact hmem
    have hweight := weight_of_subset (n := n) h hstore [link S d path]
      (by simpa using ⟨d, path, doc, hu, rfl⟩) hsub'
    rw [if_neg hrolls, Nat.add_zero]
    exact Nat.le_of_add_le_add_right hweight

theorem Given.applyRemoteEvent (h : Given S fs₀ client) {count : ℕ} (hpos : 0 < count)
    (hcount : count ≤ client.store.remoteEvents.length) :
    Given S fs₀ (client.applyRemoteEvent count) ∧
      weight n (client.applyRemoteEvent count) + 1 ≤ weight n client := by
  obtain ⟨hstore, hsub⟩ := h.stored.applyRemoteEvent count
  refine ⟨h.emitNewSnapshots hstore _, ?_⟩
  have hweight := weight_of_subset (n := n) h hstore
    (client.store.remoteEvents.take count)
    (fun r hr => h.stored.events r (List.mem_of_mem_take hr)) hsub
  have hlength : (client.store.applyRemoteEvent count).remoteEvents.length =
      client.store.remoteEvents.length - count := List.length_drop ..
  rw [FeedClient.applyRemoteEvent]
  omega

theorem Given.notified (h : Given S fs₀ client) (hr : IsLink S fs₀ r) :
    Given S fs₀ (client.notified r) ∧ weight n (client.notified r) = weight n client + 1 := by
  refine ⟨⟨⟨h.stored.remote, h.stored.queue, fun r' hr' => ?_⟩, h.snapshots, h.changed⟩, ?_⟩
  · rcases List.mem_append.mp hr' with hr' | hr'
    · exact h.stored.events r' hr'
    · exact List.mem_singleton.mp hr' ▸ hr
  · simp only [weight, FeedClient.notified, List.length_append, List.length_singleton]
    rfl

/-- A snapshot that is delivered gives the occasion for less than it was an occasion for. -/
theorem Given.listen (h : Given S fs₀ client) {feed : FeedViewController}
    (hlisten : client.feed.listen = some feed) :
    Given S fs₀ { client with feed := feed } ∧
      weight (ids fs₀).card { client with feed := feed } + 1 ≤ weight (ids fs₀).card client := by
  unfold FeedViewController.listen at hlisten
  split at hlisten
  · cases hlisten
  next posts snapshots hsnapshots =>
    obtain rfl := Option.some.inj hlisten
    have hmem : ∀ posts' ∈ snapshots, posts' ∈ client.feed.snapshots := by
      rw [hsnapshots]
      exact fun posts' => List.mem_cons_of_mem _
    obtain ⟨hlength, hfits⟩ := h.snapshots posts (hsnapshots ▸ List.mem_cons_self)
    refine ⟨⟨h.stored, fun posts' hposts' => h.snapshots posts' (hmem posts' hposts'),
      fun post hpost => ?_⟩, ?_⟩
    · rcases List.mem_append.mp hpost with hold | hnew
      · exact h.changed post hold
      · exact hfits post (List.mem_filter.mp hnew).1
    · have hchanged := posts.length_filter_le (· ∉ client.feed.rows)
      simp only [weight, FeedViewController.updateDataSource, hsnapshots, List.length_append,
        List.length_cons]
      rw [Nat.add_right_comm snapshots.length, Nat.mul_add_one]
      omega

/-- A row that is configured pays for its lookup. -/
theorem Given.configured (h : Given S fs₀ client) {post : Post}
    (hpost : post ∈ client.feed.changed) :
    Given S fs₀ { client with feed := client.feed.configured post } ∧
      weight n { client with feed := client.feed.configured post } + 5 = weight n client := by
  refine ⟨⟨h.stored, h.snapshots, fun post' hpost' =>
    h.changed post' (List.mem_of_mem_erase hpost')⟩, ?_⟩
  have hlength := List.length_erase_add_one hpost
  simp only [weight, FeedViewController.configured]
  omega

end clients

end FirebaseApps.SociallyUIKit.Feed
