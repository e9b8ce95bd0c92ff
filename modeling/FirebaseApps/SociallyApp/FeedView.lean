import FirebaseApps.Firebase.Query
import FirebaseApps.SociallyApp.Posts

/-!
# SociallyApp: the feed and its decoder

`FeedView` shows the result of a `@FirestoreQuery`, the documents of `Posts` by publication
date, each decoded as a `Post`.  A document that does not decode is left out and its error
is kept in the configuration.  The strategy `.raise`, under which one such document would
empty the list, is tested together with the error of the configuration that the listener
has captured when the query was made, and that one is `nil`.

The results are about `feedPosts`, the list that the query gives of the documents of the
server when its listener gets them without an error: it has what the calls have published
(`feedShows_reachable`), and only grows (`feed_grows`).  What a device shows for a while may
be something else: after an error of the listener it shows nothing, and a document of its
own that the server has not answered yet comes and may go again.
-/

namespace FirebaseApps.SociallyApp

variable {S : StorageService} {fb : Firebase} {uuids : List UUID} {w w' : World} {action : Action}
variable {i j : ℕ} {op : Op} {d : String} {doc : Document}

/-- The documents of the backend. -/
abbrev database (w : World) : Firestore := w.env.firebase.firestore

/-! ## Decoding -/

/-- `struct Post`. -/
structure Post where
  id : Option String
  description : Option String
  imageURL : Option String
  datePublished : Option Date
  deriving DecidableEq, Repr

/-- `DecodingError`, with the key it is about. -/
inductive DecodingError
  | keyNotFound (key : String)
  | typeMismatch (key : String)
  deriving DecidableEq, Repr

/-- `decodeIfPresent(String.self, forKey:)`. -/
def decodeString (data : Document) (key : String) : Except DecodingError (Option String) :=
  match data key with
  | none | some .null => .ok none
  | some (.string s) => .ok (some s)
  | some _ => .error (.typeMismatch key)

/-- `decode(ServerTimestamp<Date>.self, forKey:)`: the wrapper is not optional, so the key
must be there. -/
def decodeServerTimestamp (data : Document) (key : String) : Except DecodingError (Option Date) :=
  match data key with
  | none => .error (.keyNotFound key)
  | some .null => .ok none
  | some (.timestamp dateValue) => .ok (some dateValue)
  | some _ => .error (.typeMismatch key)

/-- `data(as: Post.self)`; a `@DocumentID` takes the id of the document, whatever its fields. -/
def Post.decode (documentID : String) (data : Document) : Except DecodingError Post := do
  let description ← decodeString data "description"
  let imageURL ← decodeString data "imageURL"
  let datePublished ← decodeServerTimestamp data "datePublished"
  return ⟨some documentID, description, imageURL, datePublished⟩

/-! ## The query -/

/-- The errors that a query keeps. -/
inductive QueryError
  | query (error : NSError)
  | decoding (error : DecodingError)
  deriving DecidableEq, Repr

inductive DecodingFailureStrategy
  | ignore
  | raise
  deriving DecidableEq, Repr

/-- `FirestoreQuery.Configuration`, as far as the listener reads it. -/
structure Configuration where
  decodingFailureStrategy : DecodingFailureStrategy := .raise
  error : Option QueryError := none

/-- `FirestoreQueryObservable<[Post]>`. -/
structure FirestoreQueryObservable where
  items : List Post := []
  configuration : Configuration

namespace FirestoreQueryObservable

/-- `projectError(_:)`. -/
def projectError (self : FirestoreQueryObservable) (error : Option QueryError) :
    FirestoreQueryObservable :=
  { self with configuration := { self.configuration with error := error } }

/-- The error of a document that does not decode is projected. -/
def decodeFailure (self : FirestoreQueryObservable) (d : String × Document) :
    FirestoreQueryObservable :=
  match Post.decode d.1 d.2 with
  | .ok _ => self
  | .error error => self.projectError (some (.decoding error))

/-- The listener that `init(configuration:)` sets up; `configuration` is its own parameter,
which the closure has captured. -/
def handle (configuration : Configuration) (self : FirestoreQueryObservable)
    (querySnapshot : Option (List (String × Document))) (error : Option NSError) :
    FirestoreQueryObservable :=
  match error with
  | some error => { self with items := [] }.projectError (some (.query error))
  | none =>
    let self := self.projectError none
    match querySnapshot with
    | none => { self with items := [] }
    | some documents =>
      let self := documents.foldl decodeFailure self
      let decodedDocuments := documents.filterMap fun d => (Post.decode d.1 d.2).toOption
      if configuration.error ≠ none then
        if configuration.decodingFailureStrategy = .raise then { self with items := [] }
        else { self with items := decodedDocuments }
      else { self with items := decodedDocuments }

end FirestoreQueryObservable

/-- The query of `FeedView`. -/
def listed (fs : Firestore) : List (String × Document) := fs.query ["Posts"] "datePublished"

/-- What `FeedView` shows of these documents, given to its listener without an error. -/
def feedPosts (fs : Firestore) : List Post :=
  (FirestoreQueryObservable.handle {} ⟨[], {}⟩ (some (listed fs)) none).items

/-- The list is what decodes. -/
theorem feedPosts_eq (fs : Firestore) :
    feedPosts fs = (listed fs).filterMap fun d => (Post.decode d.1 d.2).toOption := rfl

theorem Post.decode_eq_ok {post : Post} : Post.decode d doc = .ok post ↔
    ∃ description imageURL datePublished, decodeString doc "description" = .ok description ∧
      decodeString doc "imageURL" = .ok imageURL ∧
      decodeServerTimestamp doc "datePublished" = .ok datePublished ∧
      post = ⟨some d, description, imageURL, datePublished⟩ := by
  rw [Post.decode]
  cases decodeString doc "description" <;> cases decodeString doc "imageURL" <;>
    cases decodeServerTimestamp doc "datePublished" <;>
    simp [bind, Except.bind, pure, Except.pure, eq_comm]

/-- A post is listed by the date that it shows. -/
theorem sortValue_of_decode {post : Post} {date : Date} (h : Post.decode d doc = .ok post)
    (hdate : post.datePublished = some date) :
    Firestore.sortValue "datePublished" doc = .timestamp date := by
  obtain ⟨_, _, datePublished, -, -, hdecode, rfl⟩ := Post.decode_eq_ok.mp h
  obtain rfl : datePublished = some date := hdate
  rw [decodeServerTimestamp] at hdecode
  rw [Firestore.sortValue]
  split at hdecode <;> simp_all

theorem toOption_decode {post : Post} :
    (Post.decode d doc).toOption = some post ↔ Post.decode d doc = .ok post := by
  cases Post.decode d doc <;> simp [Except.toOption]

theorem mem_feedPosts {fs : Firestore} {post : Post} : post ∈ feedPosts fs ↔
    ∃ d doc, (d, doc) ∈ listed fs ∧ Post.decode d doc = .ok post := by
  simp [feedPosts_eq, List.mem_filterMap, toOption_decode]

/-- A decoded post has the id of its document. -/
theorem Post.id_of_decode {post : Post} (h : Post.decode d doc = .ok post) : post.id = some d := by
  obtain ⟨_, _, _, -, -, -, rfl⟩ := Post.decode_eq_ok.mp h
  rfl

/-- The posts of the feed have ids of their own. -/
theorem feedPosts_distinct (fs : Firestore) : (feedPosts fs).Pairwise fun p q => p.id ≠ q.id := by
  rw [feedPosts_eq]
  refine List.Pairwise.filterMap _ (fun x y hne p hp q hq => ?_)
    (fs.distinct_query ["Posts"] "datePublished")
  rw [Post.id_of_decode (toOption_decode.mp hp), Post.id_of_decode (toOption_decode.mp hq)]
  exact fun heq => hne (Option.some.inj heq)

/-- The feed is sorted by the dates that it shows. -/
theorem feedPosts_newestFirst (fs : Firestore) : (feedPosts fs).Pairwise fun p q =>
    ∀ date date', p.datePublished = some date → q.datePublished = some date' → date' ≤ date := by
  rw [feedPosts_eq]
  refine List.Pairwise.filterMap _ (fun x y hlt p hp q hq date date' hdate hdate' => ?_)
    (fs.sorted_query ["Posts"] "datePublished")
  rw [sortValue_of_decode (toOption_decode.mp hp) hdate,
    sortValue_of_decode (toOption_decode.mp hq) hdate'] at hlt
  exact Value.timestamp_le_timestamp.mp (Prod.Lex.monotone_fst _ _ hlt.le)

/-! ## Where the documents come from -/

/-- A document of the collection was there at the start or has been added by a call. -/
def Sourced (fb : Firebase) (w : World) : Prop :=
  ∀ d doc, (database w).get ["Posts", d] = some doc →
    fb.firestore.get ["Posts", d] = some doc ∨ ∃ i, (i, d) ∈ added w

theorem added_step (hs : step S w action = some w') (h : (i, d) ∈ added w) : (i, d) ∈ added w' := by
  rcases Lib.World.log_step hs with heq | ⟨_, _, _, _, _, -, heq, -⟩
  · rwa [added, heq]
  · rw [added, heq, List.filterMap_append]
    exact List.mem_append_left _ h

theorem Sourced.step (h : Sourced fb w) (hk : Known S uuids w)
    (hs : SociallyApp.step S w action = some w') : Sourced fb w' := by
  intro d doc hget
  have hold : (database w).get ["Posts", d] = some doc →
      fb.firestore.get ["Posts", d] = some doc ∨ ∃ i, (i, d) ∈ added w' := by
    intro hget
    rcases h d doc hget with hfb | ⟨i, hi⟩
    · exact .inl hfb
    · exact .inr ⟨i, added_step hs hi⟩
  rcases firebase_step hs with heq |
    ⟨i, choice, op, op', r, callback, a, hi, ht, hfb, hop', -, hhistory⟩ |
    ⟨device, user, heq⟩ | ⟨name, hm⟩
  · exact hold (by rwa [database, heq] at hget)
  · rcases (hk.code.waiting hi ht).kinds with
      ⟨rfl, -⟩ | ⟨name, rfl⟩ | ⟨fields, rfl⟩ | ⟨uid, url, rfl⟩
    case inr.inr.inl =>
      have hevent : (⟨.addDocument ["Posts"] fields, choice, a⟩ : Event) ∈ op'.history := by
        rw [hhistory]
        exact List.mem_append_right _ List.mem_cons_self
      generalize hfb' : w'.env.firebase = firebase at hfb
      rw [database, hfb'] at hget
      cases Firebase.settled_of_serve hfb with
      | failed => exact hold hget
      | @addDocument _ _ id hfresh =>
          by_cases hd : d = id
          · subst hd
            exact .inr ⟨i, (mem_added (hk.step hs)).mpr ⟨op', fields, none, hop', hevent⟩⟩
          · refine hold ?_
            rwa [Firebase.firestore_setDocument, Firestore.get_set,
              if_neg (by simpa using hd)] at hget
    all_goals exact hold (by rwa [database, Firebase.firestore_serve hfb rfl] at hget)
  · exact hold (by rwa [database, heq] at hget)
  · exact hold (by rwa [database, firestore_makeThumbnail hm] at hget)

/-! ## What the feed shows of the documents -/

/-- The post that a call publishes under the id `d`. -/
def publishedPost (S : StorageService) (u : UUID) (description : String) (date : Date)
    (d : String) :
    Post :=
  ⟨some d, some description, some (S.downloadURL (thumbPath u.uuidString)), some date⟩

/-- The feed shows what the calls have published, and what it could show before them. -/
structure FeedShows (S : StorageService) (fb : Firebase) (w : World) (posts : List Post) :
    Prop where
  /-- Every document that a call has added is shown once, as the call had it. -/
  published : ∀ i d, (i, d) ∈ added w → ∃ op u description date data, w.ops i = some op ∧
    op.call = .addData u description date data ∧
    posts.filter (·.id = some d) = [publishedPost S u description date d]
  /-- What else is shown was in the collection at the start. -/
  old : ∀ post ∈ posts, ∃ d, post.id = some d ∧ ((∃ i, (i, d) ∈ added w) ∨
    ∃ doc, fb.firestore.get ["Posts", d] = some doc ∧ Post.decode d doc = .ok post)
  newestFirst : posts.Pairwise fun p q => ∀ date date', p.datePublished = some date →
    q.datePublished = some date' → date' ≤ date

/-- A post of the feed is the only one with its id. -/
theorem filter_feedPosts {fs : Firestore} {post : Post} (h : post ∈ feedPosts fs)
    (hid : post.id = some d) : (feedPosts fs).filter (·.id = some d) = [post] := by
  have hdistinct : ((feedPosts fs).filter (·.id = some d)).Pairwise fun p q => p.id ≠ q.id :=
    (feedPosts_distinct fs).filter _
  have hids : ∀ p ∈ (feedPosts fs).filter (·.id = some d), p.id = some d := fun p hp => by
    simpa using (List.mem_filter.mp hp).2
  have hmem : post ∈ (feedPosts fs).filter (·.id = some d) := by simp [h, hid]
  match hlist : (feedPosts fs).filter (·.id = some d) with
  | [] => rw [hlist] at hmem; cases hmem
  | [p] => rw [hlist] at hmem; rw [hlist, List.mem_singleton.mp hmem]
  | p :: q :: rest =>
      rw [hlist] at hdistinct hids
      exact absurd ((hids p (by simp)).trans (hids q (by simp)).symm)
        ((List.pairwise_cons.mp hdistinct).1 q (by simp))

/-- The document that a call has added decodes, to the post of the call. -/
theorem decode_newPost (S : StorageService) (u : UUID) (description : String) (date : Date)
    (d : String) : Post.decode d (Document.empty.merge
      (PostViewModel.newPost description date (S.downloadURL (thumbPath u.uuidString)))) =
    .ok (publishedPost S u description date d) := rfl

/-- What is known of a run, for the feed. -/
structure FeedInv (S : StorageService) (fb : Firebase) (uuids : List UUID) (w : World) : Prop where
  known : Known S uuids w
  posted : Posted w
  sourced : Sourced fb w

theorem feedInv_reachable (h : Reachable S fb uuids w) : FeedInv S fb uuids w := by
  refine Lib.Reachable.invariant (P := FeedInv S fb uuids) h
    ⟨known_initial S fb uuids, (fun _ _ _ _ _ h => by cases h), fun d doc hget => .inl hget⟩ ?_
  rintro w a w' ⟨hk, hposted, hsourced⟩ hs
  exact ⟨hk.step hs, hposted.step hk hs, hsourced.step hk hs⟩

/-- **The feed shows what has been published.**  Documents that do not decode, which the
collection may have held from the start, hide none of the posts of the calls. -/
theorem feedShows_reachable (h : Reachable S fb uuids w) :
    FeedShows S fb w (feedPosts (database w)) := by
  obtain ⟨hk, hposted, hsourced⟩ := feedInv_reachable h
  refine ⟨fun i d hadd => ?_, fun post hmem => ?_, feedPosts_newestFirst _⟩
  · obtain ⟨op, fields, a, hop, he⟩ := (mem_added hk).mp hadd
    have hget := hposted i op fields d a hop he
    obtain ⟨before, after, hsplit⟩ := List.append_of_mem he
    obtain ⟨u, description, date, data, hcall, -, rfl⟩ := served_adds hk hop hsplit
    refine ⟨op, u, description, date, data, hop, hcall, filter_feedPosts ?_ rfl⟩
    exact mem_feedPosts.mpr ⟨d, _, Firestore.mem_query.mpr ⟨hget, rfl⟩, decode_newPost S u _ _ d⟩
  · obtain ⟨d, doc, hlisted, hdecode⟩ := mem_feedPosts.mp hmem
    have hget : (database w).get ["Posts", d] = some doc := (Firestore.mem_query.mp hlisted).1
    refine ⟨d, Post.id_of_decode hdecode, ?_⟩
    rcases hsourced d doc hget with hfb | hadd
    · exact .inr ⟨doc, hfb, hdecode⟩
    · exact .inl hadd

theorem feedShows_twoUploads : ∃ w,
    Lib.run (step .plain) (initial .empty []) twoUploads = some w ∧
    FeedShows .plain .empty w (feedPosts (database w)) := by
  have hrun : ∃ w, Lib.run (step .plain) (initial .empty []) twoUploads = some w := ⟨_, rfl⟩
  obtain ⟨w, hw⟩ := hrun
  exact ⟨w, hw, feedShows_reachable ⟨_, hw⟩⟩

/-! ## The feed along a run -/

/-- Documents stay as they are. -/
theorem get_run (h : Reachable S fb uuids w) {actions : List Action}
    (hrun : Lib.run (step S) w actions = some w') {p : Path}
    (hget : (database w).get p = some doc) :
    (database w').get p = some doc := by
  have hinv : Known S uuids w' ∧ (database w').get p = some doc := by
    refine Lib.run_invariant (P := fun w => Known S uuids w ∧ (database w).get p = some doc) ?_
      ⟨(feedInv_reachable h).known, hget⟩ hrun
    rintro w a w' ⟨hk, hget⟩ hs
    exact ⟨hk.step hs, (get_step hk hs (Firestore.mem_used_of_get hget)).trans hget⟩
  exact hinv.2

/-- **The feed only grows**: what the query gives of the documents of the server it goes on to
give, unchanged and in the same order, with what is published later put in between. -/
theorem feed_grows (h : Reachable S fb uuids w) {actions : List Action}
    (hrun : Lib.run (step S) w actions = some w') :
    (feedPosts (database w)).Sublist (feedPosts (database w')) := by
  rw [feedPosts_eq, feedPosts_eq]
  exact (Firestore.query_sublist fun d doc hget => get_run h hrun hget).filterMap _

/-- The earlier post is published last and goes below the other one. -/
theorem feed_grows_twoUploads : ∃ w w',
    Lib.run (step .plain) (initial .empty []) (twoUploads.take 13) = some w ∧
    Lib.run (step .plain) w (twoUploads.drop 13) = some w' ∧
    (feedPosts (database w)).map Post.id = [some "e"] ∧
    (feedPosts (database w')).map Post.id = [some "e", some "d"] ∧
    (feedPosts (database w)).Sublist (feedPosts (database w')) := by
  have hrun : ∃ w w', Lib.run (step .plain) (initial .empty []) (twoUploads.take 13) = some w ∧
      Lib.run (step .plain) w (twoUploads.drop 13) = some w' ∧
      (feedPosts (database w)).map Post.id = [some "e"] ∧
      (feedPosts (database w')).map Post.id = [some "e", some "d"] :=
    ⟨_, _, rfl, rfl, by decide, by decide⟩
  obtain ⟨w, w', hw, hw', hids, hids'⟩ := hrun
  exact ⟨w, w', hw, hw', hids, hids', feed_grows ⟨_, hw⟩ hw'⟩

end FirebaseApps.SociallyApp
