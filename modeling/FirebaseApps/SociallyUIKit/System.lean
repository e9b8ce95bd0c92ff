import FirebaseApps.Firebase.Query
import FirebaseApps.SociallyUIKit.Post
import FirebaseApps.Lib.Places

/-!
# Socially-UIKit: any number of devices over one backend

The environment is the backend, the posts each device has been shown, and the
UUIDs drawn so far.  A device can only edit, delete or look up a post it holds a
copy of; copies come from feed snapshots (the listener or `reloadData`) and from
successful edits, and stay usable however old they are.

`reloadData` calls `checkImageURL` for each post of its snapshot that has a path,
and a feed row does so for the post it shows: both are calls of the device that
got the snapshot, at any later time.

The writes of one device are served in any order here.  The SDK serves them in the order in
which they were issued, so it has fewer runs.

## Main definitions

* `listed`, `orderedFeed` — the query of the feed and the posts decoded from it.
* `Env`, `host` — the app as a callback host.
* `Waiting` — the requests an operation can be waiting for.
* `Init`, `Reachable` — runs from a backend on which no call has been made.
-/

namespace FirebaseApps.SociallyUIKit

open Lib (Task)

/-- The backend, and what the devices hold. -/
structure Env where
  firebase : Firebase
  /-- Every `Post` value a device has been given. -/
  posts : Device → List Post
  /-- The UUIDs drawn so far. -/
  uuids : List UUID

/-- What happens without a call of this app's operations. -/
inductive Act
  /-- A feed snapshot arrives on a device. -/
  | snapshot (device : Device)
  | signIn (device : Device) (user : User)
  | signOut (device : Device)
  /-- The server makes the thumbnail of an object. -/
  | thumbnail (name : String)

/-- `documents.compactMap { Post(document: $0) }` over the documents of the feed's query, which
is ordered by `datePublished` and so lists only the documents that have this field.  They stand
here in some order; `orderedFeed` has that of the query. -/
def feed (fs : Firestore) : List Post :=
  ((fs.documents ["Posts"]).filter fun d => (d.2 "datePublished").isSome).filterMap
    fun d => Post.initDocument d.1 d.2

/-- The document has a publication date, so the feed's query lists it. -/
def isListed (doc : Document) : Bool := (doc "datePublished").isSome

/-- The query of `reloadData` and `startListeningToFirestore`, newest first. -/
def listed (fs : Firestore) : List (String × Document) := fs.query ["Posts"] "datePublished"

/-- `documents.compactMap { Post(document: $0) }` over the query. -/
def orderedFeed (fs : Firestore) : List Post :=
  (listed fs).filterMap fun d => Post.initDocument d.1 d.2

/-- A device is given more posts. -/
def Env.hold (env : Env) (device : Device) (posts : List Post) : Env :=
  { env with posts := Function.update env.posts device (env.posts device ++ posts) }

/-- The effects: a successful edit replaces the post of its screen. -/
def Env.emit (env : Env) (device : Device) : Out → Env
  | .updated (.ok post) => env.hold device [post]
  | _ => env

/-- A call needs a fresh UUID, or a post the device holds. -/
def Env.accept (env : Env) (device : Device) : Call → Option Env
  | .addData path .. =>
      if path ∈ env.uuids then none else some { env with uuids := path :: env.uuids }
  | .checkImageURL post path =>
      if post ∈ env.posts device ∧ post.path = some path then some env else none
  | .updatePost post _ | .deletePost post => if post ∈ env.posts device then some env else none

/-- The moves of the environment. -/
def Env.act (S : StorageService) (env : Env) : Act → Option Env
  | .snapshot device => some (env.hold device (feed env.firebase.firestore))
  | .signIn device user =>
      some { env with firebase := env.firebase.signedIn device (some user) }
  | .signOut device => some { env with firebase := env.firebase.signedIn device none }
  | .thumbnail name =>
      (env.firebase.makeThumbnail S name).map fun firebase => { env with firebase := firebase }

/-- The app as a callback host. -/
def host (S : StorageService) :
    Lib.Host Env Device Call Act Choice Req Ans (Option User) Out where
  view env device := env.firebase.currentUser device
  emit := Env.emit
  serve env device r choice :=
    (env.firebase.serve S device r choice).map fun fa => ({ env with firebase := fa.1 }, fa.2)
  accept := Env.accept
  code := Call.code S
  act := Env.act S

/-- The app with all its operations. -/
abbrev World := Lib.World Env Device Call Choice Req Ans (Option User) Out

abbrev Op := Lib.Op Device Call Choice Req Ans (Option User) Out

abbrev Event := Lib.Event Req Ans Choice

abbrev Entry := Lib.Entry Call Choice Req Ans

abbrev Action := Lib.Action Device Call Act Choice

/-- One step of the app. -/
abbrev step (S : StorageService) (w : World) (action : Action) : Option World :=
  w.step (host S) action

/-- No call has been made and no device holds a post. -/
def initial (firebase : Firebase) : World := .initial ⟨firebase, fun _ => [], []⟩

/-- The states the app can be in, starting on this backend. -/
def Reachable (S : StorageService) (firebase : Firebase) (w : World) : Prop :=
  Lib.Reachable (step S) (initial firebase) w

variable {S : StorageService} {w w' : World}

theorem serve_eq_some {env env' : Env} {device : Device} {r : Req} {choice : Choice} {a : Ans r}
    (h : (host S).serve env device r choice = some (env', a)) :
    ∃ firebase, env.firebase.serve S device r choice = some (firebase, a) ∧
      env' = { env with firebase := firebase } :=
  Firebase.serve_of_map h

/-! ## The effects of a callback on the devices -/

@[simp] theorem firebase_hold (env : Env) (device : Device) (posts : List Post) :
    (env.hold device posts).firebase = env.firebase := rfl

@[simp] theorem uuids_hold (env : Env) (device : Device) (posts : List Post) :
    (env.hold device posts).uuids = env.uuids := rfl

theorem mem_posts_hold {env : Env} {device d : Device} {posts : List Post} {post : Post} :
    post ∈ (env.hold device posts).posts d ↔
      post ∈ env.posts d ∨ (d = device ∧ post ∈ posts) := by
  by_cases h : d = device
  · subst h; simp [Env.hold]
  · simp [Env.hold, h]

theorem firebase_emit (env : Env) (device : Device) (out : Out) :
    (env.emit device out).firebase = env.firebase ∧ (env.emit device out).uuids = env.uuids := by
  rcases out with _ | (_ | _) | _ <;> exact ⟨rfl, rfl⟩

/-- Callbacks change nothing but the posts their device holds. -/
theorem firebase_exec (device : Device) (code : Code) (env : Env) :
    ((host S).exec device code env).env.firebase = env.firebase ∧
      ((host S).exec device code env).env.uuids = env.uuids := by
  refine (host S).exec_env_invariant
    (P := fun env' => env'.firebase = env.firebase ∧ env'.uuids = env.uuids)
    (fun out _ env' h => ?_) ⟨rfl, rfl⟩
  obtain ⟨hfirebase, huuids⟩ := firebase_emit env' device out
  exact ⟨hfirebase.trans h.1, huuids.trans h.2⟩

/-- A device gets no post from a callback but by a successful edit. -/
theorem mem_posts_exec {device d : Device} {code : Code} {env : Env} {post : Post}
    (h : post ∈ ((host S).exec device code env).env.posts d) :
    post ∈ env.posts d ∨
      .updated (.ok post) ∈ ((host S).exec device code env).outs := by
  rw [Lib.Host.exec_env] at h
  generalize ((host S).exec device code env).outs = outs at h ⊢
  induction outs generalizing env with
  | nil => exact .inl h
  | cons out outs ih =>
      rcases ih h with h | h
      · rcases out with _ | (_ | edited) | _
        · exact .inl h
        · exact .inl h
        · rcases mem_posts_hold.mp h with h | ⟨-, h⟩
          · exact .inl h
          · exact .inr (by simp_all)
        · exact .inl h
      · exact .inr (List.mem_cons_of_mem _ h)

/-! ## What an operation asks and reports

`Waiting`, `Reports` and `Reading` are the contract of the four calls: which request
is out, which completion is called, and where a variable is read, after which
answers. -/

/-- A request that was served without an error. -/
def ok (r : Req) (a : Ans r) : Event := ⟨r, .success, a⟩

/-- The request that uploads the image of `addData`. -/
abbrev upload (path : UUID) (data : Data) : Req :=
  .putData path.uuidString data (some (detectMimeType data))

/-- The request that publishes the document of `addData`. -/
abbrev publish (path : UUID) (description : String) (date : Date) (user : Option User) : Req :=
  .addDocument ["Posts"] (NewPostViewController.newPost description date user path)

/-- The write of `checkImageURL`. -/
abbrev link (S : StorageService) (docId path : String) : Req :=
  .setData ["Posts", docId] (Post.thumbnailFields (S.downloadURL (thumbPath path))) true

/-- The write of `updatePost`. -/
abbrev describe (postId newDescription : String) : Req :=
  .setData ["Posts", postId] [("description", .value (.string newDescription))] true

/-- The requests that can be out for a call, with what was served before. -/
inductive Waiting (S : StorageService) (W : Option User → Prop) :
    Call → List Event → Req → Prop
  | upload {path description date data} :
      Waiting S W (.addData path description date data) [] (upload path data)
  | publish {path description date data} (user : Option User) (hW : W user) :
      Waiting S W (.addData path description date data) [ok (SociallyUIKit.upload path data) none]
        (publish path description date user)
  | lookup {post path} :
      Waiting S W (.checkImageURL post path) [] (.downloadURL (thumbPath path))
  | link {post path docId} (hid : post.id = some docId) :
      Waiting S W (.checkImageURL post path)
        [ok (.downloadURL (thumbPath path)) (some (S.downloadURL (thumbPath path)), none)]
        (link S docId path)
  | describe {post newDescription postId} (hid : post.id = some postId) :
      Waiting S W (.updatePost post newDescription) [] (describe postId newDescription)
  | readBack {post newDescription postId} (hid : post.id = some postId) :
      Waiting S W (.updatePost post newDescription)
        [ok (SociallyUIKit.describe postId newDescription) none] (.getDocument ["Posts", postId])
  | delete {post postId} (hid : post.id = some postId) :
      Waiting S W (.deletePost post) [] (.deleteDocument ["Posts", postId])
  | deleteImage {post postId imageURL} (hid : post.id = some postId)
      (hurl : post.imageURL = some imageURL) :
      Waiting S W (.deletePost post) [ok (.deleteDocument ["Posts", postId]) none]
        (.deleteObject (S.reference imageURL))

/-- The completions a call can report, with what was served before. -/
inductive Reports (S : StorageService) : Call → List Event → Out → Prop
  | added {path description date data} (history : List Event) (error : Option NSError) :
      Reports S (.addData path description date data) history (.added error)
  | notUpdated {post newDescription} (history : List Event) (error : NSError) :
      Reports S (.updatePost post newDescription) history (.updated (.error error))
  | updated {post newDescription postId data edited} (hid : post.id = some postId)
      (hedit : PostService.updatedPost ⟨postId, some data⟩ = some edited) :
      Reports S (.updatePost post newDescription)
        [ok (SociallyUIKit.describe postId newDescription) none,
          ok (.getDocument ["Posts", postId]) (some ⟨postId, some data⟩, none)]
        (.updated (.ok edited))
  | deleted {post} (history : List Event) (result : Except NSError Unit) :
      Reports S (.deletePost post) history (.deleted result)

/-- `addData` reads the signed-in user when its upload has succeeded; nothing else
reads it. -/
def Reading : Call → List Event → Prop
  | .addData path _ _ data, history => history = [ok (upload path data) none]
  | _, _ => False

/-- The contract of a call. -/
def contract (S : StorageService) (W : Option User → Prop) (call : Call) :
    Lib.Contract Req Ans Choice Out :=
  ⟨Waiting S W call, Reports S call, Reading call⟩

/-- **The calls keep their contracts.** -/
theorem meets_code (S : StorageService) (W : Option User → Prop) (call : Call) :
    (call.code S).Meets (Firebase.Answers S) W (contract S W call) [] := by
  cases call with
  | addData path description date data =>
      refine ⟨.upload, fun choice a ha => ?_, trivial⟩
      rcases ha.putData with ⟨rfl, rfl⟩ | ⟨e, rfl, rfl⟩
      · refine ⟨rfl, fun user hW => ?_⟩
        refine ⟨.publish user hW, fun choice a ha => ?_, trivial⟩
        exact ⟨.added _ _, trivial⟩
      · exact ⟨.added _ _, trivial⟩
  | checkImageURL post path =>
      refine ⟨.lookup, fun choice a ha => ?_, trivial⟩
      rcases ha.downloadURL with ⟨rfl, rfl⟩ | ⟨e, rfl, rfl⟩ | ⟨rfl, rfl⟩
      · cases hid : post.id with
        | none => simp [Lib.Code.Meets]
        | some docId =>
            simp only [Lib.Code.Meets]
            exact ⟨.link hid, fun _ _ _ => trivial, trivial⟩
      · trivial
      · trivial
  | updatePost post newDescription =>
      simp only [Call.code, PostService.updatePost]
      split
      · trivial
      next postId hid =>
        refine ⟨.describe hid, fun choice a ha => ?_, trivial⟩
        rcases ha.setData with ⟨rfl, rfl⟩ | ⟨e, rfl, rfl⟩
        · refine ⟨.readBack hid, fun choice a ha => ?_, trivial⟩
          rcases ha.getDocument with ⟨data, rfl, rfl⟩ | ⟨e, rfl, rfl⟩ | ⟨rfl, rfl⟩
          · dsimp only
            split
            next edited hedit =>
              cases data with
              | none => simp [PostService.updatedPost] at hedit
              | some data => exact ⟨.updated hid (by simpa using hedit), trivial⟩
            · trivial
          · exact ⟨.notUpdated _ _, trivial⟩
          · trivial
        · exact ⟨.notUpdated _ _, trivial⟩
  | deletePost post =>
      simp only [Call.code, PostService.deletePost]
      split
      · trivial
      next postId hid =>
        refine ⟨.delete hid, fun choice a ha => ?_, trivial⟩
        rcases ha.deleteDocument with ⟨rfl, rfl⟩ | ⟨e, rfl, rfl⟩
        · dsimp only
          split
          next imageURL hurl =>
            refine ⟨.deleteImage hid hurl, fun choice a ha => ?_, trivial⟩
            cases a with
            | none => exact ⟨.deleted _ _, trivial⟩
            | some error => exact ⟨.deleted _ _, trivial⟩
          · trivial
        · exact ⟨.deleted _ _, trivial⟩

/-! ## How `addData` ends -/

/-- An `addData` call that has come to its end: what it has had served, and the error that
it has reported. -/
inductive NewPostViewController.Ends (path : UUID) (description : String) (date : Date)
    (data : Data) : List Event → Option NSError → Prop
  | notUploaded (e : NSError) :
      Ends path description date data [⟨upload path data, .failure e, some e⟩] (some e)
  | notPublished (user : Option User) (e : NSError) :
      Ends path description date data
        [ok (upload path data) none, ⟨publish path description date user, .failure e, some e⟩]
        (some e)
  | published (user : Option User) (d : String) :
      Ends path description date data
        [ok (upload path data) none, ⟨publish path description date user, .documentID d, none⟩] none

/-- **An `addData` call that is over, or has reported, has ended in one of these ways.** -/
theorem NewPostViewController.ends_addData {S : StorageService} {W : Option User → Prop}
    {path : UUID} {description : String} {date : Date} {data : Data} {history : List Event}
    {outs : List Out} {tasks : List (Task Req Ans (Option User) Out)}
    (h : (addData path description date data fun error => .call (.added error) .done).At
      (Firebase.Answers S) W history outs tasks) (hover : tasks = [] ∨ outs ≠ []) :
    ∃ error, outs = [.added error] ∧ tasks = [] ∧
      Ends path description date data history error := by
  obtain ⟨choice, a, rest, hans, rfl, hplace⟩ := h.request_over hover
  rcases hans.putData with ⟨rfl, rfl⟩ | ⟨e, rfl, rfl⟩
  · obtain ⟨user, -, hread⟩ := hplace
    obtain ⟨choice, a, rest, hans, rfl, hreport⟩ := hread.request_over hover
    obtain ⟨rfl, houts, htasks⟩ := hreport.call_done
    refine ⟨a, houts, htasks, ?_⟩
    rcases hans.addDocument with ⟨d, rfl, rfl⟩ | ⟨e, rfl, rfl⟩
    · exact .published user d
    · exact .notPublished user e
  · obtain ⟨rfl, houts, htasks⟩ := hplace.call_done
    exact ⟨some e, houts, htasks, .notUploaded e⟩

end FirebaseApps.SociallyUIKit
