import FirebaseApps.Firebase.Data
import FirebaseApps.Lib.Callback
import Mathlib.Logic.Function.Basic

/-!
# The backend the apps talk to

One value of `Firebase` is everything the backend holds, together with the user
each device is signed in as.  `Firebase.serve` settles one request: writes are
applied one at a time, a failed request has no effect, and the ids drawn for new
documents are fresh.

What the backend computes and the apps only pass on (download URLs, the resized
image) is a parameter, `StorageService`.

## Main definitions

* `StorageService` — download URLs and the thumbnail extension.
* `Firebase`, `Firebase.serve` — the backend and its answer to one request.
* `Firebase.makeThumbnail` — the server-side resize of an uploaded image.
* `Firebase.Settled` — the ways a request can be settled; every fact about `serve` is
  read off from it.
* `Firebase.newDocument?`, `Firebase.newAccount?` — the path or uid that a request draws.
* `Firebase.Answers` — the answers a request can get at all.
-/

namespace FirebaseApps

/-- A device: its number.  Any number of devices share one backend. -/
abbrev Device := ℕ

/-- Cloud Storage as the apps see it: every object has a download URL of its own,
`reference(forURL:)` leads back to the object, and the resize extension computes
the thumbnail of an image. -/
structure StorageService where
  downloadURL : String → String
  reference : String → String
  resize : Data → Data
  reference_downloadURL : ∀ name, reference (downloadURL name) = name

/-- Distinct objects have distinct download URLs. -/
theorem StorageService.downloadURL_injective (S : StorageService) :
    Function.Injective S.downloadURL :=
  Function.LeftInverse.injective S.reference_downloadURL

/-- A storage service to run examples on: a URL is a host and the object's name, and
the thumbnail keeps the first four bytes. -/
def StorageService.plain : StorageService where
  downloadURL name := "https://storage/" ++ name
  reference url := String.ofList (url.toList.drop 16)
  resize data := data.take 4
  reference_downloadURL name := by simp

/-- A Storage object. -/
structure Object where
  data : Data
  contentType : Option String
  deriving DecidableEq, Repr

/-- The state of the backend. -/
structure Firebase where
  firestore : Firestore
  objects : String → Option Object
  /-- `Auth.auth().currentUser` on each device. -/
  currentUser : Device → Option User
  /-- The accounts created so far. -/
  accounts : List User
  /-- The profile photo of each account, by uid. -/
  photoURL : String → Option String

namespace Firebase

/-- A backend without documents, objects and accounts. -/
def empty : Firebase := ⟨.empty, fun _ => none, fun _ => none, [], fun _ => none⟩

/-- Store an object, or remove it. -/
def setObject (fb : Firebase) (name : String) (object : Option Object) : Firebase :=
  { fb with objects := Function.update fb.objects name object }

/-- Replace the signed-in user of a device. -/
def signedIn (fb : Firebase) (device : Device) (user : Option User) : Firebase :=
  { fb with currentUser := Function.update fb.currentUser device user }

/-- Write a document. -/
def setDocument (fb : Firebase) (p : Path) (doc : Document) : Firebase :=
  { fb with firestore := fb.firestore.set p doc }

/-- Settle one request of a device; `none` when the choice does not fit it.  A document is read
as the server has it: the SDK answers so while the device is online and has no write of its
own to that document pending. -/
def serve (S : StorageService) (fb : Firebase) (device : Device) :
    (r : Req) → Choice → Option (Firebase × Ans r)
  | .putData name data contentType, .success =>
      some (fb.setObject name (some ⟨data, contentType⟩), none)
  | .putData .., .failure e => some (fb, some e)
  | .downloadURL name, .success =>
      (fb.objects name).map fun _ => (fb, (some (S.downloadURL name), none))
  | .downloadURL _, .failure e => some (fb, (none, some e))
  | .downloadURL _, .neither => some (fb, (none, none))
  | .deleteObject name, .success => (fb.objects name).map fun _ => (fb.setObject name none, none)
  | .deleteObject _, .failure e => some (fb, some e)
  | .addDocument collection fields, .documentID id =>
      if collection ++ [id] ∈ fb.firestore.used then none
      else some (fb.setDocument (collection ++ [id]) (Document.empty.merge fields), none)
  | .addDocument .., .failure e => some (fb, some e)
  -- `setData` creates the document when it is absent, also with `merge: true`.
  | .setData p fields merge, .success =>
      let old := if merge then (fb.firestore.get p).getD .empty else .empty
      some (fb.setDocument p (old.merge fields), none)
  | .setData .., .failure e => some (fb, some e)
  -- `updateData` succeeds on existing documents only.
  | .updateData p fields, .success =>
      (fb.firestore.get p).map fun old => (fb.setDocument p (old.merge fields), none)
  | .updateData .., .failure e => some (fb, some e)
  | .getDocument p, .success => some (fb, (some ⟨p.getLastD "", fb.firestore.get p⟩, none))
  | .getDocument _, .failure e => some (fb, (none, some e))
  | .getDocument _, .neither => some (fb, (none, none))
  | .deleteDocument p, .success => some ({ fb with firestore := fb.firestore.remove p }, none)
  | .deleteDocument _, .failure e => some (fb, some e)
  | .signIn email _, .account user =>
      if user.email = some email then some (fb.signedIn device (some user), (some user, none))
      else none
  | .signIn .., .failure e => some (fb, (none, some e))
  | .createUser email _, .account user =>
      if user.email = some email ∧ user.uid ∉ fb.accounts.map User.uid then
        some ({ fb.signedIn device (some user) with accounts := user :: fb.accounts },
          (some user, none))
      else none
  | .createUser .., .failure e => some (fb, (none, some e))
  | .signInWithCredential _, .account user =>
      some (fb.signedIn device (some user), (some user, none))
  | .signInWithCredential _, .failure e => some (fb, (none, some e))
  | .commitChanges uid photoURL, .success =>
      some ({ fb with photoURL := Function.update fb.photoURL uid (some photoURL) }, none)
  | .commitChanges .., .failure e => some (fb, some e)
  | _, _ => none

/-- The resize extension puts the thumbnail of an existing object under
`thumbs/`. -/
def makeThumbnail (S : StorageService) (fb : Firebase) (name : String) : Option Firebase :=
  (fb.objects name).map fun o =>
    fb.setObject (thumbPath name) (some ⟨S.resize o.data, o.contentType⟩)

section simp_lemmas
variable (fb : Firebase) (name : String) (object : Option Object) (device : Device)
  (user : Option User) (p : Path) (doc : Document)

@[simp] theorem firestore_setObject : (fb.setObject name object).firestore = fb.firestore := rfl
@[simp] theorem objects_setObject :
    (fb.setObject name object).objects = Function.update fb.objects name object := rfl
@[simp] theorem currentUser_setObject :
    (fb.setObject name object).currentUser = fb.currentUser := rfl
@[simp] theorem firestore_signedIn : (fb.signedIn device user).firestore = fb.firestore := rfl
@[simp] theorem objects_signedIn : (fb.signedIn device user).objects = fb.objects := rfl
@[simp] theorem currentUser_signedIn :
    (fb.signedIn device user).currentUser = Function.update fb.currentUser device user := rfl
@[simp] theorem firestore_setDocument :
    (fb.setDocument p doc).firestore = fb.firestore.set p doc := rfl
@[simp] theorem objects_setDocument : (fb.setDocument p doc).objects = fb.objects := rfl
@[simp] theorem currentUser_setDocument :
    (fb.setDocument p doc).currentUser = fb.currentUser := rfl

end simp_lemmas

/-! ## What serving a request does -/

/-- The answer to a request that failed. -/
def failed : (r : Req) → NSError → Ans r
  | .downloadURL _, e | .getDocument _, e => (none, some e)
  | .signIn .., e | .createUser .., e | .signInWithCredential _, e => (none, some e)
  | .putData .., e | .deleteObject _, e | .addDocument .., e | .setData .., e => some e
  | .updateData .., e | .deleteDocument _, e | .commitChanges .., e => some e

/-- Every request can fail. -/
theorem serve_failure (S : StorageService) (fb : Firebase) (device : Device) (r : Req)
    (e : NSError) : serve S fb device r (.failure e) = some (fb, failed r e) := by
  cases r <;> rfl

/-- How a request can be settled: what is left of the backend, and the answer. -/
inductive Settled (S : StorageService) (fb : Firebase) (device : Device) :
    (r : Req) → Choice → Firebase → Ans r → Prop
  | failed (r : Req) (e : NSError) : Settled S fb device r (.failure e) fb (failed r e)
  | putData (name : String) (data : Data) (contentType : Option String) :
      Settled S fb device (.putData name data contentType) .success
        (fb.setObject name (some ⟨data, contentType⟩)) none
  | downloadURL {name : String} {o : Object} (ho : fb.objects name = some o) :
      Settled S fb device (.downloadURL name) .success fb (some (S.downloadURL name), none)
  | noURL (name : String) : Settled S fb device (.downloadURL name) .neither fb (none, none)
  | deleteObject {name : String} {o : Object} (ho : fb.objects name = some o) :
      Settled S fb device (.deleteObject name) .success (fb.setObject name none) none
  | addDocument {collection : Path} {fields : Fields} {id : String}
      (hfresh : collection ++ [id] ∉ fb.firestore.used) :
      Settled S fb device (.addDocument collection fields) (.documentID id)
        (fb.setDocument (collection ++ [id]) (Document.empty.merge fields)) none
  | setData (p : Path) (fields : Fields) (merge : Bool) :
      Settled S fb device (.setData p fields merge) .success
        (fb.setDocument p
          ((if merge then (fb.firestore.get p).getD .empty else .empty).merge fields)) none
  | updateData {p : Path} {fields : Fields} {old : Document}
      (hold : fb.firestore.get p = some old) :
      Settled S fb device (.updateData p fields) .success
        (fb.setDocument p (old.merge fields)) none
  | getDocument (p : Path) :
      Settled S fb device (.getDocument p) .success fb
        (some ⟨p.getLastD "", fb.firestore.get p⟩, none)
  | noSnapshot (p : Path) : Settled S fb device (.getDocument p) .neither fb (none, none)
  | deleteDocument (p : Path) :
      Settled S fb device (.deleteDocument p) .success
        { fb with firestore := fb.firestore.remove p } none
  | signIn {email password : String} {user : User} (hemail : user.email = some email) :
      Settled S fb device (.signIn email password) (.account user)
        (fb.signedIn device (some user)) (some user, none)
  | createUser {email password : String} {user : User} (hemail : user.email = some email)
      (hnew : user.uid ∉ fb.accounts.map User.uid) :
      Settled S fb device (.createUser email password) (.account user)
        { fb.signedIn device (some user) with accounts := user :: fb.accounts }
        (some user, none)
  | signInWithCredential (credential : OAuthCredential) (user : User) :
      Settled S fb device (.signInWithCredential credential) (.account user)
        (fb.signedIn device (some user)) (some user, none)
  | commitChanges (uid photoURL : String) :
      Settled S fb device (.commitChanges uid photoURL) .success
        { fb with photoURL := Function.update fb.photoURL uid (some photoURL) } none

section settled
variable {S : StorageService} {fb fb' : Firebase} {device : Device} {r : Req} {choice : Choice}
  {a : Ans r}

/-- Every served request is settled in one of these ways. -/
theorem settled_of_serve (h : serve S fb device r choice = some (fb', a)) :
    Settled S fb device r choice fb' a := by
  -- Only the choices that fit the request are left after `simp`.
  cases r <;> cases choice <;>
    simp only [serve, Option.map_eq_some_iff, Option.ite_none_left_eq_some, Option.some.injEq,
      Option.ite_none_right_eq_some, Prod.mk.injEq, reduceCtorEq] at h
  case putData.success => obtain ⟨rfl, rfl⟩ := h; exact .putData ..
  case downloadURL.success => obtain ⟨o, ho, rfl, rfl⟩ := h; exact .downloadURL ho
  case downloadURL.neither => obtain ⟨rfl, rfl⟩ := h; exact .noURL _
  case deleteObject.success => obtain ⟨o, ho, rfl, rfl⟩ := h; exact .deleteObject ho
  case addDocument.documentID => obtain ⟨hfresh, rfl, rfl⟩ := h; exact .addDocument hfresh
  case setData.success => obtain ⟨rfl, rfl⟩ := h; exact .setData ..
  case updateData.success => obtain ⟨old, hold, rfl, rfl⟩ := h; exact .updateData hold
  case getDocument.success => obtain ⟨rfl, rfl⟩ := h; exact .getDocument _
  case getDocument.neither => obtain ⟨rfl, rfl⟩ := h; exact .noSnapshot _
  case deleteDocument.success => obtain ⟨rfl, rfl⟩ := h; exact .deleteDocument _
  case signIn.account => obtain ⟨hemail, rfl, rfl⟩ := h; exact .signIn hemail
  case createUser.account =>
    obtain ⟨⟨hemail, hnew⟩, rfl, rfl⟩ := h
    exact .createUser hemail hnew
  case signInWithCredential.account =>
    obtain ⟨rfl, rfl⟩ := h
    exact .signInWithCredential ..
  case commitChanges.success => obtain ⟨rfl, rfl⟩ := h; exact .commitChanges ..
  -- What remains has failed.
  all_goals
    obtain ⟨rfl, rfl⟩ := h
    exact .failed _ _

/-! ## Paths of documents -/

/-- The path of the document that a served request has added. -/
def newDocument? : Lib.Event Req Ans Choice → Option Path
  | ⟨.addDocument collection _, .documentID id, _⟩ => some (collection ++ [id])
  | _ => none

/-- Serving a request forgets no used path. -/
theorem used_serve (h : serve S fb device r choice = some (fb', a)) :
    ∀ p ∈ fb.firestore.used, p ∈ fb'.firestore.used := by
  intro p hp
  cases settled_of_serve h <;> simp [hp]

/-- The request is one that may change documents. -/
def changesDocuments : Req → Bool
  | .addDocument .. | .setData .. | .updateData .. | .deleteDocument _ => true
  | _ => false

/-- Other requests leave the documents alone. -/
theorem firestore_serve (h : serve S fb device r choice = some (fb', a))
    (hr : changesDocuments r = false) : fb'.firestore = fb.firestore := by
  cases settled_of_serve h with
  | addDocument | setData | updateData | deleteDocument => cases hr
  | _ => rfl

/-- A document is added under a path that was not in use. -/
theorem newDocument?_serve {p : Path} (h : serve S fb device r choice = some (fb', a))
    (hp : newDocument? ⟨r, choice, a⟩ = some p) :
    p ∉ fb.firestore.used ∧ p ∈ fb'.firestore.used := by
  cases settled_of_serve h with
  | addDocument hfresh =>
      obtain rfl := Option.some.inj hp
      exact ⟨hfresh, by simp⟩
  | failed => cases r <;> cases hp
  | _ => cases hp

/-- A snapshot has the data of its document. -/
theorem data_of_serve {p : Path} {snapshot : DocumentSnapshot} {e : Option NSError}
    (h : serve S fb device (.getDocument p) choice = some (fb', (some snapshot, e))) :
    fb.firestore.get p = snapshot.data := by
  generalize ha : ((some snapshot, e) : Ans (.getDocument p)) = a at h
  cases settled_of_serve h with
  | getDocument =>
      obtain ⟨hsnapshot, -⟩ := Prod.mk.inj ha
      rw [Option.some.inj hsnapshot]
  | failed | noSnapshot => cases ha

/-- A host that only passes the request on to its backend changes nothing else; `put` is the
host with this backend. -/
theorem serve_of_map {Env : Type} {put : Firebase → Env} {env : Env}
    (h : (serve S fb device r choice).map (fun fa => (put fa.1, fa.2)) = some (env, a)) :
    ∃ fb', serve S fb device r choice = some (fb', a) ∧ env = put fb' := by
  obtain ⟨⟨fb', b⟩, hs, heq⟩ := Option.map_eq_some_iff.mp h
  obtain ⟨rfl, rfl⟩ := Prod.mk.inj heq
  exact ⟨fb', hs, rfl⟩

/-! ## Accounts -/

/-- The uid of the account that a served request has created. -/
def newAccount? : Lib.Event Req Ans Choice → Option String
  | ⟨.createUser .., .account user, _⟩ => some user.uid
  | _ => none

/-- Only `createUser` changes the accounts. -/
theorem accounts_serve (h : serve S fb device r choice = some (fb', a)) :
    fb'.accounts =
      match r, choice with
      | .createUser .., .account user => user :: fb.accounts
      | _, _ => fb.accounts := by
  cases settled_of_serve h with
  | failed r e => cases r <;> rfl
  | _ => rfl

/-- An account is created under a uid that no account had. -/
theorem newAccount?_serve {uid : String} (h : serve S fb device r choice = some (fb', a))
    (huid : newAccount? ⟨r, choice, a⟩ = some uid) :
    uid ∉ fb.accounts.map User.uid ∧ uid ∈ fb'.accounts.map User.uid := by
  cases settled_of_serve h with
  | createUser hemail hnew =>
      obtain rfl := Option.some.inj huid
      exact ⟨hnew, List.mem_cons_self⟩
  | failed => cases r <;> cases huid
  | _ => cases huid

/-! ## The signed-in user -/

/-- A request signs a device in when it is settled with an account, and leaves the
signed-in users alone otherwise. -/
theorem currentUser_serve (h : serve S fb device r choice = some (fb', a)) :
    fb'.currentUser =
      match choice with
      | .account user => Function.update fb.currentUser device (some user)
      | _ => fb.currentUser := by
  cases settled_of_serve h <;> rfl

/-- The photo of a profile changes only by a change request that succeeds. -/
theorem photoURL_serve (h : serve S fb device r choice = some (fb', a)) :
    fb'.photoURL =
      match r, choice with
      | .commitChanges uid photoURL, .success => Function.update fb.photoURL uid (some photoURL)
      | _, _ => fb.photoURL := by
  cases settled_of_serve h with
  | failed r e => cases r <;> rfl
  | _ => rfl

/-! ## Objects -/

/-- An object changes only by an upload under its name or by its deletion. -/
theorem objects_serve (h : serve S fb device r choice = some (fb', a)) (name : String) :
    fb'.objects name = fb.objects name ∨
      (∃ data contentType, r = .putData name data contentType) ∨ r = .deleteObject name := by
  cases settled_of_serve h with
  | putData name' data contentType =>
      by_cases hname : name = name'
      · exact .inr (.inl ⟨data, contentType, by rw [hname]⟩)
      · exact .inl (by simp [hname])
  | @deleteObject name' =>
      by_cases hname : name = name'
      · exact .inr (.inr (by rw [hname]))
      · exact .inl (by simp [hname])
  | _ => exact .inl rfl

/-- Requests that neither upload nor delete an object leave Storage alone. -/
theorem objects_eq_serve (h : serve S fb device r choice = some (fb', a))
    (hput : ∀ name data contentType, r ≠ .putData name data contentType)
    (hdelete : ∀ name, r ≠ .deleteObject name) : fb'.objects = fb.objects := by
  funext name
  rcases objects_serve h name with heq | ⟨data, contentType, heq⟩ | heq
  · exact heq
  · exact absurd heq (hput name data contentType)
  · exact absurd heq (hdelete name)

end settled

/-! ## The answers a request can get -/

/-- Some backend state gives the answer `a` to `r` under this choice. -/
def Answers (S : StorageService) (r : Req) (choice : Choice) (a : Ans r) : Prop :=
  ∃ fb device fb', serve S fb device r choice = some (fb', a)

variable {S : StorageService}

theorem Answers.of_serve {fb fb' : Firebase} {device : Device} {r : Req} {choice : Choice}
    {a : Ans r} (h : serve S fb device r choice = some (fb', a)) : Answers S r choice a :=
  ⟨fb, device, fb', h⟩

theorem Answers.settled {r : Req} {choice : Choice} {a : Ans r} (h : Answers S r choice a) :
    ∃ fb device fb', Settled S fb device r choice fb' a := by
  obtain ⟨fb, device, fb', h⟩ := h
  exact ⟨fb, device, fb', settled_of_serve h⟩

theorem Answers.putData {name : String} {data : Data} {ct : Option String} {choice : Choice}
    {a : Option NSError} (h : Answers S (.putData name data ct) choice a) :
    (choice = .success ∧ a = none) ∨ ∃ e, choice = .failure e ∧ a = some e := by
  obtain ⟨fb, device, fb', h⟩ := h.settled
  cases h with
  | putData => exact .inl ⟨rfl, rfl⟩
  | failed _ e => exact .inr ⟨e, rfl, rfl⟩

theorem Answers.downloadURL {name : String} {choice : Choice} {a : Option String × Option NSError}
    (h : Answers S (.downloadURL name) choice a) :
    (choice = .success ∧ a = (some (S.downloadURL name), none)) ∨
    (∃ e, choice = .failure e ∧ a = (none, some e)) ∨ (choice = .neither ∧ a = (none, none)) := by
  obtain ⟨fb, device, fb', h⟩ := h.settled
  cases h with
  | downloadURL => exact .inl ⟨rfl, rfl⟩
  | failed _ e => exact .inr (.inl ⟨e, rfl, rfl⟩)
  | noURL => exact .inr (.inr ⟨rfl, rfl⟩)

theorem Answers.addDocument {collection : Path} {fields : Fields} {choice : Choice}
    {a : Option NSError} (h : Answers S (.addDocument collection fields) choice a) :
    (∃ id, choice = .documentID id ∧ a = none) ∨ ∃ e, choice = .failure e ∧ a = some e := by
  obtain ⟨fb, device, fb', h⟩ := h.settled
  cases h with
  | @addDocument _ _ id => exact .inl ⟨id, rfl, rfl⟩
  | failed _ e => exact .inr ⟨e, rfl, rfl⟩

theorem Answers.setData {p : Path} {fields : Fields} {merge : Bool} {choice : Choice}
    {a : Option NSError} (h : Answers S (.setData p fields merge) choice a) :
    (choice = .success ∧ a = none) ∨ ∃ e, choice = .failure e ∧ a = some e := by
  obtain ⟨fb, device, fb', h⟩ := h.settled
  cases h with
  | setData => exact .inl ⟨rfl, rfl⟩
  | failed _ e => exact .inr ⟨e, rfl, rfl⟩

theorem Answers.deleteDocument {p : Path} {choice : Choice} {a : Option NSError}
    (h : Answers S (.deleteDocument p) choice a) :
    (choice = .success ∧ a = none) ∨ ∃ e, choice = .failure e ∧ a = some e := by
  obtain ⟨fb, device, fb', h⟩ := h.settled
  cases h with
  | deleteDocument => exact .inl ⟨rfl, rfl⟩
  | failed _ e => exact .inr ⟨e, rfl, rfl⟩

theorem Answers.deleteObject {name : String} {choice : Choice} {a : Option NSError}
    (h : Answers S (.deleteObject name) choice a) :
    (choice = .success ∧ a = none) ∨ ∃ e, choice = .failure e ∧ a = some e := by
  obtain ⟨fb, device, fb', h⟩ := h.settled
  cases h with
  | deleteObject => exact .inl ⟨rfl, rfl⟩
  | failed _ e => exact .inr ⟨e, rfl, rfl⟩

theorem Answers.getDocument {p : Path} {choice : Choice}
    {a : Option DocumentSnapshot × Option NSError} (h : Answers S (.getDocument p) choice a) :
    (∃ data, choice = .success ∧ a = (some ⟨p.getLastD "", data⟩, none)) ∨
    (∃ e, choice = .failure e ∧ a = (none, some e)) ∨ (choice = .neither ∧ a = (none, none)) := by
  obtain ⟨fb, device, fb', h⟩ := h.settled
  cases h with
  | getDocument => exact .inl ⟨fb.firestore.get p, rfl, rfl⟩
  | failed _ e => exact .inr (.inl ⟨e, rfl, rfl⟩)
  | noSnapshot => exact .inr (.inr ⟨rfl, rfl⟩)

theorem Answers.createUser {email password : String} {choice : Choice}
    {a : Option User × Option NSError} (h : Answers S (.createUser email password) choice a) :
    (∃ user : User, user.email = some email ∧ choice = .account user ∧ a = (some user, none)) ∨
      ∃ e, choice = .failure e ∧ a = (none, some e) := by
  obtain ⟨fb, device, fb', h⟩ := h.settled
  cases h with
  | @createUser _ _ user hemail => exact .inl ⟨user, hemail, rfl, rfl⟩
  | failed _ e => exact .inr ⟨e, rfl, rfl⟩

end Firebase
end FirebaseApps
