import FirebaseApps.Lib.Sending
import FirebaseApps.SociallyUIKit.PostTableViewCell
import FirebaseApps.SociallyUIKit.Writes

/-!
# Socially-UIKit: the feed and what it does on its own

Each device that shows the feed listens to the collection `Posts`.  A snapshot replaces
the items of the data source, which configures the rows that have changed, and a row
without an image URL looks its thumbnail up and writes the URL into the document.

The listener sees the local view of the SDK: the documents that the server has sent to the
device, under the writes of the device that the server has not answered.  So a write shows
on its own device when it is issued, and again when the server refuses it and it is rolled
back; another device sees it when the server tells it so.  The writes of a device are
answered in the order in which they were issued.  Each time the local view changes, the
listener gets a snapshot if the documents of its query have changed; it does not ask for
changes of metadata, so an acknowledgement alone gives none.

A row at which the app traps takes no step here, which only makes runs shorter.
-/

namespace FirebaseApps.SociallyUIKit

/-! ## The local store -/

/-- A write to one document, applied to the local documents.  The feed sends no others than
`setData`. -/
def applyToLocalView (fs : Firestore) : Req → Firestore
  | .setData p fields merge =>
      fs.set p ((if merge then (fs.get p).getD .empty else .empty).merge fields)
  | _ => fs

/-- What the SDK keeps on a device. -/
structure LocalStore where
  /-- The documents as the server has sent them. -/
  remoteDocuments : Firestore
  /-- The writes of the device that the server has not answered, oldest first. -/
  mutationQueue : List Req
  /-- The applied writes that the server has yet to tell the device of, oldest first. -/
  remoteEvents : List Req

namespace LocalStore

/-- The documents as the device sees them. -/
def localView (self : LocalStore) : Firestore :=
  self.mutationQueue.foldl applyToLocalView self.remoteDocuments

/-- The device issues a write. -/
def writeLocally (self : LocalStore) (r : Req) : LocalStore :=
  { self with mutationQueue := self.mutationQueue ++ [r] }

/-- The server has applied the first write of the queue. -/
def acknowledgeBatch (self : LocalStore) (r : Req) : LocalStore :=
  { self with
    remoteDocuments := applyToLocalView self.remoteDocuments r
    mutationQueue := self.mutationQueue.tail }

/-- The server has refused the first write of the queue. -/
def rejectBatch (self : LocalStore) : LocalStore :=
  { self with mutationQueue := self.mutationQueue.tail }

/-- The server tells the device of the next applied writes. -/
def applyRemoteEvent (self : LocalStore) (count : ℕ) : LocalStore :=
  { self with
    remoteDocuments := (self.remoteEvents.take count).foldl applyToLocalView self.remoteDocuments
    remoteEvents := self.remoteEvents.drop count }

end LocalStore

/-- Between two views of the documents, the query gains or loses the document of a write, or
finds another value in a field that the write names. -/
def seesChange (fs fs' : Firestore) : Req → Bool
  | .setData p fields _ =>
    match (fs.get p).filter isListed, (fs'.get p).filter isListed with
    | some doc, some doc' => fields.any fun field => doc field.1 != doc' field.1
    | none, none => false
    | _, _ => true
  | _ => false

/-! ## The feed of a device -/

/-- `FeedViewController`. -/
structure FeedViewController where
  /-- The snapshots on their way to the listener, oldest first. -/
  snapshots : List (List Post)
  /-- The items of `dataSource`. -/
  rows : List Post
  /-- The rows that are still to be configured. -/
  changed : List Post

namespace FeedViewController

/-- `updateDataSource(with:)`: the rows of new items are to be configured. -/
def updateDataSource (self : FeedViewController) (posts : List Post) : FeedViewController :=
  { self with rows := posts, changed := self.changed ++ posts.filter (· ∉ self.rows) }

/-- The closure of `startListeningToFirestore()` gets the next snapshot. -/
def listen (self : FeedViewController) : Option FeedViewController :=
  match self.snapshots with
  | [] => none
  | posts :: snapshots => some ({ self with snapshots := snapshots }.updateDataSource posts)

/-- The cell provider has configured the row of a post. -/
def configured (self : FeedViewController) (post : Post) : FeedViewController :=
  { self with changed := self.changed.erase post }

end FeedViewController

/-- The app on one device: its feed and the local store under it. -/
structure FeedClient where
  feed : FeedViewController
  store : LocalStore

namespace FeedClient

/-- Some writes have made the local store what it is now; the listener gets a snapshot if the
query sees a change. -/
def emitNewSnapshots (self : FeedClient) (store : LocalStore) (writes : List Req) : FeedClient where
  feed :=
    if writes.any (seesChange self.store.localView store.localView) then
      { self.feed with snapshots := self.feed.snapshots ++ [orderedFeed store.localView] }
    else self.feed
  store := store

def writeMutations (self : FeedClient) (r : Req) : FeedClient :=
  self.emitNewSnapshots (self.store.writeLocally r) [r]

def handleSuccessfulWrite (self : FeedClient) (r : Req) : FeedClient :=
  self.emitNewSnapshots (self.store.acknowledgeBatch r) [r]

def handleRejectedWrite (self : FeedClient) (r : Req) : FeedClient :=
  self.emitNewSnapshots self.store.rejectBatch [r]

def applyRemoteEvent (self : FeedClient) (count : ℕ) : FeedClient :=
  self.emitNewSnapshots (self.store.applyRemoteEvent count) (self.store.remoteEvents.take count)

/-- The listener would see the rollback of the first write of the queue. -/
def rollsBack (self : FeedClient) (r : Req) : Bool :=
  seesChange self.store.localView self.store.rejectBatch.localView r

/-- The server has a write to tell the device of. -/
def notified (self : FeedClient) (r : Req) : FeedClient :=
  { self with store.remoteEvents := self.store.remoteEvents ++ [r] }

end FeedClient

/-! ## Any number of devices -/

namespace Feed

/-- The backend, and the devices that show the feed: those below `devices`. -/
structure Env where
  firebase : Firebase
  devices : ℕ
  clients : Device → FeedClient

/-- What happens without the configuration of a row. -/
inductive Act
  /-- The listener of a device gets its next snapshot. -/
  | listen (device : Device)
  /-- A device is told of the next writes that the server has applied. -/
  | remoteEvent (device : Device) (count : ℕ)

namespace Env

/-- Replace the client of a device. -/
def setClient (env : Env) (device : Device) (self : FeedClient) : Env :=
  { env with clients := Function.update env.clients device self }

/-- A request is sent; a write is handed to the local store. -/
def emit (env : Env) (device : Device) : Out ⊕ Req → Env
  | .inl _ => env
  | .inr r =>
      if Firebase.changesDocuments r then
        env.setClient device ((env.clients device).writeMutations r)
      else env

/-- The backend has become another one by a write; all devices are to be told if the query sees
a change. -/
def written (env : Env) (firebase : Firebase) (r : Req) : Env :=
  { env with
    firebase := firebase
    clients :=
      if seesChange env.firebase.firestore firebase.firestore r then
        fun device => (env.clients device).notified r
      else env.clients }

/-- The device learns how its write has ended. -/
def answered (env : Env) (device : Device) (r : Req) (choice : Choice) : Env :=
  env.setClient device <|
    match choice with
    | .success => (env.clients device).handleSuccessfulWrite r
    | _ => (env.clients device).handleRejectedWrite r

/-- A request is served; of the writes of a device, the one that was issued first. -/
def serve (S : StorageService) (env : Env) (device : Device) (r : Req) (choice : Choice) :
    Option (Env × Ans r) :=
  if Firebase.changesDocuments r then
    if (env.clients device).store.mutationQueue.head? = some r then
      (env.firebase.serve S device r choice).map fun fa =>
        ((env.written fa.1 r).answered device r choice, fa.2)
    else none
  else
    (env.firebase.serve S device r choice).map fun fa => ({ env with firebase := fa.1 }, fa.2)

/-- A row that has changed is configured. -/
def accept (env : Env) (device : Device) (post : Post) : Option Env :=
  let self := env.clients device
  if device < env.devices ∧ post ∈ self.feed.changed then
    some (env.setClient device { self with feed := self.feed.configured post })
  else none

/-- The moves of the environment. -/
def act (env : Env) : Act → Option Env
  | .listen device =>
      if device < env.devices then
        (env.clients device).feed.listen.map fun feed =>
          env.setClient device { env.clients device with feed := feed }
      else none
  | .remoteEvent device count =>
      if device < env.devices ∧ 0 < count ∧
          count ≤ (env.clients device).store.remoteEvents.length then
        some (env.setClient device ((env.clients device).applyRemoteEvent count))
      else none

end Env

/-- The devices as a callback host; a call is the configuration of a row. -/
def host (S : StorageService) :
    Lib.Host Env Device Post Act Choice Req Ans (Option User) (Out ⊕ Req) where
  view env device := env.firebase.currentUser device
  emit := Env.emit
  serve := Env.serve S
  accept := Env.accept
  code post := (PostTableViewCell.lookup post).announced
  act := Env.act

abbrev World := Lib.World Env Device Post Choice Req Ans (Option User) (Out ⊕ Req)

abbrev Op := Lib.Op Device Post Choice Req Ans (Option User) (Out ⊕ Req)

abbrev Action := Lib.Action Device Post Act Choice

/-- One step of the devices. -/
abbrev step (S : StorageService) (w : World) (action : Action) : Option World :=
  w.step (host S) action

/-- A device that shows these rows, and has one snapshot of the documents under way. -/
def startingClient (fs : Firestore) (rows : List Post) : FeedClient :=
  ⟨⟨[orderedFeed fs], rows, []⟩, ⟨fs, [], []⟩⟩

/-- Nothing is going on but that one snapshot of the collection is under way to each
device; `rows` are what the devices show. -/
def initial (firebase : Firebase) (devices : ℕ) (rows : Device → List Post) : World :=
  .initial ⟨firebase, devices, fun device => startingClient firebase.firestore (rows device)⟩

/-- A document of the collection. -/
def document (w : World) (d : String) : Option Document :=
  w.env.firebase.firestore.get ["Posts", d]

end Feed
end FirebaseApps.SociallyUIKit
