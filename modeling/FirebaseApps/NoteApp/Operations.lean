import FirebaseApps.Firebase.Backend
import FirebaseApps.Lib.Calls

/-!
# NoteApp: notes, and the operations of its two view models

`NoteViewModel` reads and writes the collection `Users/<uid>/Posts`, through a
reference that it computes on first use and keeps.  `AuthViewModel` signs accounts in
and out.  No callback of `NoteViewModel` does more than print, so its operations do
their work when they are called; only the callback of `createUser` goes on, to write
the profile of the new account.

Console output, `resetPassword` and the unused `selectedNote` are left out, and so is
a `signOut` that throws, which changes nothing.

## Main definitions

* `Note`, `Note.decode` — a note, and its silent decoding from a document.
* `NoteViewModel` — the state of the view model, with the lazy reference.
* `NoteViewModel.addData`, … — the operations of `NoteViewModel`.
* `AuthViewModel.signIn`, … — those of `AuthViewModel`.
-/

namespace FirebaseApps.NoteApp

/-! ## Notes -/

/-- A note; the id is that of its document. -/
structure Note where
  id : Option String
  title : Option String
  deriving DecidableEq, Repr

/-- `try? docSnap.data(as: Note.self)`.  Decoding throws when the title is there but not a
string.  The decoder takes the id from the document reference, whatever the fields are. -/
def Note.decode (documentID : String) (data : Document) : Option Note :=
  match data "title" with
  | none | some .null => some ⟨some documentID, none⟩
  | some (.string title) => some ⟨some documentID, some title⟩
  | some _ => none

/-- An `IndexSet`: its indices, in increasing order. -/
structure IndexSet where
  indices : List ℕ
  sorted : indices.Pairwise (· < ·)

/-- `Users/<uid>/Posts`. -/
def posts (uid : String) : Path := ["Users", uid, "Posts"]

/-- The documents of different accounts have different paths. -/
@[simp] theorem posts_append_inj {uid uid' id id' : String} :
    posts uid ++ [id] = posts uid' ++ [id'] ↔ uid = uid' ∧ id = id' := by
  simp [posts]

/-- The dictionary that `addData` and `updateData` write. -/
def titleField (title : String) : Fields := [("title", .value (.string title))]

/-- The state of a `NoteViewModel`. -/
structure NoteViewModel where
  notes : List Note
  /-- `lazy var databaseReference`; `none` before its first use. -/
  databaseReference : Option (Option Path)

/-- The collection that `databaseReference` holds, if it has been used and is not `nil`. -/
def NoteViewModel.cached (viewModel : NoteViewModel) : Option Path :=
  viewModel.databaseReference.join

/-- `NoteViewModel()`. -/
def NoteViewModel.new : NoteViewModel := ⟨[], none⟩

/-- The closure of `addSnapshotListener`: a missing snapshot is ignored, and the
documents that do not decode are dropped. -/
def NoteViewModel.receive (viewModel : NoteViewModel)
    (querySnapshot : Option (List (String × Document))) : NoteViewModel :=
  match querySnapshot with
  | none => viewModel
  | some documents =>
      { viewModel with notes := documents.filterMap fun doc => Note.decode doc.1 doc.2 }

/-! ## The operations -/

/-- What the code reads: the signed-in user, and the view model whose method runs. -/
structure View where
  currentUser : Option User
  viewModel : NoteViewModel

/-- What the operations do besides sending requests. -/
inductive Out
  /-- `databaseReference` gets its value. -/
  | load (reference : Option Path)
  | addSnapshotListener (collection : Path)
  | signOut
  | addStateDidChangeListener
  deriving DecidableEq

/-- Code of this app. -/
abbrev Code := Lib.Code Req Ans View Out

namespace NoteViewModel

/-- The initial value of `databaseReference`. -/
def makeReference (v : View) : Option Path := v.currentUser.map fun user => posts user.uid

/-- The value of `databaseReference` when it is used. -/
def reference (v : View) : Option Path := v.viewModel.databaseReference.getD (makeReference v)

/-- A use of `databaseReference`: the first one computes it, also when it is `nil`. -/
def useDatabaseReference (k : Option Path → Code) : Code :=
  .read fun v =>
    match v.viewModel.databaseReference with
    | some reference => k reference
    | none => .call (.load (makeReference v)) (k (makeReference v))

/-- `addData(title:)`. -/
def addData (title : String) : Code :=
  useDatabaseReference fun reference =>
    match reference with
    | none => .done
    | some collection =>
        .request (.addDocument collection (titleField title)) (fun _ => .done) .done

/-- `fetchData()`. -/
def fetchData : Code :=
  useDatabaseReference fun reference =>
    match reference with
    | none => .done
    | some collection => .call (.addSnapshotListener collection) .done

/-- `updateData(title:id:)`. -/
def updateData (title id : String) : Code :=
  useDatabaseReference fun reference =>
    match reference with
    | none => .done
    | some collection =>
        .request (.updateData (collection ++ [id]) (titleField title)) (fun _ => .done) .done

/-- The loop of `deleteData(at:)`. -/
def deleteEach : List ℕ → Code
  | [] => .done
  | index :: indices =>
      .read fun v =>
        match v.viewModel.notes[index]? with
        | none => .done -- the subscript traps
        | some note =>
            useDatabaseReference fun reference =>
              match reference with
              | none => deleteEach indices
              | some collection =>
                  .request (.deleteDocument (collection ++ [note.id.getD ""])) (fun _ => .done)
                    (deleteEach indices)

/-- `deleteData(at:)`. -/
def deleteData (indexSet : IndexSet) : Code := deleteEach indexSet.indices

end NoteViewModel

namespace AuthViewModel

/-- `listenToAuthState()`. -/
def listenToAuthState : Code := .call .addStateDidChangeListener .done

/-- `signIn(emailAddress:password:)`. -/
def signIn (emailAddress password : String) : Code :=
  .request (.signIn emailAddress password) (fun _ => .done) .done

/-- The profile that `signUp` writes. -/
def profile (emailAddress uid : String) : Fields :=
  [("email", .value (.string emailAddress)), ("uid", .value (.string uid))]

/-- `signUp(emailAddress:password:)`. -/
def signUp (emailAddress password : String) : Code :=
  .request (.createUser emailAddress password) (fun answer =>
    match answer with
    | (_, some _) => .done
    | (none, none) => .done
    | (some user, none) =>
      .request (.setData ["Users", user.uid] (profile emailAddress user.uid) false)
        (fun _ => .done) .done) .done

/-- `signOut()`. -/
def signOut : Code := .call .signOut .done

end AuthViewModel

/-- The calls the screens make. -/
inductive Call
  | listenToAuthState
  | signIn (emailAddress password : String)
  | signUp (emailAddress password : String)
  | signOut
  | fetchData
  | addData (title : String)
  | updateData (title id : String)
  | deleteData (indexSet : IndexSet)

/-- The code of a call. -/
def Call.code : Call → Code
  | .listenToAuthState => AuthViewModel.listenToAuthState
  | .signIn emailAddress password => AuthViewModel.signIn emailAddress password
  | .signUp emailAddress password => AuthViewModel.signUp emailAddress password
  | .signOut => AuthViewModel.signOut
  | .fetchData => NoteViewModel.fetchData
  | .addData title => NoteViewModel.addData title
  | .updateData title id => NoteViewModel.updateData title id
  | .deleteData indexSet => NoteViewModel.deleteData indexSet

/-- The call is one of a `NoteViewModel`. -/
def Call.isNote : Call → Bool
  | .fetchData | .addData _ | .updateData .. | .deleteData _ => true
  | _ => false

/-! ## What the operations send -/

/-- The requests that a call can send. -/
inductive Asks : Call → Req → Prop
  | signIn {email password} : Asks (.signIn email password) (.signIn email password)
  | createUser {email password} : Asks (.signUp email password) (.createUser email password)
  | profile {email password uid} :
      Asks (.signUp email password)
        (.setData ["Users", uid] (AuthViewModel.profile email uid) false)
  | add {title collection} : Asks (.addData title) (.addDocument collection (titleField title))
  | update {title id collection} :
      Asks (.updateData title id) (.updateData (collection ++ [id]) (titleField title))
  | delete {indexSet collection id} :
      Asks (.deleteData indexSet) (.deleteDocument (collection ++ [id]))

section properties
variable {Q : Req → Prop} {k : Option Path → Code}

theorem NoteViewModel.sends_useDatabaseReference (h : ∀ reference, (k reference).Sends Q) :
    (useDatabaseReference k).Sends Q := by
  intro v
  cases hcached : v.viewModel.databaseReference with
  | none => simpa [hcached, Lib.Code.Sends] using h _
  | some reference => simpa [hcached] using h reference

theorem NoteViewModel.immediate_useDatabaseReference (h : ∀ reference, (k reference).Immediate) :
    (useDatabaseReference k).Immediate := by
  intro v
  cases hcached : v.viewModel.databaseReference with
  | none => simpa [hcached, Lib.Code.Immediate] using h _
  | some reference => simpa [hcached] using h reference

theorem NoteViewModel.sends_deleteEach {indexSet : IndexSet} (indices : List ℕ) :
    (deleteEach indices).Sends (Asks (.deleteData indexSet)) := by
  induction indices with
  | nil => trivial
  | cons index indices ih =>
      intro v
      cases hnote : v.viewModel.notes[index]? with
      | none => simp [hnote, Lib.Code.Sends]
      | some note =>
          simp only [hnote]
          refine sends_useDatabaseReference fun reference => ?_
          cases reference with
          | none => exact ih
          | some collection => exact ⟨.delete, fun _ => trivial, ih⟩

theorem NoteViewModel.immediate_deleteEach (indices : List ℕ) : (deleteEach indices).Immediate := by
  induction indices with
  | nil => trivial
  | cons index indices ih =>
      intro v
      cases hnote : v.viewModel.notes[index]? with
      | none => simp [hnote, Lib.Code.Immediate]
      | some note =>
          simp only [hnote]
          refine immediate_useDatabaseReference fun reference => ?_
          cases reference with
          | none => exact ih
          | some collection => exact ⟨fun _ => rfl, ih⟩

/-- **Calls send only their own requests.** -/
theorem Call.sends_code (call : Call) : call.code.Sends (Asks call) := by
  cases call with
  | listenToAuthState => trivial
  | signIn email password => exact ⟨.signIn, fun _ => trivial, trivial⟩
  | signUp email password =>
      refine ⟨.createUser, fun answer => ?_, trivial⟩
      obtain ⟨_ | user, _ | error⟩ := answer
      · trivial
      · trivial
      · exact ⟨.profile, fun _ => trivial, trivial⟩
      · trivial
  | signOut => trivial
  | fetchData =>
      refine NoteViewModel.sends_useDatabaseReference fun reference => ?_
      cases reference <;> trivial
  | addData title =>
      refine NoteViewModel.sends_useDatabaseReference fun reference => ?_
      cases reference with
      | none => trivial
      | some collection => exact ⟨.add, fun _ => trivial, trivial⟩
  | updateData title id =>
      refine NoteViewModel.sends_useDatabaseReference fun reference => ?_
      cases reference with
      | none => trivial
      | some collection => exact ⟨.update, fun _ => trivial, trivial⟩
  | deleteData indexSet => exact NoteViewModel.sends_deleteEach _

/-- The calls of a `NoteViewModel` do their work at once. -/
theorem Call.immediate_code {call : Call} (h : call.isNote) : call.code.Immediate := by
  cases call with
  | fetchData =>
      refine NoteViewModel.immediate_useDatabaseReference fun reference => ?_
      cases reference <;> trivial
  | addData title =>
      refine NoteViewModel.immediate_useDatabaseReference fun reference => ?_
      cases reference with
      | none => trivial
      | some collection => exact ⟨fun _ => rfl, trivial⟩
  | updateData title id =>
      refine NoteViewModel.immediate_useDatabaseReference fun reference => ?_
      cases reference with
      | none => trivial
      | some collection => exact ⟨fun _ => rfl, trivial⟩
  | deleteData indexSet => exact NoteViewModel.immediate_deleteEach _
  | listenToAuthState => cases h
  | signIn email password => cases h
  | signUp email password => cases h
  | signOut => cases h

end properties

end FirebaseApps.NoteApp
