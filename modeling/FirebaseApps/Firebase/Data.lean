import Mathlib.Data.List.AList
import Mathlib.Data.List.Basic

/-!
# Values, documents and requests of the Firebase SDK

The three apps talk to Firestore, Cloud Storage and Firebase Auth.  This file has
the data that crosses that border: what a document is, what the requests say and
what their callbacks receive.  A completion handler of the SDK receives a pair
`(result?, error?)`, and is modelled so, because the apps test the two parts
separately.

## Main definitions

* `Document`, `Document.merge` — fields by name, and a partial write to them.
* `Firestore` — documents by path, with the paths ever used.
* `UUID`, `thumbPath` — the names of Storage objects.
* `Req`, `Ans`, `Choice` — requests, answers, and how the backend settles them.
* `detectMimeType` — the content type the apps attach to an upload.
-/

namespace FirebaseApps

/-! ## Values and documents -/

/-- `NSError`, with the text shown by `localizedDescription`. -/
structure NSError where
  domain : String
  code : ℤ
  localizedDescription : String
  deriving DecidableEq, Repr, Inhabited

/-- The bytes of a `Foundation.Data`. -/
abbrev Data := List UInt8

/-- A `Foundation.Date`, as ticks since the reference date. -/
abbrev Date := ℤ

/-- What a Firestore field holds.  A `Date` is stored as a `Timestamp`. -/
inductive Value
  | string (s : String)
  | timestamp (dateValue : Date)
  | number (n : ℤ)
  | boolean (b : Bool)
  | null
  deriving DecidableEq, Repr

/-- `value as? String`. -/
def Value.asString : Value → Option String
  | .string s => some s
  | _ => none

/-- `(value as? Timestamp)?.dateValue()`. -/
def Value.asDate : Value → Option Date
  | .timestamp d => some d
  | _ => none

theorem Value.asString_eq_some {v : Value} {s : String} : v.asString = some s ↔ v = .string s := by
  cases v <;> simp [Value.asString]

/-- A field decoded as a string says no more than the field. -/
theorem Value.map_bind_asString {field : Option Value} {v : Value}
    (h : (field.bind asString).map string = some v) : field = some v := by
  obtain ⟨s, hs, rfl⟩ := Option.map_eq_some_iff.mp h
  obtain ⟨v, rfl, hv⟩ := Option.bind_eq_some_iff.mp hs
  rw [asString_eq_some.mp hv]

/-- What a write says about one field: a value, or `FieldValue.delete()`. -/
inductive FieldValue
  | value (v : Value)
  | delete
  deriving DecidableEq, Repr

/-- The dictionary handed to a write. -/
abbrev Fields := List (String × FieldValue)

/-- A document: its fields by name. -/
abbrev Document := String → Option Value

namespace Document

/-- A document without fields. -/
def empty : Document := fun _ => none

/-- A write with `merge: true`, or an update: only the named fields change. -/
def merge (doc : Document) (fields : Fields) : Document := fun key =>
  match fields.lookup key with
  | some (.value v) => some v
  | some .delete => none
  | none => doc key

/-- `data[key] as? String`. -/
def string (doc : Document) (key : String) : Option String := (doc key).bind Value.asString

/-- `(data[key] as? Timestamp)?.dateValue()`. -/
def date (doc : Document) (key : String) : Option Date := (doc key).bind Value.asDate

end Document

/-! ## Paths -/

/-- A Firestore path by its components: `["Posts", d]` is `Posts/d`. -/
abbrev Path := List String

/-- A `DocumentSnapshot`: `data` is `nil` when the document does not exist. -/
structure DocumentSnapshot where
  documentID : String
  data : Option Document

/-- The documents of a database by path.  `used` lists every path at which a
document has ever been written, so that fresh ids can be told. -/
structure Firestore where
  docs : AList fun _ : Path => Document
  used : List Path
  mem_used : ∀ p ∈ docs, p ∈ used

namespace Firestore

/-- The database without documents. -/
def empty : Firestore := ⟨∅, [], by simp⟩

/-- The document at a path. -/
def get (fs : Firestore) (p : Path) : Option Document := fs.docs.lookup p

/-- Write a whole document. -/
def set (fs : Firestore) (p : Path) (doc : Document) : Firestore where
  docs := fs.docs.insert p doc
  used := p :: fs.used
  mem_used q hq := by
    rcases AList.mem_insert _ |>.mp hq with rfl | hq
    · exact List.mem_cons_self
    · exact List.mem_cons_of_mem _ (fs.mem_used q hq)

/-- Remove a document; removing an absent one does nothing. -/
def remove (fs : Firestore) (p : Path) : Firestore where
  docs := fs.docs.erase p
  used := p :: fs.used
  mem_used q hq := List.mem_cons_of_mem _ (fs.mem_used q (AList.mem_erase.mp hq).2)

@[simp] theorem get_empty (p : Path) : empty.get p = none := rfl
@[simp] theorem used_empty : empty.used = [] := rfl

@[simp] theorem get_set (fs : Firestore) (p q : Path) (doc : Document) :
    (fs.set p doc).get q = if q = p then some doc else fs.get q := by
  by_cases h : q = p
  · subst h; simp [set, get]
  · simp [set, get, h]

@[simp] theorem used_set (fs : Firestore) (p : Path) (doc : Document) :
    (fs.set p doc).used = p :: fs.used := rfl

@[simp] theorem get_remove (fs : Firestore) (p q : Path) :
    (fs.remove p).get q = if q = p then none else fs.get q := by
  by_cases h : q = p
  · subst h; simp [remove, get]
  · simp [remove, get, h]

@[simp] theorem used_remove (fs : Firestore) (p : Path) : (fs.remove p).used = p :: fs.used := rfl

/-- A document that exists stands at a used path. -/
theorem mem_used_of_get {fs : Firestore} {p : Path} {doc : Document} (h : fs.get p = some doc) :
    p ∈ fs.used :=
  fs.mem_used p (AList.lookup_isSome.mp (by rw [get] at h; simp [h]))

/-- The documents directly in a collection, with their ids; the one that was written last comes
first, where a query without an order lists them by their ids. -/
def documents (fs : Firestore) (collection : Path) : List (String × Document) :=
  fs.docs.entries.filterMap fun e =>
    match e.1.getLast? with
    | some id => if e.1 = collection ++ [id] then some (id, e.2) else none
    | none => none

/-- These are exactly the documents of the collection. -/
theorem mem_documents {fs : Firestore} {collection : Path} {id : String} {doc : Document} :
    (id, doc) ∈ fs.documents collection ↔ fs.get (collection ++ [id]) = some doc := by
  have hentry : fs.get (collection ++ [id]) = some doc ↔
      (⟨collection ++ [id], doc⟩ : Sigma fun _ : Path => Document) ∈ fs.docs.entries := by
    rw [get, ← Option.mem_def, AList.mem_lookup_iff]
  rw [hentry, documents, List.mem_filterMap]
  constructor
  · rintro ⟨⟨p, d⟩, hmem, h⟩
    dsimp only at h
    split at h
    next id' _ =>
      split at h
      next hp =>
        obtain ⟨rfl, rfl⟩ := Prod.mk.inj (Option.some.inj h)
        exact hp ▸ hmem
      next => cases h
    next => cases h
  · intro hmem
    exact ⟨_, hmem, by simp⟩

/-- A query lists no id twice. -/
theorem nodup_documents (fs : Firestore) (collection : Path) :
    ((fs.documents collection).map Prod.fst).Nodup := by
  have hids : (fs.documents collection).map Prod.fst = fs.docs.keys.filterMap fun p =>
      p.getLast?.bind fun id => if p = collection ++ [id] then some id else none := by
    rw [documents, List.map_filterMap, AList.keys, List.keys, List.filterMap_map]
    congr 1
    funext e
    cases hlast : e.1.getLast? with
    | none => simp [hlast]
    | some id =>
        by_cases hp : e.1 = collection ++ [id]
        · simp [hp]
        · simp [hlast, hp]
  rw [hids]
  refine List.Nodup.filterMap (fun p q id hp hq => ?_) fs.docs.keys_nodup
  have hpath : ∀ p : Path, id ∈ (p.getLast?.bind fun id =>
      if p = collection ++ [id] then some id else none) → p = collection ++ [id] := by
    intro p hp
    obtain ⟨id', -, hp⟩ := Option.bind_eq_some_iff.mp hp
    obtain ⟨hp, heq⟩ := Option.ite_none_right_eq_some.mp hp
    rw [hp, Option.some.inj heq]
  rw [hpath p hp, hpath q hq]

end Firestore

/-! ## Storage names -/

/-- The string of a fresh `UUID`: hexadecimal digits and dashes, so no slash. -/
structure UUID where
  uuidString : String
  slash_notMem : '/' ∉ uuidString.toList
  deriving DecidableEq

/-- A UUID for example runs. -/
def UUID.sample : UUID := ⟨"7A21", by decide⟩

theorem UUID.ext_uuidString {u v : UUID} (h : u.uuidString = v.uuidString) : u = v := by
  cases u; cases v; congr

/-- `"thumbs/\(path)_320x200"`: where the server puts the thumbnail of `path`. -/
def thumbPath (path : String) : String := "thumbs/" ++ path ++ "_320x200"

theorem thumbPath_injective : Function.Injective thumbPath := by
  intro p q h
  simpa [thumbPath] using h

/-- A thumbnail never has the name of an upload. -/
theorem thumbPath_ne_uuidString (path : String) (u : UUID) : thumbPath path ≠ u.uuidString := by
  intro h
  apply u.slash_notMem
  rw [← h]
  simp [thumbPath]

/-! ## Requests -/

/-- `FirebaseAuth.User`. -/
structure User where
  uid : String
  email : Option String
  displayName : Option String
  deriving DecidableEq, Repr

/-- `OAuthProvider.credential(withProviderID:idToken:rawNonce:)`. -/
structure OAuthCredential where
  providerID : String
  idToken : String
  rawNonce : String
  deriving DecidableEq, Repr

/-- The requests of the SDK that the apps send. -/
inductive Req
  | putData (name : String) (data : Data) (contentType : Option String)
  | downloadURL (name : String)
  | deleteObject (name : String)
  | addDocument (collection : Path) (fields : Fields)
  | setData (document : Path) (fields : Fields) (merge : Bool)
  | updateData (document : Path) (fields : Fields)
  | getDocument (document : Path)
  | deleteDocument (document : Path)
  | signIn (email password : String)
  | createUser (email password : String)
  | signInWithCredential (credential : OAuthCredential)
  | commitChanges (uid : String) (photoURL : String)
  deriving DecidableEq, Repr

/-- What the callback of a request receives. -/
@[reducible] def Ans : Req → Type
  | .downloadURL _ => Option String × Option NSError
  | .getDocument _ => Option DocumentSnapshot × Option NSError
  | .signIn .. | .createUser .. | .signInWithCredential _ => Option User × Option NSError
  | _ => Option NSError

/-- How the backend settles a request: it succeeds (with the id it draws for a new
document, or the account it signs in), it fails, or it answers with neither a
result nor an error. -/
inductive Choice
  | success
  | failure (error : NSError)
  | neither
  | documentID (id : String)
  | account (user : User)
  deriving DecidableEq, Repr

/-! ## Content types -/

/-- `detectMimeType(from:)`, the same text in `NewPostViewController` and in
`PostViewModel`.  On empty data the source traps in `copyBytes`; the type of unknown data
stands here for that, which only adds runs. -/
def detectMimeType (data : Data) : String :=
  match data.headD 0 with
  | 0xFF => "image/jpeg"
  | 0x89 => "image/png"
  | 0x47 => "image/gif"
  | 0x49 | 0x4D => "image/tiff"
  | 0x25 => "application/pdf"
  | 0xD0 => "application/vnd"
  | 0x46 => "text/plain"
  | _ => "application/octet-stream"

end FirebaseApps
