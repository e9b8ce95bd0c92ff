import FirebaseApps.Firebase.Backend
import FirebaseApps.Lib.Callback

/-!
# Socially-UIKit: posts and the operations on them

The four operations that touch the collection `Posts` and the images behind it,
as callback code: `NewPostViewController.addData`, `Post.checkImageURL`,
`PostService.updatePost` and `PostService.deletePost`.  Console output is left
out; everything the operations send, test or pass on is here.

## Main definitions

* `Post`, `Post.initDocument`, `Post.initValues` — the model and two of its initialisers.
* `NewPostViewController.addData`, `Post.checkImageURL`, `PostService.updatePost`,
  `PostService.deletePost` — the operations.
-/

namespace FirebaseApps.SociallyUIKit

/-- `struct Post`. -/
structure Post where
  id : Option String := none
  userId : Option String := none
  userName : Option String := none
  description : Option String := none
  imageURL : Option String := none
  path : Option String := none
  datePublished : Option Date := none
  deriving DecidableEq, Repr

/-- What the operations report: each calls the completion of its caller. -/
inductive Out
  | added (error : Option NSError)
  | updated (result : Except NSError Post)
  | deleted (result : Except NSError Unit)

/-- Code of this app; the one variable it reads is `AuthService.shared.currentUser`. -/
abbrev Code := Lib.Code Req Ans (Option User) Out

namespace Post

/-- `init(id:description:imageURL:datePublished:)`. -/
def initValues (id description imageURL : String) (datePublished : Date) : Post :=
  { id := some id, description := some description, imageURL := some imageURL,
    datePublished := some datePublished }

/-- `init?(document:)`.  It never fails, and reads neither `userId` nor
`datePublished`. -/
def initDocument (documentID : String) (data : Document) : Option Post :=
  some { id := some documentID
         description := data.string "description"
         imageURL := data.string "imageURL"
         path := data.string "path"
         userName := data.string "userName" }

/-- The fields that `checkImageURL` writes; the first key is spelled so. -/
def thumbnailFields (url : String) : Fields :=
  [("paht", .delete), ("imageURL", .value (.string url))]

/-- `checkImageURL(_:)`: look the thumbnail up and write its URL into the document. -/
def checkImageURL (self : Post) (path : String) : Code :=
  .request (.downloadURL (thumbPath path)) (fun answer =>
    match answer with
    | (_, some _) => .done
    | (url, none) =>
      match url, self.id with
      | some url, some docId =>
          .request (.setData ["Posts", docId] (thumbnailFields url) true) (fun _ => .done) .done
      | _, _ => .done) .done

end Post

namespace NewPostViewController

/-- The dictionary that `addData` writes, with the user signed in at that moment. -/
def newPost (description : String) (datePublished : Date) (currentUser : Option User)
    (path : UUID) : Fields :=
  [("description", .value (.string description)),
   ("datePublished", .value (.timestamp datePublished)),
   ("userId", .value (.string ((currentUser.map User.uid).getD ""))),
   ("userName", .value (.string ((currentUser.bind User.displayName).getD "Unknown"))),
   ("path", .value (.string path.uuidString))]

/-- `addData(description:datePublished:data:completion:)`; `path` is the fresh UUID
it draws first. -/
def addData (path : UUID) (description : String) (datePublished : Date) (data : Data)
    (completion : Option NSError → Code) : Code :=
  .request (.putData path.uuidString data (some (detectMimeType data))) (fun error =>
    match error with
    | some error => completion (some error)
    | none =>
      .read fun currentUser =>
        .request (.addDocument ["Posts"] (newPost description datePublished currentUser path))
          (fun error => completion error) .done) .done

end NewPostViewController

namespace PostService

/-- The post built in `updatePost` from the document read back. -/
def updatedPost (document : DocumentSnapshot) : Option Post := do
  let data ← document.data
  let description ← data.string "description"
  let imageUrl ← data.string "imageURL"
  let datePublished ← data.date "datePublished"
  return Post.initValues document.documentID description imageUrl datePublished

theorem updatedPost_eq_some {documentID : String} {data : Document} {edited : Post}
    (h : updatedPost ⟨documentID, some data⟩ = some edited) :
    ∃ description imageUrl datePublished, data.string "description" = some description ∧
      data.string "imageURL" = some imageUrl ∧ data.date "datePublished" = some datePublished ∧
      edited = Post.initValues documentID description imageUrl datePublished := by
  simp only [updatedPost, Option.bind_eq_bind, Option.bind_some, Option.bind_eq_some_iff,
    Option.pure_def, Option.some.injEq] at h
  obtain ⟨description, hd, imageUrl, hi, datePublished, hp, rfl⟩ := h
  exact ⟨description, imageUrl, datePublished, hd, hi, hp, rfl⟩

/-- `updatePost(post:newDescription:completion:)`. -/
def updatePost (post : Post) (newDescription : String)
    (completion : Except NSError Post → Code) : Code :=
  match post.id with
  | none => .done
  | some postId =>
    .request
      (.setData ["Posts", postId] [("description", .value (.string newDescription))] true)
      (fun error =>
        match error with
        | some error => completion (.error error)
        | none =>
          .request (.getDocument ["Posts", postId]) (fun answer =>
            match answer with
            | (_, some error) => completion (.error error)
            | (document, none) =>
              match document.bind updatedPost with
              | some updatedPost => completion (.ok updatedPost)
              | none => .done) .done) .done

/-- `deletePost(post:completion:)`. -/
def deletePost (S : StorageService) (post : Post)
    (completion : Except NSError Unit → Code) : Code :=
  match post.id with
  | none => .done
  | some postId =>
    .request (.deleteDocument ["Posts", postId]) (fun error =>
      match error with
      | some error => completion (.error error)
      | none =>
        match post.imageURL with
        | some imageURL =>
          .request (.deleteObject (S.reference imageURL)) (fun error =>
            match error with
            | some error => completion (.error error)
            | none => completion (.ok ())) .done
        | none => .done) .done

end PostService

/-! ## Calls -/

/-- The calls the screens make. -/
inductive Call
  /-- A Post tap in `NewPostViewController`. -/
  | addData (path : UUID) (description : String) (datePublished : Date) (data : Data)
  /-- A feed row or `reloadData`, for a post with a path. -/
  | checkImageURL (post : Post) (path : String)
  /-- The Save action of `PostDetailViewController`. -/
  | updatePost (post : Post) (newDescription : String)
  /-- The trash button of `PostDetailViewController`. -/
  | deletePost (post : Post)

/-- The code of a call, with the completion its screen passes. -/
def Call.code (S : StorageService) : Call → Code
  | .addData path description datePublished data =>
      NewPostViewController.addData path description datePublished data
        fun error => .call (.added error) .done
  | .checkImageURL post path => post.checkImageURL path
  | .updatePost post newDescription =>
      PostService.updatePost post newDescription fun result => .call (.updated result) .done
  | .deletePost post => PostService.deletePost S post fun result => .call (.deleted result) .done

/-- Every operation has one request out at a time. -/
theorem Call.linear_code (S : StorageService) (call : Call) : (call.code S).Linear := by
  cases call with
  | addData path description datePublished data =>
      refine ⟨fun error => ?_, rfl⟩
      cases error with
      | some error => trivial
      | none => exact fun currentUser => ⟨fun error => trivial, rfl⟩
  | checkImageURL post path =>
      refine ⟨fun answer => ?_, rfl⟩
      obtain ⟨_ | url, _ | error⟩ := answer <;> cases post.id <;> simp [Lib.Code.Linear]
  | updatePost post newDescription =>
      simp only [code, PostService.updatePost]
      split
      · trivial
      · refine ⟨fun error => ?_, rfl⟩
        cases error with
        | some error => trivial
        | none =>
            refine ⟨fun answer => ?_, rfl⟩
            obtain ⟨document, _ | error⟩ := answer
            · dsimp only
              split <;> trivial
            · trivial
  | deletePost post =>
      simp only [code, PostService.deletePost]
      split
      · trivial
      · refine ⟨fun error => ?_, rfl⟩
        cases error with
        | some error => trivial
        | none =>
            dsimp only
            split
            · refine ⟨fun error => ?_, rfl⟩
              cases error <;> trivial
            · trivial

end FirebaseApps.SociallyUIKit
