import FirebaseApps.Firebase.Backend
import FirebaseApps.Lib.Places

/-!
# Sign in with Apple, in SociallyApp and in Socially-UIKit

A tap draws a nonce, keeps it in `currentNonce` and sends Apple a request with its
hash.  Apple calls back later, with a credential or an error, and the callback sends
the token of the credential to Firebase together with the nonce that is kept at that
moment.  The two apps have the same code up to the guards: SociallyApp traps on a
missing token, Socially-UIKit prints and returns, and tests the nonce a second time.

The nonce is a parameter of a tap (all that is used here of `randomNonceString` is that
it never returns the same string twice), and so is the hash function.

## Main definitions

* `AuthViewModel.signInWithApple`, `AuthViewModel.signInWithAppleCompletion` — SociallyApp.
* `AuthService.performAppleSignIn`, `AuthService.signInWithApple`,
  `ProfileViewController.didCompleteWithAuthorization` — Socially-UIKit.
* `host` — either app, with the requests it has made to Apple.
-/

namespace FirebaseApps.AppleSignIn

open Lib (Task)

/-! ## Data -/

/-- `ASAuthorization.Scope`. -/
inductive Scope
  | fullName
  | email
  deriving DecidableEq, Repr

/-- `ASAuthorizationAppleIDRequest`. -/
structure ASAuthorizationAppleIDRequest where
  requestedScopes : List Scope
  nonce : String
  deriving DecidableEq, Repr

/-- `ASAuthorization.credential`: an Apple ID credential, or one of another kind. -/
inductive ASAuthorizationCredential
  | appleID (identityToken : Option Data)
  | other
  deriving DecidableEq, Repr

/-- `String(data:encoding: .utf8)`. -/
def utf8 (data : Data) : Option String := String.fromUTF8? data.toByteArray

/-- The message of the guards that reject a callback without a request. -/
def noRequest : String :=
  "Invalid state: A login callback was received, but no login request was sent."

/-- What the code does besides sending requests to Firebase. -/
inductive Out
  /-- `currentNonce = nonce`. -/
  | setNonce (nonce : String)
  /-- The request goes to Apple. -/
  | perform (request : ASAuthorizationAppleIDRequest)
  | fatalError (message : String)
  /-- The completion that `ProfileViewController` passes to `AuthService.signInWithApple`. -/
  | completion (result : Except NSError User)

/-- The app, and what has gone on between it and Apple. -/
structure Env where
  firebase : Firebase
  currentNonce : Option String
  /-- The nonces drawn, oldest first. -/
  drawn : List String
  /-- The requests made to Apple, oldest first. -/
  requests : List ASAuthorizationAppleIDRequest
  /-- The requests that Apple has answered, by number. -/
  answered : List ℕ
  /-- A `fatalError` was reached. -/
  crashed : Bool

/-- The requests made so far that have not been answered. -/
def Env.unanswered (env : Env) : List ℕ :=
  (List.range env.requests.length).filter (· ∉ env.answered)

/-- Code of either app. -/
abbrev Code := Lib.Code Req Ans Env Out

/-! ## SociallyApp -/

namespace AuthViewModel

/-- `signInWithApple(request:)`, with the nonce that it draws. -/
def signInWithApple (sha256 : String → String) (nonce : String) : Code :=
  .call (.setNonce nonce) (.call (.perform ⟨[.email], sha256 nonce⟩) .done)

/-- The dictionary that a sign-in writes. -/
def userData (user : User) : Fields :=
  [("email", .value (user.email.elim .null .string)), ("uid", .value (.string user.uid))]

/-- `signInWithAppleCompletion(result:)`. -/
def signInWithAppleCompletion (result : Except NSError ASAuthorizationCredential) : Code :=
  match result with
  | .ok (.appleID identityToken) =>
    .read fun self =>
      match self.currentNonce with
      | none => .call (.fatalError noRequest) .done
      | some nonce =>
        match identityToken with
        | none => .call (.fatalError noRequest) .done
        | some appleIDToken =>
          match utf8 appleIDToken with
          | none => .done
          | some idTokenString =>
            .request (.signInWithCredential ⟨"apple.com", idTokenString, nonce⟩) (fun answer =>
              match answer with
              | (_, some _) => .done
              | (none, none) => .done
              | (some user, none) =>
                .request (.setData ["User", user.uid] (userData user) false) (fun _ => .done)
                  .done) .done
  | .ok .other => .done
  | .error _ => .done

end AuthViewModel

/-! ## Socially-UIKit -/

namespace AuthService

/-- `performAppleSignIn(on:completion:)`, with the nonce that it draws; the completion
is never called. -/
def performAppleSignIn (sha256 : String → String) (nonce : String)
    (_completion : Except NSError User → Code) : Code :=
  .call (.setNonce nonce) (.call (.perform ⟨[.fullName, .email], sha256 nonce⟩) .done)

/-- `signInWithApple(idToken:rawNonce:completion:)`. -/
def signInWithApple (idToken rawNonce : String) (completion : Except NSError User → Code) : Code :=
  .read fun self =>
    match self.currentNonce with
    | none => completion (.error ⟨"", 0, noRequest⟩)
    | some _ =>
      .request (.signInWithCredential ⟨"apple.com", idToken, rawNonce⟩) (fun answer =>
        match answer with
        | (_, some error) => completion (.error error)
        | (some user, none) => completion (.ok user)
        | (none, none) => .done) .done

end AuthService

namespace ProfileViewController

/-- `authorizationController(controller:didCompleteWithAuthorization:)`. -/
def didCompleteWithAuthorization (credential : ASAuthorizationCredential) : Code :=
  match credential with
  | .appleID identityToken =>
    .read fun shared =>
      match shared.currentNonce with
      | none => .call (.fatalError noRequest) .done
      | some nonce =>
        match identityToken with
        | none => .done
        | some appleIDToken =>
          match utf8 appleIDToken with
          | none => .done
          | some idTokenString =>
            AuthService.signInWithApple idTokenString nonce fun result =>
              .call (.completion result) .done
  | .other => .done

/-- `authorizationController(controller:didCompleteWithError:)`. -/
def didCompleteWithError (_error : NSError) : Code := .done

end ProfileViewController

/-! ## The system -/

/-- The two apps. -/
inductive App
  | sociallyApp
  | sociallyUIKit
  deriving DecidableEq, Repr

/-- A tap on the Apple button, and a callback of Apple. -/
inductive Call
  | signIn (nonce : String)
  /-- `request` is the number of the request that produced the result, if any did. -/
  | completion (request : Option ℕ) (result : Except NSError ASAuthorizationCredential)

/-- The code of a call. -/
def Call.code (sha256 : String → String) : App → Call → Code
  | .sociallyApp, .signIn nonce => AuthViewModel.signInWithApple sha256 nonce
  | .sociallyApp, .completion _ result => AuthViewModel.signInWithAppleCompletion result
  | .sociallyUIKit, .signIn nonce => AuthService.performAppleSignIn sha256 nonce fun _ => .done
  | .sociallyUIKit, .completion _ (.ok credential) =>
      ProfileViewController.didCompleteWithAuthorization credential
  | .sociallyUIKit, .completion _ (.error error) =>
      ProfileViewController.didCompleteWithError error

/-- What the effects do. -/
def Env.emit (env : Env) : Out → Env
  | .setNonce nonce => { env with currentNonce := some nonce }
  | .perform request => { env with requests := env.requests ++ [request] }
  | .fatalError _ => { env with crashed := true }
  | .completion _ => env

/-- A tap draws a fresh nonce; a callback is the result of a request that was made, or
of none. -/
def Env.accept (env : Env) : Call → Option Env
  | .signIn nonce =>
      if env.crashed ∨ nonce ∈ env.drawn then none
      else some { env with drawn := env.drawn ++ [nonce] }
  | .completion request _ =>
      if env.crashed ∨ ∃ k ∈ request, env.requests.length ≤ k then none
      else some { env with answered := request.toList ++ env.answered }

/-- The app as a callback host. -/
def host (S : StorageService) (sha256 : String → String) (app : App) :
    Lib.Host Env Unit Call Empty Choice Req Ans Env Out where
  view env _ := env
  emit env _ := env.emit
  serve env _ r choice :=
    (env.firebase.serve S 0 r choice).map fun fa => ({ env with firebase := fa.1 }, fa.2)
  accept env _ := env.accept
  code := Call.code sha256 app
  act _ a := nomatch a

abbrev World := Lib.World Env Unit Call Choice Req Ans Env Out

abbrev Op := Lib.Op Unit Call Choice Req Ans Env Out

abbrev Event := Lib.Event Req Ans Choice

abbrev Action := Lib.Action Unit Call Empty Choice

/-- One step of the app. -/
abbrev step (S : StorageService) (sha256 : String → String) (app : App) (w : World)
    (action : Action) : Option World :=
  w.step (host S sha256 app) action

/-- The app has just been started. -/
def initial (firebase : Firebase) : World := .initial ⟨firebase, none, [], [], [], false⟩

/-! ## What the code does -/

variable (S : StorageService) (sha256 : String → String) (app : App)

/-- The request that an app makes for a nonce. -/
def App.request (sha256 : String → String) (nonce : String) : App → ASAuthorizationAppleIDRequest
  | .sociallyApp => ⟨[.email], sha256 nonce⟩
  | .sociallyUIKit => ⟨[.fullName, .email], sha256 nonce⟩

/-- The token of a result, if it is a string. -/
def idToken? : Except NSError ASAuthorizationCredential → Option String
  | .ok (.appleID identityToken) => identityToken.bind utf8
  | _ => none

/-- The credential that the callback with this result sends. -/
def credential? (env : Env) (result : Except NSError ASAuthorizationCredential) :
    Option OAuthCredential :=
  env.currentNonce.bind fun nonce => (idToken? result).map fun token => ⟨"apple.com", token, nonce⟩

/-- A tap keeps its nonce and makes its request. -/
theorem exec_signIn (nonce : String) (env : Env) :
    ((host S sha256 app).exec () (Call.code sha256 app (.signIn nonce)) env).env =
      { env with currentNonce := some nonce,
                 requests := env.requests ++ [app.request sha256 nonce] } ∧
    ((host S sha256 app).exec () (Call.code sha256 app (.signIn nonce)) env).tasks = [] := by
  cases app <;> exact ⟨rfl, rfl⟩

/-- **What a callback sends**: the credential of its token and the kept nonce, in both
apps and through all guards. -/
theorem exec_completion (request : Option ℕ) (result : Except NSError ASAuthorizationCredential)
    (env : Env) :
    ((host S sha256 app).exec () (Call.code sha256 app (.completion request result))
        env).tasks.filterMap Task.request? =
      (credential? env result).toList.map Req.signInWithCredential ∧
    ∃ crashed, ((host S sha256 app).exec () (Call.code sha256 app (.completion request result))
      env).env = { env with crashed := crashed } := by
  obtain ⟨firebase, currentNonce, drawn, requests, answered, crashed⟩ := env
  rcases result with error | (identityToken | -)
  · cases currentNonce <;> cases app <;> exact ⟨rfl, crashed, rfl⟩
  · cases currentNonce with
    | none => cases app <;> exact ⟨rfl, true, rfl⟩
    | some nonce =>
        cases identityToken with
        | none =>
            cases app with
            | sociallyApp => exact ⟨rfl, true, rfl⟩
            | sociallyUIKit => exact ⟨rfl, crashed, rfl⟩
        | some data =>
            cases htoken : utf8 data <;> cases app <;>
              simp [Call.code, AuthViewModel.signInWithAppleCompletion,
                ProfileViewController.didCompleteWithAuthorization, AuthService.signInWithApple,
                Lib.Host.exec, host, credential?, idToken?, htoken, Task.request?]
  · cases currentNonce <;> cases app <;> exact ⟨rfl, crashed, rfl⟩

/-- The calls of both apps have one request out at a time. -/
theorem Call.linear_code (call : Call) :
    (call.code sha256 app).Linear := by
  cases call with
  | signIn nonce => cases app <;> trivial
  | completion request result =>
      rcases result with error | (identityToken | -)
      · cases app <;> trivial
      · cases app with
        | sociallyApp =>
            intro env
            dsimp only
            split
            · trivial
            · split
              · trivial
              · split
                · trivial
                · refine ⟨fun answer => ?_, rfl⟩
                  obtain ⟨_ | user, _ | error⟩ := answer
                  · trivial
                  · trivial
                  · exact ⟨fun _ => trivial, rfl⟩
                  · trivial
        | sociallyUIKit =>
            intro env
            dsimp only
            split
            · trivial
            · split
              · trivial
              · split
                · trivial
                · intro env
                  dsimp only
                  split
                  · trivial
                  · refine ⟨fun answer => ?_, rfl⟩
                    obtain ⟨_ | user, _ | error⟩ := answer <;> trivial
      · cases app <;> trivial

/-- After the first answer no credential is sent and nothing is done to the nonce. -/
def contract : Lib.Contract Req Ans Choice Out where
  asks past r := past ≠ [] → ∀ credential, r ≠ .signInWithCredential credential
  reports past o := past ≠ [] → ∃ result, o = .completion result
  reads _ := True

theorem meets_code (call : Call) :
    (call.code sha256 app).Meets (fun _ (_ : Choice) _ => True) (fun _ => True) contract [] := by
  have hasks : ∀ r, contract.asks [] r := fun r h => absurd rfl h
  have hreports : ∀ o, contract.reports [] o := fun o h => absurd rfl h
  cases call with
  | signIn nonce => cases app <;> exact ⟨hreports _, hreports _, trivial⟩
  | completion request result =>
      rcases result with error | (identityToken | -)
      · cases app <;> trivial
      · cases app with
        | sociallyApp =>
            refine ⟨trivial, fun env _ => ?_⟩
            dsimp only
            split
            · exact ⟨hreports _, trivial⟩
            · split
              · exact ⟨hreports _, trivial⟩
              · split
                · trivial
                · refine ⟨hasks _, fun choice answer _ => ?_, trivial⟩
                  obtain ⟨_ | user, _ | error⟩ := answer
                  · trivial
                  · trivial
                  · exact ⟨fun _ _ h => (by cases h), fun _ _ _ => trivial, trivial⟩
                  · trivial
        | sociallyUIKit =>
            refine ⟨trivial, fun env _ => ?_⟩
            dsimp only
            split
            · exact ⟨hreports _, trivial⟩
            · split
              · trivial
              · split
                · trivial
                · refine ⟨trivial, fun env _ => ?_⟩
                  dsimp only
                  split
                  · exact ⟨hreports _, trivial⟩
                  · refine ⟨hasks _, fun choice answer _ => ?_, trivial⟩
                    obtain ⟨_ | user, _ | error⟩ := answer
                    · trivial
                    all_goals exact ⟨fun _ => ⟨_, rfl⟩, trivial⟩
      · cases app <;> trivial

end FirebaseApps.AppleSignIn
