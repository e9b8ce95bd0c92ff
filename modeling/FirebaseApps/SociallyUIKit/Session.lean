import FirebaseApps.SociallyApp.AuthState
import FirebaseApps.SociallyUIKit.Completions

/-!
# Socially-UIKit: the session

Each scene has a tab bar and a profile screen.  `SceneDelegate` listens to the auth state
and sets the tabs from it: the feed and the profile for a user, the profile alone for none.
`ProfileViewController` does not listen; it looks at the current user when it appears, when
its own sign-in has succeeded and when it has signed out.  The two are told of a change by
different callbacks, in any order.

When nothing is pending, both are those of the current user (`session_settled`).
-/

namespace FirebaseApps.SociallyUIKit.Session

open Lib (Task)
open SociallyApp.AuthState (Block)

/-! ## The screens -/

/-- The views of `ProfileViewController` that depend on the user. -/
structure ProfileViewController where
  signInButtonIsHidden : Bool
  userInfoLabelIsHidden : Bool
  logoutButtonIsHidden : Bool
  userInfoLabelText : Option String
  deriving DecidableEq

namespace ProfileViewController

/-- The views as they are made. -/
def new : ProfileViewController := ⟨false, false, false, none⟩

/-- The text for a user. -/
def userInfo (user : User) : String :=
  "이메일: " ++ user.email.getD "N/A" ++ "\nUID: " ++ user.uid

/-- `updateUI()`. -/
def updateUI (self : ProfileViewController) (currentUser : Option User) : ProfileViewController :=
  match currentUser with
  | some user =>
      { signInButtonIsHidden := true, userInfoLabelIsHidden := false,
        logoutButtonIsHidden := false, userInfoLabelText := some (userInfo user) }
  | none =>
      { self with signInButtonIsHidden := false, userInfoLabelIsHidden := true,
                  logoutButtonIsHidden := true }

/-- The screen is that of this user: it offers to log out and names the user, or it offers
to sign in. -/
def Shows (self : ProfileViewController) : Option User → Prop
  | some user => self.signInButtonIsHidden = true ∧ self.userInfoLabelIsHidden = false ∧
      self.logoutButtonIsHidden = false ∧ self.userInfoLabelText = some (userInfo user)
  | none => self.signInButtonIsHidden = false ∧ self.userInfoLabelIsHidden = true ∧
      self.logoutButtonIsHidden = true

theorem shows_updateUI (self : ProfileViewController) (currentUser : Option User) :
    (self.updateUI currentUser).Shows currentUser := by
  cases currentUser with
  | none => exact ⟨rfl, rfl, rfl⟩
  | some user => exact ⟨rfl, rfl, rfl, rfl⟩

end ProfileViewController

/-- The tabs of the tab bar. -/
inductive Tab
  | feed
  | profile
  deriving DecidableEq

/-- The tabs that the listening block sets for the uid of a user. -/
def tabs : Option String → List Tab
  | some _ => [.feed, .profile]
  | none => [.profile]

/-- A scene: its auth-state listener, its tab bar and its profile screen. -/
structure SceneDelegate where
  /-- The uid at the last delivery to its listener; `none` before the first one. -/
  previous : Option (Option String)
  viewControllers : List Tab
  profile : ProfileViewController
  /-- `viewIsAppearing` has been called. -/
  appeared : Bool
  /-- The tabs are set by the listener and by nothing else. -/
  follows : viewControllers = previous.elim [] tabs

namespace SceneDelegate

/-- `scene(_:willConnectTo:options:)`: the tab bar is empty until the listener is called. -/
def new : SceneDelegate := ⟨none, [], .new, false, rfl⟩

/-- A delivery to the listener, which FirebaseAuth skips when the uid has not changed. -/
def listen (self : SceneDelegate) (user : Option User) : SceneDelegate :=
  if self.previous = some (user.map User.uid) then self
  else
    { self with
      previous := some (user.map User.uid)
      viewControllers :=
        match user with
        | some _ => [.feed, .profile]
        | none => [.profile]
      follows := by cases user <;> rfl }

/-- The profile screen looks at the current user. -/
def updateUI (self : SceneDelegate) (currentUser : Option User) : SceneDelegate :=
  { self with profile := self.profile.updateUI currentUser }

/-- `viewIsAppearing(_:)` of the profile screen. -/
def viewIsAppearing (self : SceneDelegate) (currentUser : Option User) : SceneDelegate :=
  { self.updateUI currentUser with appeared := true }

theorem previous_listen (self : SceneDelegate) (user : Option User) :
    (self.listen user).previous = some (user.map User.uid) := by
  unfold listen
  split
  next h => exact h
  next => rfl

theorem profile_listen (self : SceneDelegate) (user : Option User) :
    (self.listen user).profile = self.profile ∧ (self.listen user).appeared = self.appeared := by
  unfold listen
  split <;> exact ⟨rfl, rfl⟩

end SceneDelegate

/-! ## The system -/

/-- A scene: its number. -/
abbrev Scene := ℕ

/-- What the code does besides sending requests to Firebase. -/
inductive Out
  | auth (out : AppleSignIn.Out)
  /-- `try Auth.auth().signOut()`, when it does not throw. -/
  | signOut
  | updateUI

/-- Code of the profile screen and of `AuthService`. -/
abbrev Code := Lib.Code Req Ans AppleSignIn.Env Out

/-- A tap on a button of the profile screen, and a callback of Apple. -/
inductive Call
  | handleAppleButtonPress (nonce : String)
  | completion (request : Option ℕ) (result : Except NSError AppleSignIn.ASAuthorizationCredential)
  | handleLogout (outcome : Except NSError Unit)

/-- `handleLogout`; `outcome` is what `Auth.auth().signOut()` does, which returns or throws. -/
def handleLogout (outcome : Except NSError Unit) : Code :=
  let code : Code := AuthService.signOut outcome fun result =>
    match result with
    | .ok () => .call .updateUI .done
    | .error _ => .done
  match outcome with
  | .ok () => .call .signOut code
  | .error _ => code

/-- The code of a call. -/
def Call.code (sha256 : String → String) : Call → Code
  | .handleAppleButtonPress nonce =>
      (AppleSignIn.Call.code sha256 .sociallyUIKit (.signIn nonce)).map id .auth
  | .completion request result =>
      (AppleSignIn.Call.code sha256 .sociallyUIKit (.completion request result)).map id .auth
  | .handleLogout outcome => Session.handleLogout outcome

/-- The app, with its scenes and what is on the main queue. -/
structure Env extends AppleSignIn.Env where
  scenes : Scene → Option SceneDelegate
  queue : List Block

/-- What happens without a call. -/
inductive Act
  | willConnect (scene : Scene)
  | viewIsAppearing (scene : Scene)
  /-- The main queue runs its next block. -/
  | runBlock

namespace Env

/-- `AuthService.shared.currentUser`. -/
def currentUser (env : Env) : Option User := env.firebase.currentUser 0

/-- The backend has gone on; a change of the current user is posted to the main queue. -/
def setFirebase (env : Env) (firebase : Firebase) : Env :=
  { env with
    firebase := firebase
    queue := if firebase.currentUser 0 = env.currentUser then env.queue
      else env.queue ++ [.changed] }

/-- Change a scene. -/
def modifyScene (env : Env) (scene : Scene) (f : SceneDelegate → SceneDelegate) : Env :=
  { env with scenes := Function.update env.scenes scene ((env.scenes scene).map f) }

/-- The effects; the completion of a sign-in is that of `didCompleteWithAuthorization`. -/
def emit (env : Env) (scene : Scene) : Out → Env
  | .auth (.completion (.ok _)) => env.modifyScene scene (·.updateUI env.currentUser)
  | .auth out => { env with toEnv := env.toEnv.emit out }
  | .signOut => env.setFirebase (env.firebase.signedIn 0 none)
  | .updateUI => env.modifyScene scene (·.updateUI env.currentUser)

/-- The scene shows its profile screen with this button. -/
def offers (env : Env) (scene : Scene) (button : ProfileViewController → Bool) : Bool :=
  (env.scenes scene).any fun s => s.appeared && button s.profile

/-- A tap needs its button on the screen. -/
def accept (env : Env) (scene : Scene) : Call → Option Env
  | .handleAppleButtonPress nonce =>
      if env.offers scene (!·.signInButtonIsHidden) then
        (env.toEnv.accept (.signIn nonce)).map fun auth => { env with toEnv := auth }
      else none
  | .completion request result =>
      (env.toEnv.accept (.completion request result)).map fun auth => { env with toEnv := auth }
  | .handleLogout _ =>
      if env.offers scene (!·.logoutButtonIsHidden) ∧ ¬ env.crashed then some env else none

/-- A block of FirebaseAuth runs. -/
def run (env : Env) : Block → Env
  | .registered scene => env.modifyScene scene (·.listen env.currentUser)
  | .changed =>
      { env with scenes := fun scene => (env.scenes scene).map (·.listen env.currentUser) }

/-- The moves of the environment. -/
def act (env : Env) : Act → Option Env
  | .willConnect scene =>
      match env.scenes scene with
      | some _ => none
      | none =>
          some { env with
            scenes := Function.update env.scenes scene (some .new)
            queue := env.queue ++ [.registered scene] }
  | .viewIsAppearing scene =>
      match env.scenes scene with
      | some s =>
          if .profile ∈ s.viewControllers then
            some (env.modifyScene scene (·.viewIsAppearing env.currentUser))
          else none
      | none => none
  | .runBlock =>
      match env.queue with
      | [] => none
      | block :: queue => some ({ env with queue := queue }.run block)

end Env

/-- The app as a callback host. -/
def host (S : StorageService) (sha256 : String → String) :
    Lib.Host Env Scene Call Act Choice Req Ans AppleSignIn.Env Out where
  view env _ := env.toEnv
  emit := Env.emit
  serve env _ r choice :=
    (env.firebase.serve S 0 r choice).map fun fa => (env.setFirebase fa.1, fa.2)
  accept := Env.accept
  code := Call.code sha256
  act := Env.act

/-- The app with all its sign-ins. -/
abbrev World := Lib.World Env Scene Call Choice Req Ans AppleSignIn.Env Out

abbrev Op := Lib.Op Scene Call Choice Req Ans AppleSignIn.Env Out

abbrev Action := Lib.Action Scene Call Act Choice

/-- One step of the app. -/
abbrev step (S : StorageService) (sha256 : String → String) (w : World) (action : Action) :
    Option World :=
  w.step (host S sha256) action

/-- The app has just been started. -/
def initial (firebase : Firebase) : World :=
  .initial ⟨⟨firebase, none, [], [], [], false⟩, fun _ => none, []⟩

/-- The states the app can be in, starting on this backend. -/
def Reachable (S : StorageService) (sha256 : String → String) (firebase : Firebase) (w : World) :
    Prop :=
  Lib.Reachable (step S sha256) (initial firebase) w

variable {S : StorageService} {sha256 : String → String} {fb : Firebase} {env env' : Env}
  {w w' : World} {action : Action} {scene : Scene}

theorem serve_eq_some {device : Scene} {r : Req} {choice : Choice} {a : Ans r}
    (h : (host S sha256).serve env device r choice = some (env', a)) :
    ∃ firebase, env.firebase.serve S 0 r choice = some (firebase, a) ∧
      env' = env.setFirebase firebase :=
  Firebase.serve_of_map h

/-! ## The tabs -/

namespace Env

/-- The uid of the current user. -/
def uid (env : Env) : Option String := env.currentUser.map User.uid

/-- Every listener has heard of the current user or will. -/
def Told (env : Env) : Prop :=
  ∀ scene s, env.scenes scene = some s → s.previous = some env.uid ∨
    .registered scene ∈ env.queue ∨ .changed ∈ env.queue

theorem scenes_modifyScene {f : SceneDelegate → SceneDelegate} {d : Scene} {s : SceneDelegate}
    (h : (env.modifyScene scene f).scenes d = some s) :
    (d ≠ scene ∧ env.scenes d = some s) ∨
      (d = scene ∧ ∃ s₀, env.scenes d = some s₀ ∧ s = f s₀) := by
  by_cases hd : d = scene
  · subst hd
    have hmap : (env.scenes d).map f = some s := by simpa [modifyScene] using h
    obtain ⟨s₀, hs₀, rfl⟩ := Option.map_eq_some_iff.mp hmap
    exact .inr ⟨rfl, s₀, hs₀, rfl⟩
  · exact .inl ⟨hd, by simpa [modifyScene, hd] using h⟩

/-- Repainting a screen tells its listener nothing. -/
theorem Told.modifyScene (h : env.Told) {f : SceneDelegate → SceneDelegate}
    (hf : ∀ s, (f s).previous = s.previous) : (env.modifyScene scene f).Told := by
  intro d s hs
  rcases scenes_modifyScene hs with ⟨-, hs⟩ | ⟨rfl, s₀, hs₀, rfl⟩
  · exact h d s hs
  · rw [hf]
    exact h d s₀ hs₀

theorem Told.setFirebase (h : env.Told) (firebase : Firebase) :
    (env.setFirebase firebase).Told := by
  intro d s hs
  by_cases hsame : firebase.currentUser 0 = env.currentUser
  · have huid : (env.setFirebase firebase).uid = env.uid := by
      rw [uid, uid, ← hsame]
      rfl
    have hqueue : (env.setFirebase firebase).queue = env.queue := if_pos hsame
    rw [huid, hqueue]
    exact h d s hs
  · refine .inr (.inr ?_)
    rw [Env.setFirebase, if_neg hsame]
    exact List.mem_append_right _ List.mem_cons_self

theorem Told.emit (h : env.Told) (scene : Scene) (out : Out) : (env.emit scene out).Told := by
  cases out with
  | auth out =>
      cases out with
      | completion result =>
          cases result with
          | error e => exact h
          | ok user => exact h.modifyScene fun _ => rfl
      | setNonce nonce => exact h
      | perform request => exact h
      | fatalError message => exact h
  | signOut => exact h.setFirebase _
  | updateUI => exact h.modifyScene fun _ => rfl

/-- A block that runs tells the listeners it was for. -/
theorem Told.run {block : Block} {queue : List Block} (h : env.Told)
    (hqueue : env.queue = block :: queue) : ({ env with queue := queue }.run block).Told := by
  intro d s hs
  cases block with
  | registered scene =>
      rcases scenes_modifyScene hs with ⟨hd, hs⟩ | ⟨rfl, s₀, -, rfl⟩
      · -- the block was for another scene
        have hrest : ∀ block ∈ env.queue, block ≠ .registered scene → block ∈ queue := by
          intro block hmem hne
          rw [hqueue, List.mem_cons] at hmem
          exact hmem.resolve_left hne
        rcases h d s hs with heard | hmem | hmem
        · exact .inl heard
        · exact .inr (.inl (hrest _ hmem (by simpa using hd)))
        · exact .inr (.inr (hrest _ hmem (by simp)))
      · exact .inl (s₀.previous_listen env.currentUser)
  | changed =>
      have hmap : (env.scenes d).map (·.listen env.currentUser) = some s := hs
      obtain ⟨s₀, -, rfl⟩ := Option.map_eq_some_iff.mp hmap
      exact .inl (s₀.previous_listen env.currentUser)

/-- Making a call changes no screen and no user. -/
theorem accept_frame {call : Call} (ha : env.accept scene call = some env') :
    env'.firebase = env.firebase ∧ env'.scenes = env.scenes ∧ env'.queue = env.queue := by
  cases call with
  | handleAppleButtonPress nonce =>
      obtain ⟨-, ha⟩ := Option.ite_none_right_eq_some.mp ha
      obtain ⟨auth, hauth, rfl⟩ := Option.map_eq_some_iff.mp ha
      obtain ⟨-, hauth⟩ := Option.ite_none_left_eq_some.mp hauth
      obtain rfl := Option.some.inj hauth
      exact ⟨rfl, rfl, rfl⟩
  | completion request result =>
      obtain ⟨auth, hauth, rfl⟩ := Option.map_eq_some_iff.mp ha
      obtain ⟨-, hauth⟩ := Option.ite_none_left_eq_some.mp hauth
      obtain rfl := Option.some.inj hauth
      exact ⟨rfl, rfl, rfl⟩
  | handleLogout outcome =>
      obtain ⟨-, ha⟩ := Option.ite_none_right_eq_some.mp ha
      obtain rfl := Option.some.inj ha
      exact ⟨rfl, rfl, rfl⟩

theorem Told.accept {call : Call} (h : env.Told) (ha : env.accept scene call = some env') :
    env'.Told := by
  obtain ⟨hfirebase, hscenes, hqueue⟩ := accept_frame ha
  intro d s hs
  rw [hscenes] at hs
  rw [uid, currentUser, hfirebase, hqueue]
  exact h d s hs

theorem Told.act {a : Act} (h : env.Told) (ha : env.act a = some env') : env'.Told := by
  cases a with
  | willConnect scene =>
      simp only [Env.act] at ha
      split at ha
      · cases ha
      next hnone =>
        obtain rfl := Option.some.inj ha
        intro d s hs
        by_cases hd : d = scene
        · exact .inr (.inl (by simp [hd]))
        · have hold : env.scenes d = some s := by simpa [hd] using hs
          rcases h d s hold with heard | hmem | hmem
          · exact .inl heard
          · exact .inr (.inl (List.mem_append_left _ hmem))
          · exact .inr (.inr (List.mem_append_left _ hmem))
  | viewIsAppearing scene =>
      simp only [Env.act] at ha
      split at ha
      · obtain ⟨-, ha⟩ := Option.ite_none_right_eq_some.mp ha
        obtain rfl := Option.some.inj ha
        exact h.modifyScene fun _ => rfl
      · cases ha
  | runBlock =>
      simp only [Env.act] at ha
      split at ha
      · cases ha
      next block queue hqueue =>
        obtain rfl := Option.some.inj ha
        exact h.run hqueue

end Env

theorem told_exec (h : env.Told) (scene : Scene) (code : Code) :
    ((host S sha256).exec scene code env).env.Told :=
  (host S sha256).exec_env_invariant (fun out _ _ h => h.emit scene out) h

theorem told_step (h : w.env.Told) (hs : step S sha256 w action = some w') : w'.env.Told := by
  rcases Lib.World.step_cases hs with ⟨i, scene, call, env, rfl, hi, ha, rfl⟩ |
    ⟨i, j, choice, op, r, callback, env, a, rfl, hi, ht, hr, rfl⟩ |
    ⟨i, j, op, code, rfl, hi, ht, rfl⟩ | ⟨a, env, rfl, ha, rfl⟩
  · exact told_exec (h.accept ha) scene _
  · obtain ⟨firebase, -, rfl⟩ := serve_eq_some hr
    exact h.setFirebase firebase
  · exact told_exec h op.client code
  · exact h.act ha

theorem told_reachable (h : Reachable S sha256 fb w) : w.env.Told :=
  h.invariant (P := fun w => w.env.Told) (fun _ _ hs => by cases hs) fun _ _ _ => told_step

/-- When nothing is on the main queue, the tabs of a scene are those of the current user. -/
theorem viewControllers_eq (h : Reachable S sha256 fb w) {s : SceneDelegate}
    (hscene : w.env.scenes scene = some s) (hqueue : w.env.queue = []) :
    s.viewControllers = tabs w.env.uid := by
  have heard : s.previous = some w.env.uid := by
    simpa [hqueue] using told_reachable h scene s hscene
  rw [s.follows, heard]
  rfl

/-! ## The profile screen -/

/-- The profile screen of the scene, if it has appeared, is that of the current user. -/
def Env.Painted (env : Env) (scene : Scene) : Prop :=
  ∀ s, env.scenes scene = some s → s.appeared = true → s.profile.Shows env.currentUser

namespace Env

/-- A repainted screen is up to date, whatever it showed before. -/
theorem painted_updateUI (env : Env) (scene : Scene) :
    (env.modifyScene scene (·.updateUI env.currentUser)).Painted scene := by
  intro s hs _
  rcases scenes_modifyScene hs with ⟨hd, -⟩ | ⟨-, s₀, -, rfl⟩
  · exact absurd rfl hd
  · exact s₀.profile.shows_updateUI env.currentUser

theorem Painted.modifyScene (h : env.Painted scene) {d : Scene}
    {f : SceneDelegate → SceneDelegate} (hf : ∀ s, (f s).appeared = true → d = scene →
      (s.appeared = true → s.profile.Shows env.currentUser) → (f s).profile.Shows env.currentUser) :
    (env.modifyScene d f).Painted scene := by
  intro s hs happeared
  rcases scenes_modifyScene hs with ⟨-, hs⟩ | ⟨rfl, s₀, hs₀, rfl⟩
  · exact h s hs happeared
  · exact hf s₀ happeared rfl (h s₀ hs₀)

theorem Painted.setFirebase (h : env.Painted scene) {firebase : Firebase}
    (hsame : firebase.currentUser 0 = env.currentUser) :
    (env.setFirebase firebase).Painted scene := by
  intro s hs happeared
  have hcurrent : (env.setFirebase firebase).currentUser = env.currentUser := hsame
  rw [hcurrent]
  exact h s hs happeared

theorem Painted.act {a : Act} (h : env.Painted scene) (ha : env.act a = some env') :
    env'.Painted scene := by
  cases a with
  | willConnect d =>
      simp only [Env.act] at ha
      split at ha
      · cases ha
      next hnone =>
        obtain rfl := Option.some.inj ha
        intro s hs happeared
        by_cases hd : scene = d
        · subst hd
          obtain rfl : SceneDelegate.new = s := by simpa using hs
          cases happeared
        · exact h s (by simpa [hd] using hs) happeared
  | viewIsAppearing d =>
      simp only [Env.act] at ha
      split at ha
      · obtain ⟨-, ha⟩ := Option.ite_none_right_eq_some.mp ha
        obtain rfl := Option.some.inj ha
        exact h.modifyScene fun s _ _ _ => s.profile.shows_updateUI env.currentUser
      · cases ha
  | runBlock =>
      simp only [Env.act] at ha
      split at ha
      · cases ha
      next block queue hqueue =>
        obtain rfl := Option.some.inj ha
        have hlisten : ∀ s : SceneDelegate, (s.listen env.currentUser).appeared = true →
            (s.appeared = true → s.profile.Shows env.currentUser) →
            (s.listen env.currentUser).profile.Shows env.currentUser := by
          intro s happeared hs
          obtain ⟨hprofile, heq⟩ := s.profile_listen env.currentUser
          rw [hprofile]
          exact hs (heq ▸ happeared)
        cases block with
        | registered d =>
            have hpopped : ({ env with queue := queue } : Env).Painted scene := h
            exact hpopped.modifyScene fun s happeared _ hs => hlisten s happeared hs
        | changed =>
            intro s hs happeared
            have hmap : (env.scenes scene).map (·.listen env.currentUser) = some s := hs
            obtain ⟨s₀, hs₀, rfl⟩ := Option.map_eq_some_iff.mp hmap
            exact hlisten s₀ happeared (h s₀ hs₀)

end Env

/-- The completion of a sign-in that has succeeded. -/
def Refreshes (code : Code) : Prop := ∃ user, code = .call (.auth (.completion (.ok user))) .done

/-- Code that repaints its screen whenever it has changed the user. -/
inductive Repaints : Code → Prop
  | done : Repaints .done
  | auth {out : AppleSignIn.Out} {p : Code} (h : Repaints p) : Repaints (.call (.auth out) p)
  | signOut {p : Code} (h : Repaints p) : Repaints (.call .signOut (.call .updateUI p))
  | read {k : AppleSignIn.Env → Code} (h : ∀ v, Repaints (k v)) : Repaints (.read k)
  | signIn {credential : OAuthCredential} {callback : Option User × Option NSError → Code}
      (hok : ∀ user, Refreshes (callback (some user, none))) (h : ∀ a, Repaints (callback a)) :
      Repaints (.request (.signInWithCredential credential) callback .done)

/-- A task that goes on in such code. -/
inductive TaskRepaints : Task Req Ans AppleSignIn.Env Out → Prop
  | waiting {credential : OAuthCredential} {callback : Option User × Option NSError → Code}
      (hok : ∀ user, Refreshes (callback (some user, none))) (h : ∀ a, Repaints (callback a)) :
      TaskRepaints (.waiting (.signInWithCredential credential) callback)
  | ready {code : Code} (h : Repaints code) : TaskRepaints (.ready code)

/-- **All calls repaint.** -/
theorem repaints_code (sha256 : String → String) (call : Call) : Repaints (call.code sha256) := by
  cases call with
  | handleAppleButtonPress nonce => exact .auth (.auth .done)
  | completion request result =>
      rcases result with error | (identityToken | -)
      · exact .done
      · refine .read fun env => ?_
        dsimp only [id]
        split
        · exact .auth .done
        · split
          · exact .done
          · split
            · exact .done
            · refine .read fun env => ?_
              dsimp only [id]
              split
              · exact .auth .done
              · refine .signIn (fun user => ⟨user, rfl⟩) fun answer => ?_
                obtain ⟨_ | user, _ | error⟩ := answer
                · exact .done
                · exact .auth .done
                · exact .auth .done
                · exact .auth .done
      · exact .done
  | handleLogout outcome =>
      cases outcome with
      | ok => exact .signOut .done
      | error e => exact .done

/-- Running such code leaves the screen up to date if it was. -/
theorem Repaints.painted {code : Code} (h : Repaints code) (hpainted : env.Painted scene) :
    ((host S sha256).exec scene code env).env.Painted scene := by
  induction h generalizing env with
  | done => exact hpainted
  | @auth out p h ih =>
      have hemit : (env.emit scene (.auth out)).Painted scene := by
        cases out with
        | completion result =>
            cases result with
            | error e => exact hpainted
            | ok user => exact env.painted_updateUI scene
        | setNonce nonce => exact hpainted
        | perform request => exact hpainted
        | fatalError message => exact hpainted
      exact ih hemit
  | signOut h ih => exact ih (Env.painted_updateUI _ scene)
  | read h ih => exact ih _ hpainted
  | signIn hok h => exact hpainted

theorem Repaints.tasks {code : Code} (h : Repaints code) {task : Task Req Ans AppleSignIn.Env Out}
    (htask : task ∈ ((host S sha256).exec scene code env).tasks) : TaskRepaints task := by
  induction h generalizing env with
  | done => cases htask
  | auth h ih => exact ih htask
  | signOut h ih => exact ih htask
  | read h ih => exact ih _ htask
  | signIn hok h =>
      obtain rfl := List.mem_singleton.mp htask
      exact .waiting hok h

/-- A sign-in has succeeded and its completion has not run yet. -/
def Signing (w : World) : Prop :=
  ∃ i op code, w.ops i = some op ∧ Task.ready code ∈ op.tasks ∧ Refreshes code

/-- What is known of the tasks of a run, and of the profile screen of a scene that has made
all calls. -/
structure Repainting (scene : Scene) (w : World) : Prop where
  tasks : ∀ i op, w.ops i = some op → ∀ task ∈ op.tasks, TaskRepaints task
  screen : (∀ i op, w.ops i = some op → op.client = scene) → w.env.Painted scene ∨ Signing w

theorem repainting_initial (scene : Scene) (fb : Firebase) : Repainting scene (initial fb) where
  tasks i op hop := by cases hop
  screen _ := .inl fun s hs => by cases hs

theorem taskRepaints_step (h : ∀ i op, w.ops i = some op → ∀ task ∈ op.tasks, TaskRepaints task)
    (hs : step S sha256 w action = some w') :
    ∀ i op, w'.ops i = some op → ∀ task ∈ op.tasks, TaskRepaints task := by
  intro k op' hop' task htask
  rcases Lib.World.op_cases hs hop' with hop | ⟨c, call, env, rfl, hk, ha, henv, rfl⟩ |
    ⟨j, choice, op, r, callback, a, rfl, hop, ht, hr, rfl⟩ | ⟨j, op, code, rfl, hop, ht, rfl⟩
  · exact h k op' hop task htask
  · exact (repaints_code sha256 call).tasks htask
  · rcases List.mem_or_eq_of_mem_set htask with hold | rfl
    · exact h k op hop task hold
    · cases h k op hop _ (List.mem_of_getElem? ht) with
      | waiting hok hcallback => exact .ready (hcallback a)
  · rcases List.mem_append.mp htask with hold | hnew
    · exact h k op hop task (List.mem_of_mem_eraseIdx hold)
    · cases h k op hop _ (List.mem_of_getElem? ht) with
      | ready hcode => exact hcode.tasks hnew

/-- The completion of a sign-in waits until it runs. -/
theorem Signing.step (h : Signing w) (hs : Session.step S sha256 w action = some w') :
    Signing w' ∨ ∃ i j op code, action = .deliver i j ∧ w.ops i = some op ∧
      op.tasks[j]? = some (.ready code) ∧ Refreshes code := by
  obtain ⟨k, op, code, hop, hmem, hcode⟩ := h
  obtain ⟨n, hn⟩ := List.mem_iff_getElem?.mp hmem
  rcases Lib.World.step_cases hs with ⟨i, c, call, env, rfl, hi, ha, rfl⟩ |
    ⟨i, j, choice, op', r, callback, env, a, rfl, hi, ht, hr, rfl⟩ |
    ⟨i, j, op', code', rfl, hi, ht, rfl⟩ | ⟨a, env, rfl, ha, rfl⟩
  · have hk : k ≠ i := by
      rintro rfl
      rw [hi] at hop
      cases hop
    exact .inl ⟨k, op, code, by simpa [hk] using hop, hmem, hcode⟩
  · by_cases hk : k = i
    · subst hk
      obtain rfl : op = op' := Option.some.inj (hop.symm.trans hi)
      have hnj : j ≠ n := by
        rintro rfl
        rw [ht] at hn
        cases hn
      exact .inl ⟨k, _, code, Function.update_self k _ _,
        List.mem_iff_getElem?.mpr ⟨n, (List.getElem?_set_ne hnj).trans hn⟩, hcode⟩
    · exact .inl ⟨k, op, code, by simpa [hk] using hop, hmem, hcode⟩
  · by_cases hk : k = i
    · subst hk
      obtain rfl : op = op' := Option.some.inj (hop.symm.trans hi)
      by_cases hnj : n = j
      · exact .inr ⟨k, n, op, code, by rw [hnj], hop, hn, hcode⟩
      · exact .inl ⟨k, _, code, Function.update_self k _ _,
          List.mem_append_left _ (List.mem_eraseIdx_iff_getElem?.mpr ⟨n, hnj, hn⟩), hcode⟩
    · exact .inl ⟨k, op, code, by simpa [hk] using hop, hmem, hcode⟩
  · exact .inl ⟨k, op, code, hop, hmem, hcode⟩

/-- Serving a request keeps the screen up to date, or it signs a user in. -/
theorem painted_serve (htasks : ∀ i op, w.ops i = some op → ∀ task ∈ op.tasks, TaskRepaints task)
    (h : w.env.Painted scene) {i j : ℕ} {choice : Choice} {op : Op} {r : Req}
    {callback : Ans r → Code} {firebase : Firebase} {a : Ans r} (hop : w.ops i = some op)
    (ht : op.tasks[j]? = some (.waiting r callback))
    (hfb : w.env.firebase.serve S 0 r choice = some (firebase, a)) :
    (w.env.setFirebase firebase).Painted scene ∨ Refreshes (callback a) := by
  cases htasks i op hop _ (List.mem_of_getElem? ht) with
  | waiting hok hcallback =>
      cases Firebase.settled_of_serve hfb with
      | signInWithCredential credential user => exact .inr (hok user)
      | failed => exact .inl (h.setFirebase rfl)

theorem screen_step (h : Repainting scene w) (hs : step S sha256 w action = some w')
    (hclients : ∀ i op, w'.ops i = some op → op.client = scene) :
    w'.env.Painted scene ∨ Signing w' := by
  have hclients₀ : ∀ i op, w.ops i = some op → op.client = scene := by
    intro i op hop
    obtain ⟨op', hop', hfol⟩ := Lib.World.step_op hs hop
    rw [← hfol.client]
    exact hclients i op' hop'
  rcases h.screen hclients₀ with hpainted | hsigning
  · rcases Lib.World.step_cases hs with ⟨i, c, call, env, rfl, hi, ha, rfl⟩ |
      ⟨i, j, choice, op, r, callback, env, a, rfl, hi, ht, hr, rfl⟩ |
      ⟨i, j, op, code, rfl, hi, ht, rfl⟩ | ⟨a, env, rfl, ha, rfl⟩
    · obtain rfl : c = scene := hclients i _ (Function.update_self i _ _)
      obtain ⟨hfirebase, hscenes, -⟩ := Env.accept_frame ha
      have hpainted' : env.Painted c := by
        intro s hs happeared
        rw [hscenes] at hs
        rw [Env.currentUser, hfirebase]
        exact hpainted s hs happeared
      exact .inl ((repaints_code sha256 call).painted hpainted')
    · obtain ⟨firebase, hfb, rfl⟩ := serve_eq_some hr
      rcases painted_serve h.tasks hpainted hi ht hfb with hpainted | hrefreshes
      · exact .inl hpainted
      · refine .inr ⟨i, _, callback a, Function.update_self i _ _, ?_, hrefreshes⟩
        exact List.mem_set (List.getElem?_eq_some_iff.mp ht).1 _
    · obtain rfl := hclients₀ i op hi
      cases h.tasks i op hi _ (List.mem_of_getElem? ht) with
      | ready hcode => exact .inl (hcode.painted hpainted)
    · exact .inl (hpainted.act ha)
  · rcases hsigning.step hs with hsigning | ⟨i, j, op, code, rfl, hop, ht, user, rfl⟩
    · exact .inr hsigning
    · rcases Lib.World.step_cases hs with ⟨_, _, _, _, heq, -⟩ | ⟨_, _, _, _, _, _, _, _, heq, -⟩ |
        ⟨i', j', op', code', heq, hop', ht', rfl⟩ | ⟨_, _, heq, -⟩
      · cases heq
      · cases heq
      · obtain ⟨rfl, rfl⟩ := Lib.Action.deliver.inj heq
        obtain rfl : op = op' := Option.some.inj (hop.symm.trans hop')
        obtain rfl := Task.ready.inj (Option.some.inj (ht.symm.trans ht'))
        obtain rfl := hclients₀ i op hop
        exact .inl (w.env.painted_updateUI op.client)
      · cases heq

theorem Repainting.step (h : Repainting scene w) (hs : Session.step S sha256 w action = some w') :
    Repainting scene w' :=
  ⟨taskRepaints_step h.tasks hs, screen_step h hs⟩

/-- **The session settles.**  When nothing is on the main queue, the tabs of every scene are
those of the current user: with the feed if there is one, without it if there is none.  And
when no answered callback waits, the profile screen of a scene that has made all calls offers
that user to log out, or no one to sign in. -/
theorem session_settled (h : Reachable S sha256 fb w) {s : SceneDelegate}
    (hscene : w.env.scenes scene = some s) :
    (w.env.queue = [] → s.viewControllers = tabs w.env.uid) ∧
    ((∀ i op, w.ops i = some op → op.client = scene ∧ ∀ code, Task.ready code ∉ op.tasks) →
      s.appeared = true → s.profile.Shows w.env.currentUser) := by
  refine ⟨viewControllers_eq h hscene, fun hops happeared => ?_⟩
  have hrepainting : Repainting scene w :=
    h.invariant (repainting_initial scene fb) fun _ _ _ hinv hs => hinv.step hs
  rcases hrepainting.screen fun i op hop => (hops i op hop).1 with hpainted |
    ⟨i, op, code, hop, hmem, -⟩
  · exact hpainted s hscene happeared
  · exact absurd hmem ((hops i op hop).2 code)

/-- Scene `0` appears, Ada signs in, and the main queue runs dry. -/
def signInRun : List Action :=
  [.act (.willConnect 0), .act .runBlock, .act (.viewIsAppearing 0),
    .start 0 0 (.handleAppleButtonPress "n"),
    .start 1 0 (.completion (some 0) (.ok (.appleID (some [])))),
    .serve 1 0 (.account ⟨"ada", none, none⟩), .deliver 1 0, .act .runBlock]

theorem session_signIn : ∃ w s, Lib.run (step .plain id) (initial .empty) signInRun = some w ∧
    w.env.scenes 0 = some s ∧ s.viewControllers = [.feed, .profile] ∧
    s.profile.Shows (some ⟨"ada", none, none⟩) := by
  have hrun : ∃ w s tap callback, Lib.run (step .plain id) (initial .empty) signInRun = some w ∧
      w.env.scenes 0 = some s ∧ w.env.queue = [] ∧ s.appeared = true ∧
      w.env.currentUser = some ⟨"ada", none, none⟩ ∧ w.ops 0 = some tap ∧
      w.ops 1 = some callback ∧ (tap.client = 0 ∧ tap.tasks = []) ∧
      callback.client = 0 ∧ callback.tasks = [] :=
    ⟨_, _, _, _, rfl, rfl, rfl, rfl, rfl, rfl, rfl, ⟨rfl, rfl⟩, rfl, rfl⟩
  obtain ⟨w, s, tap, callback, hw, hs, hqueue, happeared, huser, htap, hcallback, hover, hover'⟩ :=
    hrun
  have hreach : Reachable .plain id .empty w := ⟨_, hw⟩
  have hnone : ∀ i, 2 ≤ i → w.ops i = none :=
    Lib.World.ops_run hw (fun _ _ => rfl) (by simp [signInRun, Lib.Action.op?])
  have hops : ∀ i op, w.ops i = some op → op.client = 0 ∧ op.tasks = [] := by
    intro i op hop
    match i with
    | 0 => exact Option.some.inj (htap.symm.trans hop) ▸ hover
    | 1 => exact Option.some.inj (hcallback.symm.trans hop) ▸ hover'
    | i + 2 =>
        rw [hnone (i + 2) (by omega)] at hop
        cases hop
  obtain ⟨htabs, hscreen⟩ := session_settled hreach hs
  have hshows :=
    hscreen (fun i op hop => ⟨(hops i op hop).1, by simp [(hops i op hop).2]⟩) happeared
  rw [huser] at hshows
  have huid : w.env.uid = some "ada" := by rw [Env.uid, huser]; rfl
  refine ⟨w, s, hw, hs, ?_, hshows⟩
  rw [htabs hqueue, huid]
  rfl

end FirebaseApps.SociallyUIKit.Session
