import FirebaseApps.AppleSignIn.SignIn
import FirebaseApps.Lib.Quiescence
import FirebaseApps.NoteApp.System
import FirebaseApps.SociallyApp.Uploads
import FirebaseApps.SociallyUIKit.System

/-!
# What is under way ends

The operations of the three apps are chains of requests, each sent from the callback of the
one before; only `deleteData` of NoteApp has several out at once.  No callback sends a
request again, so once no more calls are made everything that is under way comes to an end,
however the backend settles the requests and in whatever order the callbacks run.  The
lookups that the rows of a feed start count as calls here: that rows and the listener can
keep each other going is another matter (`SociallyUIKit.Feed`).
-/

namespace FirebaseApps

variable {S : StorageService}

/-! ## What the calls send -/

/-- Every call of Socially-UIKit sends two requests at most. -/
theorem SociallyUIKit.atMost_code (S : StorageService) (call : Call) :
    (call.code S).AtMost 2 := by
  cases call with
  | addData path description date data =>
      refine ⟨1, 0, by omega, fun error => ?_, trivial⟩
      cases error with
      | some error => trivial
      | none => exact fun user => ⟨0, 0, by omega, fun error => trivial, trivial⟩
  | checkImageURL post path =>
      refine ⟨1, 0, by omega, fun answer => ?_, trivial⟩
      obtain ⟨_ | url, _ | error⟩ := answer
      · trivial
      · trivial
      · cases hid : post.id with
        | none => simp [Lib.Code.AtMost]
        | some docId => exact ⟨0, 0, by omega, fun _ => trivial, trivial⟩
      · trivial
  | updatePost post newDescription =>
      simp only [Call.code, PostService.updatePost]
      split
      · trivial
      · refine ⟨1, 0, by omega, fun error => ?_, trivial⟩
        cases error with
        | some error => trivial
        | none =>
            refine ⟨0, 0, by omega, fun answer => ?_, trivial⟩
            obtain ⟨document, _ | error⟩ := answer
            · dsimp only
              split <;> trivial
            · trivial
  | deletePost post =>
      simp only [Call.code, PostService.deletePost]
      split
      · trivial
      · refine ⟨1, 0, by omega, fun error => ?_, trivial⟩
        cases error with
        | some error => trivial
        | none =>
            dsimp only
            split
            · refine ⟨0, 0, by omega, fun error => ?_, trivial⟩
              cases error <;> trivial
            · trivial

/-- Every call of SociallyApp sends three requests at most. -/
theorem SociallyApp.atMost_code (call : Call) : call.code.AtMost 3 := by
  cases call with
  | addData u description date data =>
      refine ⟨2, 0, by omega, fun error => ?_, trivial⟩
      cases error with
      | some error => trivial
      | none =>
          refine ⟨1, 0, by omega, fun answer => ?_, trivial⟩
          obtain ⟨_ | url, _ | error⟩ := answer
          · trivial
          · trivial
          · exact ⟨0, 0, by omega, fun error => trivial, trivial⟩
          · trivial
  | uploadProfileImage u data =>
      refine ⟨2, 0, by omega, fun error => ?_, trivial⟩
      cases error with
      | some error => trivial
      | none =>
          refine ⟨1, 0, by omega, fun answer => ?_, trivial⟩
          obtain ⟨_ | url, error⟩ := answer
          · trivial
          · intro user
            cases user with
            | none => trivial
            | some user =>
                refine ⟨0, 0, by omega, fun error => ?_, trivial⟩
                cases error <;> trivial

/-- A callback of Apple sends two requests at most, and a tap sends none. -/
theorem AppleSignIn.atMost_code (sha256 : String → String) (app : App) (call : Call) :
    (call.code sha256 app).AtMost 2 := by
  cases call with
  | signIn nonce => cases app <;> trivial
  | completion request result =>
      rcases result with error | (identityToken | -)
      · cases app <;> trivial
      · cases app with
        | sociallyApp =>
            intro env
            dsimp only
            split
            · trivial
            · split
              · trivial
              · split
                · trivial
                · refine ⟨1, 0, by omega, fun answer => ?_, trivial⟩
                  obtain ⟨_ | user, _ | error⟩ := answer
                  · trivial
                  · trivial
                  · exact ⟨0, 0, by omega, fun _ => trivial, trivial⟩
                  · trivial
        | sociallyUIKit =>
            intro env
            dsimp only
            split
            · trivial
            · split
              · trivial
              · split
                · trivial
                · intro env
                  dsimp only
                  split
                  · trivial
                  · refine ⟨0, 0, by omega, fun answer => ?_, trivial⟩
                    obtain ⟨_ | user, _ | error⟩ := answer <;> trivial
      · cases app <;> trivial

namespace NoteApp

/-- The requests that a call sends at most: one for each index of a deletion, and a second
one for the profile of a new account. -/
def Call.requests : Call → ℕ
  | .listenToAuthState | .signOut | .fetchData => 0
  | .signIn .. | .addData _ | .updateData .. => 1
  | .signUp .. => 2
  | .deleteData indexSet => indexSet.indices.length

theorem NoteViewModel.atMost_useDatabaseReference {k : Option Path → Code} {n : ℕ}
    (h : ∀ reference, (k reference).AtMost n) : (useDatabaseReference k).AtMost n := by
  intro v
  cases hcached : v.viewModel.databaseReference with
  | none => simpa [hcached, Lib.Code.AtMost] using h _
  | some reference => simpa [hcached] using h reference

theorem NoteViewModel.atMost_deleteEach (indices : List ℕ) :
    (deleteEach indices).AtMost indices.length := by
  induction indices with
  | nil => trivial
  | cons index indices ih =>
      intro v
      cases hnote : v.viewModel.notes[index]? with
      | none => simp [hnote, Lib.Code.AtMost]
      | some note =>
          simp only [hnote]
          refine atMost_useDatabaseReference fun reference => ?_
          cases reference with
          | none => exact ih.mono (Nat.le_succ _)
          | some collection => exact ⟨0, indices.length, by simp, fun _ => trivial, ih⟩

theorem Call.atMost_code (call : Call) : call.code.AtMost call.requests := by
  cases call with
  | listenToAuthState => trivial
  | signIn email password => exact ⟨0, 0, by simp [requests], fun _ => trivial, trivial⟩
  | signUp email password =>
      refine ⟨1, 0, by simp [requests], fun answer => ?_, trivial⟩
      obtain ⟨_ | user, _ | error⟩ := answer
      · trivial
      · trivial
      · exact ⟨0, 0, by omega, fun _ => trivial, trivial⟩
      · trivial
  | signOut => trivial
  | fetchData =>
      refine NoteViewModel.atMost_useDatabaseReference fun reference => ?_
      cases reference <;> trivial
  | addData title =>
      refine NoteViewModel.atMost_useDatabaseReference fun reference => ?_
      cases reference with
      | none => trivial
      | some collection => exact ⟨0, 0, by simp [requests], fun _ => trivial, trivial⟩
  | updateData title id =>
      refine NoteViewModel.atMost_useDatabaseReference fun reference => ?_
      cases reference with
      | none => trivial
      | some collection => exact ⟨0, 0, by simp [requests], fun _ => trivial, trivial⟩
  | deleteData indexSet => exact NoteViewModel.atMost_deleteEach _

end NoteApp

/-! ## Every request can be answered -/

section responsive
variable (S : StorageService)

theorem SociallyUIKit.responsive_host : (host S).Responsive :=
  fun _ _ _ => ⟨.failure ⟨"", 0, ""⟩, by simp [host, Firebase.serve_failure]⟩

theorem SociallyApp.responsive_host : (host S).Responsive :=
  fun _ _ _ => ⟨.failure ⟨"", 0, ""⟩, by simp [host, Firebase.serve_failure]⟩

theorem AppleSignIn.responsive_host (sha256 : String → String) (app : App) :
    (host S sha256 app).Responsive :=
  fun _ _ _ => ⟨.failure ⟨"", 0, ""⟩, by simp [host, Firebase.serve_failure]⟩

theorem NoteApp.responsive_host : (host S).Responsive :=
  fun _ _ _ => ⟨.failure ⟨"", 0, ""⟩, by simp [host, Firebase.serve_failure]⟩

end responsive

/-! ## The apps -/

/-- **What is under way ends**: in every reachable state of the three apps, when no further
call is made every schedule of answers and callbacks ends, within two steps for each request
that the calls under way can send, and the schedules that cannot go on have left no request
out and no callback waiting. -/
theorem settles_reachable (S : StorageService) :
    (∀ fb w, SociallyUIKit.Reachable S fb w → ∃ K, (∀ i, K ≤ i → w.ops i = none) ∧
      Lib.World.Settles (SociallyUIKit.host S) (2 * Lib.World.underWay (fun _ => 2) K w) w) ∧
    (∀ fb uuids w, SociallyApp.Reachable S fb uuids w → ∃ K, (∀ i, K ≤ i → w.ops i = none) ∧
      Lib.World.Settles (SociallyApp.host S) (2 * Lib.World.underWay (fun _ => 3) K w) w) ∧
    (∀ sha256 app fb w,
      Lib.Reachable (AppleSignIn.step S sha256 app) (AppleSignIn.initial fb) w →
        ∃ K, (∀ i, K ≤ i → w.ops i = none) ∧ Lib.World.Settles (AppleSignIn.host S sha256 app)
          (2 * Lib.World.underWay (fun _ => 2) K w) w) ∧
    (∀ fb w, NoteApp.Reachable S fb w → ∃ K, (∀ i, K ≤ i → w.ops i = none) ∧
      Lib.World.Settles (NoteApp.host S) (2 * Lib.World.underWay NoteApp.Call.requests K w) w) := by
  refine ⟨fun fb w h => ?_, fun fb uuids w h => ?_, fun sha256 app fb w h => ?_, fun fb w h => ?_⟩
  · exact Lib.World.settles_of_reachable (SociallyUIKit.atMost_code S)
      (SociallyUIKit.responsive_host S) h
  · exact Lib.World.settles_of_reachable SociallyApp.atMost_code (SociallyApp.responsive_host S) h
  · exact Lib.World.settles_of_reachable (AppleSignIn.atMost_code sha256 app)
      (AppleSignIn.responsive_host S sha256 app) h
  · exact Lib.World.settles_of_reachable NoteApp.Call.atMost_code (NoteApp.responsive_host S) h

/-- Two devices post; the second upload has its answer. -/
def twoUnderWay : List SociallyUIKit.Action :=
  [.start 0 0 (.addData .sample "first" 0 [0xFF]),
    .start 1 1 (.addData ⟨"6D03", by decide⟩ "second" 1 [0x89]), .serve 1 0 .success]

theorem settles_twoUnderWay : ∃ w,
    Lib.run (SociallyUIKit.step .plain) (SociallyUIKit.initial .empty) twoUnderWay = some w ∧
    ¬ w.Quiet ∧ ∃ K, (∀ i, K ≤ i → w.ops i = none) ∧
      Lib.World.Settles (SociallyUIKit.host .plain)
        (2 * Lib.World.underWay (fun _ => 2) K w) w := by
  have hrun : ∃ w op task, Lib.run (SociallyUIKit.step .plain) (SociallyUIKit.initial .empty)
      twoUnderWay = some w ∧ w.ops 0 = some op ∧ op.tasks = [task] := ⟨_, _, _, rfl, rfl, rfl⟩
  obtain ⟨w, op, task, hw, hop, htasks⟩ := hrun
  refine ⟨w, hw, fun hquiet => ?_, (settles_reachable .plain).1 .empty w ⟨_, hw⟩⟩
  have hnil := hquiet 0 op hop
  rw [htasks] at hnil
  cases hnil

end FirebaseApps
