import FirebaseApps.SociallyUIKit.Provenance

/-!
# Socially-UIKit: who is named as the author of a post

`addData` takes the description and the date at the tap, but reads the signed-in user
in the callback of the upload, when someone else may be signed in.  The author is
right whenever the user at that later moment has the uid and the display name of the
user at the tap (`attributed_of_authorStays`), and in `wrongAuthor` it is another one.
-/

namespace FirebaseApps.SociallyUIKit

open Lib (Always StepsMeet)

variable {S : StorageService} {fb : Firebase} {w w' : World} {action : Action}

/-- The uid and the name a post is published under. -/
def author (user : Option User) : String × String :=
  ((user.map User.uid).getD "", (user.bind User.displayName).getD "Unknown")

/-- Every document that an `addData` call has added names the user who was signed in
when the call was made. -/
def Attributed (w : World) : Prop :=
  ∀ i op e fields d, w.ops i = some op → e ∈ op.history →
    e.req = .addDocument ["Posts"] fields → e.choice = .documentID d →
    (Document.empty.merge fields).string "userId" = some (author op.origin).1 ∧
      (Document.empty.merge fields).string "userName" = some (author op.origin).2

/-- The call is a Post tap. -/
def Call.isAddData : Call → Bool
  | .addData .. => true
  | _ => false

/-- When the answer to the successful upload of an `addData` call is delivered, the
signed-in user has the uid and the name of the user at the tap. -/
def AuthorStays (w : World) : Action → Prop
  | .deliver i _ => ∀ op, w.ops i = some op → op.call.isAddData →
      op.history.map (·.choice) = [.success] →
      author (w.env.firebase.currentUser op.client) = author op.origin
  | _ => True

instance (w : World) (action : Action) : Decidable (AuthorStays w action) := by
  cases action <;> unfold AuthorStays <;> infer_instance

/-- Views that name the same author as the view at the call. -/
def SameAuthor (origin user : Option User) : Prop := author user = author origin

theorem sees_of_authorStays (h : OnCode S (fun _ _ => True) w) (hstay : AuthorStays w action) :
    Lib.World.Sees (host S) SameAuthor w action := by
  cases action with
  | start i device call => exact fun env _ => saw_start device call env
  | serve i j choice => trivial
  | deliver i j =>
      intro op code hop ht
      refine h.saw_ready hop ht fun hread => ?_
      obtain ⟨client, call, origin, history, outs, tasks⟩ := op
      cases call with
      | addData path description date data => exact hstay _ hop rfl (by rw [hread]; rfl)
      | checkImageURL post path => cases hread
      | updatePost post newDescription => cases hread
      | deletePost post => cases hread
  | act a => trivial

/-- Operations that read the right author publish the right author. -/
theorem OnCode.attributed (h : OnCode S SameAuthor w) : Attributed w := by
  intro i op e fields d hop he hreq _
  obtain ⟨before, after, hsplit⟩ := List.append_of_mem he
  obtain ⟨hwait, -⟩ := h.served hop hsplit
  rw [hreq] at hwait
  obtain ⟨client, call, origin, history, outs, tasks⟩ := op
  cases hwait with
  | publish user hW =>
      have huid := congrArg Prod.fst hW
      have hname := congrArg Prod.snd hW
      constructor
      · rw [← huid]; rfl
      · rw [← hname]; rfl

/-- **Authors are right when the user at the upload's answer is the user at the tap.** -/
theorem attributed_of_authorStays (S : StorageService) (fb : Firebase) (as : List Action)
    (h : StepsMeet (step S) (fun w action _ => AuthorStays w action) (initial fb) as) :
    Always (step S) Attributed (initial fb) as := by
  refine Lib.Always.mono (fun w hw => OnCode.attributed hw) (Lib.always_of_stepsMeet
    (I := OnCode S fun _ _ => True) (P := OnCode S SameAuthor)
    (fun w action w' hI hs => onCode_step_any hI hs) ?_
    (Lib.World.onCode_initial _) (Lib.World.onCode_initial _) h)
  intro w action w' hI hP hstay hs
  exact onCode_step hP (sees_of_authorStays hI hstay) hs

/-- Ada and Bob sign in on one device, one after the other. -/
def ada : User := ⟨"ada", none, some "Ada"⟩

def bob : User := ⟨"bob", none, some "Bob"⟩

/-- Ada posts on device `0`; `during` happens while the image is being uploaded. -/
def postDuring (during : List Action) : List Action :=
  ([.act (.signIn 0 ada), .start 0 0 (.addData .sample "hello" 0 [0xFF]),
    .serve 0 0 .success] : List Action) ++ during ++
  ([.deliver 0 0, .serve 0 0 (.documentID "d")] : List Action)

/-- Along a run in which Ada signs out and in again during the upload, she is named. -/
theorem attributed_signInAgain : Always (step .plain) Attributed (initial .empty)
    (postDuring [.act (.signOut 0), .act (.signIn 0 ada)]) :=
  attributed_of_authorStays .plain .empty _ (by decide)

/-- A post goes to the wrong author: Ada's post is published as Bob's when the account
changes during the upload. -/
theorem wrongAuthor : ¬ ∀ (S : StorageService) (fb : Firebase) (as : List Action),
    Always (step S) Attributed (initial fb) as := by
  intro h
  have hrun : ∃ w, Lib.run (step .plain) (initial .empty)
      (postDuring [.act (.signOut 0), .act (.signIn 0 bob)]) = some w ∧ ¬ Attributed w := by
    refine ⟨_, rfl, fun hatt => ?_⟩
    have hbad := (hatt 0 _ _ _ "d" rfl (List.mem_cons_of_mem _ List.mem_cons_self) rfl rfl).1
    exact absurd hbad (by decide)
  obtain ⟨w, hw, hbad⟩ := hrun
  exact hbad ((h .plain .empty _).last hw)

end FirebaseApps.SociallyUIKit
