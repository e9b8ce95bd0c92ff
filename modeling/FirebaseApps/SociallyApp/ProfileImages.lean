import FirebaseApps.Lib.Calls
import FirebaseApps.SociallyApp.Uploads

/-!
# SociallyApp: whose profile does a picture reach?

`uploadProfileImage` looks the signed-in user up when it has the URL of the uploaded
image, when someone else may be signed in than when the picture was chosen.  A
picture reaches only the account that chose it whenever, at that later moment, no
one is signed in or the user who chose the picture is (`photosKept_of_chooserStays`), and
whenever a URL is delivered at another moment, it goes to the profile of the user who is
signed in then (`not_photosKept_of_step`).
-/

namespace FirebaseApps.SociallyApp

open Lib (Always StepsMeet)

variable {S : StorageService} {fb : Firebase} {uuids : List UUID} {w w' : World} {action : Action}

/-- Whenever a profile change request sets the photo of a user to the URL of the image
of an `uploadProfileImage` call, that call was made while this user was signed in. -/
def PhotosKept (S : StorageService) (w : World) : Prop :=
  ∀ s ∈ w.sent, ∀ uid imageURL, s.req = .commitChanges uid imageURL →
    ∀ i op u data, w.ops i = some op → op.call = .uploadProfileImage u data →
      imageURL = S.downloadURL u.uuidString → op.origin.map User.uid = some uid

/-- The call was made for a picture chosen in `ProfileView`. -/
def Call.isProfileImage : Call → Bool
  | .uploadProfileImage .. => true
  | _ => false

/-- When the URL of a profile image is delivered, no one is signed in or the user who
chose the picture is. -/
def ChooserStays (w : World) : Action → Prop
  | .deliver i _ => ∀ op, w.ops i = some op → op.call.isProfileImage →
      op.history.map (·.choice) = [.success, .success] →
      ∀ user, w.env.firebase.currentUser op.client = some user →
        op.origin.map User.uid = some user.uid
  | _ => True

instance (w : World) : (action : Action) → Decidable (ChooserStays w action)
  | .deliver i j => by unfold ChooserStays; infer_instance
  | .start .. | .serve .. | .act _ => isTrue trivial

/-- The user who is seen, if any, is the one the call was made by. -/
def SameUser (origin seen : Option User) : Prop :=
  ∀ user, seen = some user → origin.map User.uid = some user.uid

theorem sees_of_chooserStays (h : OnCode S (fun _ _ => True) w) (hstay : ChooserStays w action) :
    Lib.World.Sees (host S) SameUser w action := by
  cases action with
  | start i device call => exact fun env _ => saw_start device call env
  | serve i j choice => trivial
  | deliver i j =>
      intro op code hop ht
      refine h.saw_ready hop ht fun hread => ?_
      obtain ⟨client, call, origin, history, outs, tasks⟩ := op
      cases call with
      | addData u description date data => cases hread
      | uploadProfileImage u data => exact hstay _ hop rfl (by rw [hread]; rfl)
  | act a => trivial

/-- Operations that see only the user who made their call keep photos where they
belong. -/
theorem OnCode.photosKept (h : OnCode S SameUser w) (hk : Known S uuids w) : PhotosKept S w := by
  intro s hs uid imageURL hreq i op u data hop hcall hurl
  obtain ⟨op', hop', hcall', hout⟩ := hk.accounted s hs
  -- the request belongs to an operation that has the URL of its own image
  have hwait : ∃ history, Waiting S (SameUser op'.origin) op'.call history s.req := by
    rcases hout with ⟨callback, ht⟩ | ⟨e, he, heq⟩
    · exact ⟨_, h.waiting hop' ht⟩
    · obtain ⟨before, after, hsplit⟩ := List.append_of_mem he
      exact ⟨before, heq ▸ (h.served hop' hsplit).1⟩
  obtain ⟨history, hwait⟩ := hwait
  rw [hreq, hurl] at hwait
  generalize hown : op'.call = call at hwait
  generalize hr : Req.commitChanges uid (S.downloadURL u.uuidString) = r at hwait
  cases hwait with
  | @commit v data' user hW =>
      obtain ⟨rfl, hsame⟩ := Req.commitChanges.inj hr
      obtain rfl : u = v := UUID.ext_uuidString (S.downloadURL_injective hsame)
      -- the UUID of the image is drawn by one call only
      obtain rfl : i = s.op := hk.own.inj i s.op op op' u hop hop'
        (by rw [hcall]; rfl) (by rw [hown]; rfl)
      obtain rfl : op = op' := Option.some.inj (hop.symm.trans hop')
      exact hW user rfl
  | _ => cases hr

/-- **What the answers of an upload lead to**: its second one, the URL, to the change request
of the signed-in user, and no other one to any. -/
theorem ready_uploadProfileImage {W : Option User → Prop} {fileUUID : UUID}
    {data : Data} {history : List Event} {outs : List Out}
    {tasks : List (Lib.Task Req Ans (Option User) Out)} {code : Code}
    (h : (Call.uploadProfileImage fileUUID data).code.At (Firebase.Answers S) W history outs tasks)
    (hsucceeded : ∀ e ∈ history, e.choice = .success) (ht : .ready code ∈ tasks) :
    tasks = [.ready code] ∧
      ((history.length = 2 ∧ ∀ device env user, env.firebase.currentUser device = some user →
        ((host S).exec device code env).requests =
          [.commitChanges user.uid (S.downloadURL fileUUID.uuidString)]) ∨
      (history.length ≠ 2 ∧ ∀ device env uid photoURL,
        .commitChanges uid photoURL ∉ ((host S).exec device code env).requests)) := by
  rcases h with ⟨-, -, rfl⟩ | ⟨choice, a, hans, h⟩
  · simp at ht
  -- the upload has its answer
  obtain rfl : choice = .success := by
    rcases h with ⟨rfl, -⟩ | ⟨history, rfl, -⟩ <;> exact hsucceeded _ List.mem_cons_self
  rcases hans.putData with ⟨-, rfl⟩ | ⟨e, hfailed, -⟩
  swap
  · cases hfailed
  rcases h with ⟨rfl, rfl, rfl⟩ | ⟨history, rfl, h⟩
  · obtain rfl := by simpa using ht
    exact ⟨rfl, .inr ⟨by simp, by simp [Lib.Host.exec, Lib.Effect.requests, Lib.Task.request?]⟩⟩
  rcases h with ⟨-, -, rfl⟩ | ⟨choice, a, hans, h⟩
  · simp at ht
  -- the URL has been answered
  obtain rfl : choice = .success := by
    rcases h with ⟨rfl, -⟩ | ⟨history, rfl, -⟩ <;>
      exact hsucceeded _ (List.mem_cons_of_mem _ List.mem_cons_self)
  rcases hans.downloadURL with ⟨-, rfl⟩ | ⟨e, hfailed, -⟩ | ⟨hneither, -⟩
  rotate_left
  · cases hfailed
  · cases hneither
  rcases h with ⟨rfl, rfl, rfl⟩ | ⟨history, rfl, seen, -, h⟩
  · obtain rfl := by simpa using ht
    refine ⟨rfl, .inl ⟨rfl, fun device env user hsigned => ?_⟩⟩
    simp [Lib.Host.exec, host, hsigned, Lib.Effect.requests, Lib.Task.request?]
  cases seen with
  | none =>
      obtain ⟨-, -, rfl⟩ := h
      simp at ht
  | some user =>
      -- the change request is out, or has been carried out
      rcases h with ⟨-, -, rfl⟩ | ⟨choice, error, -, ⟨rfl, rfl, rfl⟩ | ⟨history, rfl, h⟩⟩
      · simp at ht
      · obtain rfl := by simpa using ht
        refine ⟨rfl, .inr ⟨by simp, ?_⟩⟩
        cases error <;> simp [Lib.Host.exec, Lib.Effect.requests]
      · refine absurd ht ?_
        cases error with
        | none =>
            obtain ⟨-, -, rfl⟩ := h.call_done
            simp
        | some error =>
            obtain ⟨-, -, rfl⟩ := h
            simp

/-- **A picture reaches the account that chose it** when the chooser, or no one, is
signed in whenever its URL is delivered. -/
theorem photosKept_of_chooserStays (S : StorageService) (fb : Firebase) (uuids : List UUID)
    (as : List Action)
    (h : StepsMeet (step S) (fun w action _ => ChooserStays w action) (initial fb uuids) as) :
    Always (step S) (PhotosKept S) (initial fb uuids) as := by
  let I : World → Prop := Known S uuids
  let P : World → Prop := fun w => Known S uuids w ∧ OnCode S SameUser w
  have hP : Always (step S) P (initial fb uuids) as := by
    refine Lib.always_of_stepsMeet (I := I) (fun w action w' hI hs => hI.step hs) ?_
      (known_initial S fb uuids) ⟨known_initial S fb uuids, Lib.World.onCode_initial _⟩ h
    intro w action w' hI hP hstay hs
    exact ⟨hI.step hs, onCode_step hP.2 (sees_of_chooserStays hI.code hstay) hs⟩
  exact hP.mono fun w hw => hw.2.photosKept hw.1

/-- **The condition is exact at every step**: when a URL is delivered while another user than
the chooser is signed in, it is the profile of that user that is asked to change. -/
theorem not_photosKept_of_step (S : StorageService) (fb : Firebase) (uuids : List UUID)
    (w w' : World) (action : Action) (hw : Reachable S fb uuids w)
    (hs : step S w action = some w') (hleft : ¬ ChooserStays w action) : ¬ PhotosKept S w' := by
  have hk : Known S uuids w :=
    hw.invariant (known_initial S fb uuids) fun _ _ _ hk hs => hk.step hs
  rcases Lib.World.step_cases hs with ⟨i, client, call, env, rfl, -⟩ |
    ⟨i, j, choice, op, r, callback, env, a, rfl, -⟩ |
    ⟨i, j, op, code, rfl, hop, ht, rfl⟩ | ⟨a, env, rfl, -⟩
  all_goals simp only [ChooserStays, not_true_eq_false, not_forall] at hleft
  obtain ⟨op', hop', hpicture, hurl, user, hsigned, hother⟩ := hleft
  obtain rfl : op = op' := Option.some.inj (hop.symm.trans hop')
  obtain ⟨later, hlater, hfollows⟩ := Lib.World.step_op hs hop
  intro hkept
  apply hother
  -- the change request is among those that have been sent
  obtain ⟨client, call, origin, history, outs, tasks⟩ := op
  cases call with
  | addData => cases hpicture
  | uploadProfileImage u data =>
      have hsucceeded : ∀ e ∈ history, e.choice = .success := fun e he => by
        have hchoice := List.mem_map_of_mem (f := (·.choice)) he
        rw [hurl] at hchoice
        simpa using hchoice
      have htwo : history.length = 2 := by simpa using congrArg List.length hurl
      have hplace := hk.code i _ hop (Call.linear_code (.uploadProfileImage u data))
      obtain ⟨-, ⟨-, hrequests⟩ | ⟨hnot, -⟩⟩ :=
        ready_uploadProfileImage hplace hsucceeded (List.mem_of_getElem? ht)
      · have hsent : Req.commitChanges user.uid (S.downloadURL u.uuidString) ∈
            ((host S).exec client code w.env).requests := by
          rw [hrequests client w.env user hsigned]
          exact List.mem_cons_self
        have hmem := List.mem_append_right w.sent (List.mem_map_of_mem
          (f := fun r => (⟨i, .uploadProfileImage u data, r⟩ : Lib.Sent Call Req)) hsent)
        rw [← hfollows.origin]
        exact hkept _ hmem user.uid _ rfl i later u data hlater hfollows.call rfl
      · exact absurd htwo hnot

/-- Ada and Bob sign in on one device, one after the other. -/
def ada : User := ⟨"ada", none, some "Ada"⟩

def bob : User := ⟨"bob", none, some "Bob"⟩

/-- Ada chooses a profile picture on device `0`; `during` happens before its URL is
delivered. -/
def chooseDuring (during : List Action) : List Action :=
  ([.act (.signIn 0 ada), .start 0 0 (.uploadProfileImage .sample [0xFF]),
    .serve 0 0 .success, .deliver 0 0, .serve 0 0 .success] : List Action) ++ during ++
  ([.deliver 0 0, .serve 0 0 .success] : List Action)

/-- Along a run in which Ada signs out and in again during the upload, only she gets
the picture. -/
theorem photosKept_signInAgain : Always (step .plain) (PhotosKept .plain) (initial .empty [])
    (chooseDuring [.act (.signOut 0), .act (.signIn 0 ada)]) :=
  photosKept_of_chooserStays .plain .empty [] _ (by decide)

/-- A picture reaches the wrong account: Ada's picture becomes Bob's photo when the
account changes during the upload. -/
theorem wrongPhoto : ¬ ∀ (S : StorageService) (fb : Firebase) (uuids : List UUID)
    (as : List Action), Always (step S) (PhotosKept S) (initial fb uuids) as := by
  intro h
  have hrun : ∃ w, Lib.run (step .plain) (initial .empty [])
      (chooseDuring [.act (.signOut 0), .act (.signIn 0 bob)]) = some w ∧
      ¬ PhotosKept .plain w := by
    refine ⟨_, rfl, fun hkept => ?_⟩
    have hbad := hkept _
      (List.mem_cons_of_mem _ (List.mem_cons_of_mem _ List.mem_cons_self)) "bob" _
      rfl 0 _ _ _ rfl rfl rfl
    exact absurd hbad (by decide)
  obtain ⟨w, hw, hbad⟩ := hrun
  exact hbad ((h .plain .empty [] _).last hw)

end FirebaseApps.SociallyApp
