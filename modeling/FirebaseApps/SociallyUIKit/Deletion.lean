import FirebaseApps.Lib.Alone
import FirebaseApps.SociallyUIKit.Edits
import FirebaseApps.SociallyUIKit.Images

/-!
# Socially-UIKit: is a deletion all or nothing?

`deletePost` removes the document first and then, if the post it was given has an image
URL, the object behind that URL, which is the thumbnail.  The original image is never
removed, and a failure of the second step is reported although the document is gone.
So a call that reports is all or nothing only when its first step has failed, or when
what the other steps do not undo or do not touch was gone before (`allOrNothing_iff`).
-/

namespace FirebaseApps.SociallyUIKit

variable {S : StorageService} {fb : Firebase} {w w' : World} {d : String}

/-- What the reports of a deletion of the document `d`, which `o` had added, should
mean. -/
structure AllOrNothing (w w' : World) (o : Publication) (d : String) (outs : List Out) : Prop where
  success : .deleted (.ok ()) ∈ outs → document w' d = none ∧
    w'.env.firebase.objects o.path.uuidString = none ∧
    w'.env.firebase.objects (thumbPath o.path.uuidString) = none
  failure : ∀ e, .deleted (.error e) ∈ outs → document w' d = document w d ∧
    w'.env.firebase.objects = w.env.firebase.objects

/-- When a deletion that has run its course is all or nothing, by the state before it,
the post it was given and the outcomes of its steps. -/
inductive Undivided (w : World) (post : Post) (o : Publication) (d : String) : List Choice → Prop
  /-- It does not report a success, and a failure only of its first step. -/
  | noImageURL (outcomes : List Choice) (h : post.imageURL = none) :
      Undivided w post o d outcomes
  | firstFails (e : NSError) (rest : List Choice) : Undivided w post o d (.failure e :: rest)
  /-- There was no document to delete. -/
  | secondFails (e : NSError) (h : document w d = none) :
      Undivided w post o d [.success, .failure e]
  /-- There was no image to delete. -/
  | noImage (h : w.env.firebase.objects o.path.uuidString = none) :
      Undivided w post o d [.success, .success]

/-- The documents and Storage stand still. -/
structure Still (env env' : Env) : Prop where
  firestore : env'.firebase.firestore = env.firebase.firestore
  objects : env'.firebase.objects = env.firebase.objects

theorem background_still : (host S).Background Still where
  refl _ := ⟨rfl, rfl⟩
  trans h h' := ⟨h'.firestore.trans h.firestore, h'.objects.trans h.objects⟩
  emit env c o := by
    have hfb : ((host S).emit env c o).firebase = env.firebase := (firebase_emit env c o).1
    exact ⟨by rw [hfb], by rw [hfb]⟩

/-- The environment leaves both alone when the server makes no thumbnail. -/
theorem still_act {env env' : Env} {a : Act} (hno : ∀ name, a ≠ .thumbnail name)
    (ha : (host S).act env a = some env') : Still env env' := by
  cases a with
  | snapshot device => obtain rfl := Option.some.inj ha; exact ⟨rfl, rfl⟩
  | signIn device user => obtain rfl := Option.some.inj ha; exact ⟨rfl, rfl⟩
  | signOut device => obtain rfl := Option.some.inj ha; exact ⟨rfl, rfl⟩
  | thumbnail name => exact absurd rfl (hno name)

/-! ## What a deletion does -/

/-- A deletion of a post with an id, made alone and run to its end: the state it leaves
and what it reports, by the outcomes of its steps. -/
inductive Deletes (S : StorageService) (post : Post) (d : String) (env : Env) :
    List Choice → List Out → Env → Prop
  | failed {e env'} (hstill : Still env env') :
      Deletes S post d env [.failure e] [.deleted (.error e)] env'
  | silent {env'} (hurl : post.imageURL = none)
      (hfirestore : env'.firebase.firestore = env.firebase.firestore.remove ["Posts", d])
      (hobjects : env'.firebase.objects = env.firebase.objects) :
      Deletes S post d env [.success] [] env'
  | halfway {imageURL e env'} (hurl : post.imageURL = some imageURL)
      (hfirestore : env'.firebase.firestore = env.firebase.firestore.remove ["Posts", d])
      (hobjects : env'.firebase.objects = env.firebase.objects) :
      Deletes S post d env [.success, .failure e] [.deleted (.error e)] env'
  | deleted {imageURL env'} (hurl : post.imageURL = some imageURL)
      (hfirestore : env'.firebase.firestore = env.firebase.firestore.remove ["Posts", d])
      (hobjects : env'.firebase.objects =
        Function.update env.firebase.objects (S.reference imageURL) none) :
      Deletes S post d env [.success, .success] [.deleted (.ok ())] env'

/-- **How a deletion ends.** -/
theorem deletes_of_solo {device : Device} {post : Post} {env env' : Env} {op : Op}
    (hid : post.id = some d) (hdone : op.tasks = [])
    (hsolo : Lib.World.Solo (host S) Still (Firebase.Answers S) env device (.deletePost post)
      op env') :
    Deletes S post d env (op.history.map (·.choice)) op.outs env' := by
  obtain ⟨-, -, hplace, hserves⟩ := hsolo
  simp only [host, Call.code, PostService.deletePost, hid, hdone] at hplace
  obtain ⟨choice, error, rest, hans, hhistory, hplace⟩ := hplace.request_finished
  rw [hhistory] at hserves ⊢
  obtain ⟨env₁, env₂, hwait, hdelete, hserves⟩ := hserves
  obtain ⟨firebase, hfb, rfl⟩ := serve_eq_some hdelete
  rcases hans.deleteDocument with ⟨rfl, rfl⟩ | ⟨e, rfl, rfl⟩
  · cases Firebase.settled_of_serve hfb
    dsimp only at hplace
    split at hplace
    next imageURL hurl =>
      obtain ⟨choice, error, rest, hans, rfl, hreport⟩ := hplace.request_finished
      obtain ⟨env₃, env₄, hwait', hremove, hlast⟩ := hserves
      obtain ⟨firebase, hfb, rfl⟩ := serve_eq_some hremove
      have hfirestore : env₃.firebase.firestore = env.firebase.firestore.remove ["Posts", d] := by
        rw [hwait'.firestore, ← hwait.firestore]
      have hobjects : env₃.firebase.objects = env.firebase.objects :=
        hwait'.objects.trans hwait.objects
      rcases hans.deleteObject with ⟨rfl, rfl⟩ | ⟨e, rfl, rfl⟩
      · obtain ⟨rfl, houts, -⟩ := Lib.Code.At.call_done hreport
        rw [houts]
        cases Firebase.settled_of_serve hfb
        exact .deleted hurl (hlast.firestore.trans hfirestore)
          (hlast.objects.trans (by rw [Firebase.objects_setObject, hobjects]))
      · obtain ⟨rfl, houts, -⟩ := Lib.Code.At.call_done hreport
        rw [houts]
        cases Firebase.settled_of_serve hfb
        exact .halfway hurl (hlast.firestore.trans hfirestore) (hlast.objects.trans hobjects)
    next hurl =>
      obtain ⟨rfl, houts, -⟩ := hplace
      rw [houts]
      refine .silent hurl ?_ (hserves.objects.trans hwait.objects)
      rw [hserves.firestore, ← hwait.firestore]
  · obtain ⟨rfl, houts, -⟩ := hplace.call_done
    rw [houts]
    cases Firebase.settled_of_serve hfb
    exact .failed ⟨hserves.firestore.trans hwait.firestore, hserves.objects.trans hwait.objects⟩

/-! ## When a deletion is all or nothing -/

/-- The image URL of a post that a device holds is that of its document's thumbnail. -/
theorem imageURL_of_held (h : Reachable S fb w) {i : ℕ} {o : Publication} (hadd : Added w i o d)
    {device : Device} {post : Post} (hheld : post ∈ w.env.posts device) (hid : post.id = some d)
    {imageURL : String} (hurl : post.imageURL = some imageURL) : imageURL = o.thumbnailURL S := by
  have ht := traced_reachable h
  obtain ⟨d', hid', hpost⟩ := ht.posts.held device post hheld
  obtain rfl : d = d' := Option.some.inj (hid.symm.trans hid')
  have hnew := hadd.new (written_reachable h) (logged_reachable h)
  obtain ⟨j, o', hadd', heq⟩ := (hpost hnew).imageURL (.string imageURL) (by simp [hurl])
  rw [Value.string.inj heq, hadd.thumbnailURL_eq ht.ids hadd']

/-- **A deletion is all or nothing exactly when it is not divided.** -/
theorem allOrNothing_iff (S : StorageService) (fb : Firebase) (h : Reachable S fb w) {i : ℕ}
    {o : Publication} (hadd : Added w i o d) {k : ℕ} {device : Device} {post : Post}
    (hid : post.id = some d) {as : List Action} (halone : ∀ a ∈ as, a.Alone k)
    (hthumb : ∀ name, .act (.thumbnail name) ∉ as)
    (hrun : Lib.run (step S) w (.start k device (.deletePost post) :: as) = some w') {op : Op}
    (hop : w'.ops k = some op) (hdone : op.tasks = []) :
    AllOrNothing w w' o d op.outs ↔ Undivided w post o d (op.history.map (·.choice)) := by
  obtain ⟨env, op', ha, hop', hsolo⟩ := Lib.World.run_alone background_still
    (fun _ _ _ _ _ _ => answers_of_serve) (Call.linear_code S _)
    (fun env a env' hmem ha => still_act (fun name heq => hthumb name (heq ▸ hmem)) ha) halone hrun
  obtain rfl : op' = op := Option.some.inj (hop'.symm.trans hop)
  obtain ⟨hheld, rfl⟩ : post ∈ w.env.posts device ∧ w.env = env := by
    obtain ⟨hmem, heq⟩ := Option.ite_none_right_eq_some.mp ha
    exact ⟨hmem, Option.some.inj heq⟩
  have hends := deletes_of_solo hid hdone hsolo
  generalize op'.history.map (·.choice) = choices at hends ⊢
  generalize op'.outs = outs at hends ⊢
  generalize henv : w'.env = env' at hends
  cases hends with
  | @failed e _ hstill =>
      rw [← henv] at hstill
      refine iff_of_true ⟨fun hmem => ?_, fun e' _ => ?_⟩ (.firstFails e [])
      · cases List.mem_singleton.mp hmem
      · exact ⟨by rw [document, hstill.firestore], hstill.objects⟩
  | silent hurl hfirestore hobjects =>
      refine iff_of_true ⟨fun hmem => ?_, fun e hmem => ?_⟩ (.noImageURL _ hurl)
      · cases hmem
      · cases hmem
  | @halfway imageURL e _ hurl hfirestore hobjects =>
      rw [← henv] at hfirestore hobjects
      have hgone : document w' d = none := by
        rw [document, hfirestore]
        simp
      constructor
      · intro hall
        have hsame := (hall.failure e (List.mem_singleton_self _)).1
        exact .secondFails e (hsame.symm.trans hgone)
      · intro hcond
        cases hcond with
        | noImageURL _ hnil => simp [hurl] at hnil
        | secondFails _ habsent =>
            refine ⟨fun hmem => ?_, fun e' _ => ⟨hgone.trans habsent.symm, hobjects⟩⟩
            cases List.mem_singleton.mp hmem
  | @deleted imageURL _ hurl hfirestore hobjects =>
      rw [← henv] at hfirestore hobjects
      have hthumbnail : S.reference imageURL = thumbPath o.path.uuidString := by
        rw [imageURL_of_held h hadd hheld hid hurl, Publication.thumbnailURL,
          S.reference_downloadURL]
      rw [hthumbnail] at hobjects
      have himage : w'.env.firebase.objects o.path.uuidString =
          w.env.firebase.objects o.path.uuidString := by
        rw [hobjects, Function.update_of_ne (thumbPath_ne_uuidString _ _).symm]
      constructor
      · intro hall
        exact .noImage (himage.symm.trans (hall.success (List.mem_singleton_self _)).2.1)
      · intro hcond
        cases hcond with
        | noImageURL _ hnil => simp [hurl] at hnil
        | noImage hnone =>
            refine ⟨fun _ => ⟨?_, himage.trans hnone, ?_⟩, fun e hmem => ?_⟩
            · rw [document, hfirestore]
              simp
            · rw [hobjects, Function.update_self]
            · cases List.mem_singleton.mp hmem

/-- Device `0` publishes a post; its thumbnail is made and linked, and the feed shows it
again. -/
def shownRun : List Action := linkedRun ++ [.act (.snapshot 0)]

/-- The post that the feed shows then. -/
def shownPost : Post :=
  { id := some "d", userName := some "Unknown", description := some "hello",
    imageURL := some (StorageService.plain.downloadURL (thumbPath "7A21")), path := some "7A21" }

/-- The document is deleted, and then its thumbnail is not. -/
def halfwayRun : List Action :=
  [.serve 2 0 .success, .deliver 2 0, .serve 2 0 (.failure ⟨"storage", -13000, "unknown"⟩),
    .deliver 2 0]

/-- The two runs, one after the other. -/
theorem run_halfwayRun : ∃ w w' op, Lib.run (step .plain) (initial .empty) shownRun = some w ∧
    Added w 0 ⟨.sample, "hello", 0, [0xFF], none⟩ "d" ∧ (document w "d").isSome ∧
    Lib.run (step .plain) w (.start 2 0 (.deletePost shownPost) :: halfwayRun) = some w' ∧
    w'.ops 2 = some op ∧ op.tasks = [] ∧
    op.history.map (·.choice) = [.success, .failure ⟨"storage", -13000, "unknown"⟩] ∧
    .deleted (.error ⟨"storage", -13000, "unknown"⟩) ∈ op.outs ∧ document w' "d" = none :=
  ⟨_, _, _, rfl, ⟨_, rfl, rfl, rfl⟩, rfl, rfl, rfl, rfl, rfl, List.mem_singleton_self _, by decide⟩

theorem allOrNothing_halfwayRun : ∃ w w' op,
    Lib.run (step .plain) w (.start 2 0 (.deletePost shownPost) :: halfwayRun) = some w' ∧
    w'.ops 2 = some op ∧ ¬ AllOrNothing w w' ⟨.sample, "hello", 0, [0xFF], none⟩ "d" op.outs := by
  obtain ⟨w, w', op, hw, hadd, hdoc, hrun, hop, hdone, hchoices, -, -⟩ := run_halfwayRun
  refine ⟨w, w', op, hrun, hop, fun hall => ?_⟩
  have hcond := (allOrNothing_iff .plain .empty ⟨shownRun, hw⟩ hadd rfl (by decide)
    (by simp [halfwayRun]) hrun hop hdone).mp hall
  rw [hchoices] at hcond
  cases hcond with
  | noImageURL _ hnil => cases hnil
  | secondFails _ habsent => simp [habsent] at hdoc

/-- A deletion stops half way: after `halfwayRun` a failure was reported and the document
is gone. -/
theorem halfDeleted : ¬ ∀ (S : StorageService) (fb : Firebase) (w w' : World)
    i o d k device post as op,
    Reachable S fb w → Added w i o d → post.id = some d → (∀ a ∈ as, a.Alone k) →
    (∀ name, .act (.thumbnail name) ∉ as) →
    Lib.run (step S) w (.start k device (.deletePost post) :: as) = some w' →
    w'.ops k = some op → op.tasks = [] → AllOrNothing w w' o d op.outs := by
  intro h
  obtain ⟨w, w', op, hw, hadd, hdoc, hrun, hop, hdone, -, hout, hgone⟩ := run_halfwayRun
  have hall := h .plain .empty w w' 0 _ "d" 2 0 shownPost halfwayRun op ⟨shownRun, hw⟩ hadd rfl
    (by decide) (by simp [halfwayRun]) hrun hop hdone
  have hsame := (hall.failure _ hout).1
  simp [hgone, ← hsame] at hdoc

end FirebaseApps.SociallyUIKit
