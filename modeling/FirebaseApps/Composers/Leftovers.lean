import FirebaseApps.Lib.Alone
import FirebaseApps.SociallyApp.Uploads
import FirebaseApps.SociallyUIKit.Images

/-!
# What a failed upload leaves behind

`addData` of either app writes to two stores, the image first and the document last, and
neither has code that takes the image back.  So when a later step fails, the image is
left in Storage with nothing that refers to it; nothing else is changed.  Here a call
runs with no other operation, from any state of the app, while the server may make
thumbnails.

`addData_leaves` says what a call has left when it reports, for all outcomes of its steps;
`imageLeft` is a failed call whose image stays.
-/

namespace FirebaseApps.Composers

variable {S : StorageService} {made : String → Prop} {fb fb' : Firebase}

/-- The server has made thumbnails under names in `made`, and users have signed in or
out. -/
structure Resized (made : String → Prop) (fb fb' : Firebase) : Prop where
  firestore : fb'.firestore = fb.firestore
  objects : ∀ name, ¬ made name → fb'.objects name = fb.objects name
  exists_object : ∀ name, (fb.objects name).isSome → (fb'.objects name).isSome

namespace Resized

theorem refl (made : String → Prop) (fb : Firebase) : Resized made fb fb :=
  ⟨rfl, fun _ _ => rfl, fun _ h => h⟩

theorem trans {fb'' : Firebase} (h : Resized made fb fb') (h' : Resized made fb' fb'') :
    Resized made fb fb'' where
  firestore := h'.firestore.trans h.firestore
  objects name hname := (h'.objects name hname).trans (h.objects name hname)
  exists_object name hname := h'.exists_object name (h.exists_object name hname)

theorem signedIn (made : String → Prop) (fb : Firebase) (device : Device) (user : Option User) :
    Resized made fb (fb.signedIn device user) :=
  ⟨rfl, fun _ _ => rfl, fun _ h => h⟩

theorem makeThumbnail {name : String} (hmade : made (thumbPath name))
    (h : fb.makeThumbnail S name = some fb') : Resized made fb fb' := by
  obtain ⟨o, -, rfl⟩ := Option.map_eq_some_iff.mp h
  refine ⟨rfl, fun name' hname => ?_, fun name' hname => ?_⟩
  · have hne : name' ≠ thumbPath name := fun heq => hname (heq ▸ hmade)
    simp [hne]
  · by_cases heq : name' = thumbPath name
    · simp [heq]
    · simpa [heq] using hname

end Resized

/-- What a call that uploads `object` under `path` leaves when it has reported `error`.
`uploaded` says that its upload had succeeded, and `refers` what its document holds. -/
def LeftBy (made : String → Prop) (fb fb' : Firebase) (path : String) (object : Object)
    (uploaded : Prop) (refers : Document → Prop) : Option NSError → Prop
  | some _ => fb'.firestore = fb.firestore ∧
      (∀ name, name ≠ path → ¬ made name → fb'.objects name = fb.objects name) ∧
      (uploaded → fb'.objects path = some object) ∧
      (¬ uploaded → fb'.objects path = fb.objects path)
  | none => fb'.objects path = some object ∧
      ∃ d doc, fb'.firestore.get ["Posts", d] = some doc ∧ refers doc

/-- The reading without leftovers: a failed call changes nothing. -/
def Clean (made : String → Prop) (fb fb' : Firebase) (path : String) (object : Object)
    (refers : Document → Prop) : Option NSError → Prop
  | some _ =>
      fb'.firestore = fb.firestore ∧ ∀ name, ¬ made name → fb'.objects name = fb.objects name
  | none => fb'.objects path = some object ∧
      ∃ d doc, fb'.firestore.get ["Posts", d] = some doc ∧ refers doc

/-- The upload of a call has been served, and its image is there. -/
structure Uploaded (made : String → Prop) (fb fb' : Firebase) (path : String) (object : Object) :
    Prop where
  firestore : fb'.firestore = fb.firestore
  others : ∀ name, name ≠ path → ¬ made name → fb'.objects name = fb.objects name
  image : fb'.objects path = some object

section uploaded
variable {fb'' : Firebase} {device : Device} {path : String} {object : Object}
variable {refers : Document → Prop}

theorem Uploaded.resized (h : Uploaded made fb fb' path object) (hpath : ¬ made path)
    (h' : Resized made fb' fb'') : Uploaded made fb fb'' path object where
  firestore := h'.firestore.trans h.firestore
  others name hname hmade := (h'.objects name hmade).trans (h.others name hname hmade)
  image := (h'.objects path hpath).trans h.image

/-- A call that fails after its upload leaves its image. -/
theorem Uploaded.leftBy (h : Uploaded made fb fb' path object) {uploaded : Prop}
    (hup : uploaded) (e : NSError) :
    LeftBy made fb fb' path object uploaded refers (some e) :=
  ⟨h.firestore, h.others, fun _ => h.image, fun hno => absurd hup hno⟩

/-- A call whose upload fails leaves nothing. -/
theorem Resized.leftBy (h : Resized made fb fb') (hpath : ¬ made path) {uploaded : Prop}
    (hup : ¬ uploaded) (e : NSError) :
    LeftBy made fb fb' path object uploaded refers (some e) :=
  ⟨h.firestore, fun name _ hmade => h.objects name hmade, fun hyes => absurd hyes hup,
    fun _ => h.objects path hpath⟩

/-! ## Serving the requests of a call -/

/-- From one backend to another along the requests of a device, served in order, while the
server makes thumbnails. -/
def Serving (S : StorageService) (made : String → Prop) (device : Device) :
    List (Lib.Event Req Ans Choice) → Firebase → Firebase → Prop
  | [], fb, fb' => Resized made fb fb'
  | e :: history, fb, fb' => ∃ fb₁ fb₂, Resized made fb fb₁ ∧
      fb₁.serve S device e.req e.choice = some (fb₂, e.ans) ∧ Serving S made device history fb₂ fb'

/-- What a call alone does to the environment of its app, it does to the backend. -/
theorem serving_of_serves {Env Call Act View Out : Type}
    {H : Lib.Host Env Device Call Act Choice Req Ans View Out} {firebase : Env → Firebase}
    (hserve : ∀ {env r choice env' a}, H.serve env device r choice = some (env', a) →
      (firebase env).serve S device r choice = some (firebase env', a))
    {history : List (Lib.Event Req Ans Choice)} {env env' : Env}
    (h : H.Serves (fun env env' => Resized made (firebase env) (firebase env')) device history env
      env') : Serving S made device history (firebase env) (firebase env') := by
  induction history generalizing env with
  | nil => exact h
  | cons e history ih =>
      obtain ⟨env₁, env₂, hmoved, he, hrest⟩ := h
      exact ⟨firebase env₁, firebase env₂, hmoved, hserve he, ih hrest⟩

/-- Serving this request changes nothing. -/
def Idle (S : StorageService) (device : Device) (e : Lib.Event Req Ans Choice) : Prop :=
  ∀ fb fb', Firebase.serve S fb device e.req e.choice = some (fb', e.ans) → fb' = fb

theorem idle_failure (r : Req) (e : NSError) (a : Ans r) : Idle S device ⟨r, .failure e, a⟩ := by
  intro fb fb' h
  have hserve : fb.serve S device r (.failure e) = some (fb', a) := h
  cases Firebase.settled_of_serve hserve
  rfl

theorem idle_downloadURL (name : String) (choice : Choice) (a : Ans (.downloadURL name)) :
    Idle S device ⟨.downloadURL name, choice, a⟩ := by
  intro fb fb' h
  have hserve : fb.serve S device (.downloadURL name) choice = some (fb', a) := h
  cases Firebase.settled_of_serve hserve <;> rfl

namespace Serving
variable {e : Lib.Event Req Ans Choice} {history : List (Lib.Event Req Ans Choice)}

/-- A request that changes nothing can be passed over. -/
theorem skip (h : Serving S made device (e :: history) fb fb') (he : Idle S device e) :
    ∃ fb₁, Resized made fb fb₁ ∧ Serving S made device history fb₁ fb' := by
  obtain ⟨fb₁, fb₂, hmoved, hserve, hrest⟩ := h
  obtain rfl := he fb₁ fb₂ hserve
  exact ⟨fb₂, hmoved, hrest⟩

/-- Requests that change nothing leave the backend to the server. -/
theorem resized (h : Serving S made device history fb fb')
    (hidle : ∀ e ∈ history, Idle S device e) : Resized made fb fb' := by
  induction history generalizing fb with
  | nil => exact h
  | cons e history ih =>
      obtain ⟨fb₁, hmoved, hrest⟩ := h.skip (hidle e List.mem_cons_self)
      exact hmoved.trans (ih hrest fun e' he' => hidle e' (List.mem_cons_of_mem e he'))

/-- An upload stores the image and changes nothing else. -/
theorem uploaded (object : Object) {a : Option NSError} (h : Serving S made device
      (⟨.putData path object.data object.contentType, .success, a⟩ :: history) fb fb') :
    ∃ fb₁, Uploaded made fb fb₁ path object ∧ Serving S made device history fb₁ fb' := by
  obtain ⟨fb₁, fb₂, hmoved, hserve, hrest⟩ := h
  refine ⟨fb₂, ?_, hrest⟩
  cases Firebase.settled_of_serve hserve
  refine ⟨hmoved.firestore, fun name hname hmade => ?_, by simp⟩
  simpa [hname] using hmoved.objects name hmade

/-- A document that is added is there at the end, with the image of its call. -/
theorem published {uploaded : Prop} {fields : Fields} {d : String} {a : Option NSError}
    (h : Serving S made device [⟨.addDocument ["Posts"] fields, .documentID d, a⟩] fb' fb'')
    (hup : Uploaded made fb fb' path object) (hpath : ¬ made path)
    (hrefers : refers (Document.empty.merge fields)) :
    LeftBy made fb fb'' path object uploaded refers none := by
  obtain ⟨fb₁, fb₂, hmoved, hserve, hlast⟩ := h
  cases Firebase.settled_of_serve hserve
  refine ⟨(hlast.objects path hpath).trans (hup.resized hpath hmoved).image, d, _, ?_, hrefers⟩
  rw [hlast.firestore]
  simp

end Serving
end uploaded

/-- The names under which the server makes thumbnails in these actions. -/
def Made {A : Type} (thumbnail : String → A) (as : List A) (name : String) : Prop :=
  ∃ q, thumbnail q ∈ as ∧ name = thumbPath q

/-- The image of a call is no thumbnail. -/
theorem not_made {A : Type} {thumbnail : String → A} {as : List A} (u : UUID) :
    ¬ Made thumbnail as u.uuidString := by
  rintro ⟨q, -, heq⟩
  exact thumbPath_ne_uuidString q u heq.symm

/-! ## Socially-UIKit -/

section uikit
open SociallyUIKit
variable {w w' : World} {k : ℕ} {device : Device} {as : List Action}

/-- The thumbnails made in these actions. -/
abbrev madeUIKit (as : List Action) : String → Prop := Made (fun q => .act (.thumbnail q)) as

theorem background_uikit (made : String → Prop) : (host S).Background fun env env' =>
    Resized made env.firebase env'.firebase where
  refl env := .refl made env.firebase
  trans h h' := h.trans h'
  emit env c o := by
    rw [show ((host S).emit env c o).firebase = env.firebase from (firebase_emit env c o).1]
    exact .refl made _

/-- The environment does no more than that on its own. -/
theorem resized_act {env env' : Env} {a : Act} (hmem : .act a ∈ as)
    (ha : (host S).act env a = some env') :
    Resized (madeUIKit as) env.firebase env'.firebase := by
  cases a with
  | snapshot device => obtain rfl := Option.some.inj ha; exact .refl _ _
  | signIn device user => obtain rfl := Option.some.inj ha; exact .signedIn _ _ device _
  | signOut device => obtain rfl := Option.some.inj ha; exact .signedIn _ _ device _
  | thumbnail name =>
      obtain ⟨firebase, hm, rfl⟩ := Option.map_eq_some_iff.mp ha
      exact .makeThumbnail ⟨name, hmem, rfl⟩ hm

/-- **What `addData` leaves**, in Socially-UIKit. -/
theorem leftBy_uikit {path : UUID} {description : String} {date : Date} {data : Data} {op : Op}
    {error : Option NSError} (halone : ∀ a ∈ as, a.Alone k)
    (hrun : Lib.run (step S) w (.start k device (.addData path description date data) :: as) =
      some w') (hop : w'.ops k = some op) (ho : .added error ∈ op.outs) :
    LeftBy (madeUIKit as) w.env.firebase w'.env.firebase path.uuidString (imageObject data)
      (ok (upload path data) none ∈ op.history)
      (fun doc => doc "path" = some (.string path.uuidString)) error := by
  obtain ⟨env, op', ha, hop', hsolo⟩ := Lib.World.run_alone (background_uikit (madeUIKit as))
    (fun _ _ _ _ _ _ => answers_of_serve) (Call.linear_code S _)
    (fun env a env' hmem ha => resized_act hmem ha) halone hrun
  obtain rfl : op' = op := Option.some.inj (hop'.symm.trans hop)
  have haccept : w.env.accept device (.addData path description date data) = some env := ha
  rw [← (accept_eq haccept).1]
  have hpath : ¬ madeUIKit as path.uuidString := not_made path
  have hserving : Serving S (madeUIKit as) device op'.history env.firebase w'.env.firebase :=
    serving_of_serves (fun hr => by
      obtain ⟨firebase, hfb, rfl⟩ := serve_eq_some hr
      exact hfb) hsolo.serves
  obtain ⟨error', houts, -, hends⟩ :=
    NewPostViewController.ends_addData hsolo.place (.inr (List.ne_nil_of_mem ho))
  obtain rfl : error = error' := by simpa [houts] using ho
  generalize op'.history = history at hserving hends ⊢
  cases hends with
  | notUploaded e =>
      refine (hserving.resized ?_).leftBy hpath (fun hmem => ?_) e
      · exact List.forall_mem_singleton.mpr (idle_failure _ e _)
      · cases List.mem_singleton.mp hmem
  | notPublished user e =>
      obtain ⟨fb₁, hup, hrest⟩ := hserving.uploaded (imageObject data)
      have hresized := hrest.resized (List.forall_mem_singleton.mpr (idle_failure _ e _))
      exact (hup.resized hpath hresized).leftBy List.mem_cons_self e
  | published user d =>
      obtain ⟨fb₁, hup, hrest⟩ := hserving.uploaded (imageObject data)
      exact hrest.published hup hpath rfl

end uikit

/-! ## SociallyApp -/

section swiftui
open SociallyApp
variable {w w' : World} {k : ℕ} {device : Device} {as : List Action}

/-- The thumbnails made in these actions. -/
abbrev madeApp (as : List Action) : String → Prop := Made (fun q => .act (.thumbnail q)) as

theorem background_app (made : String → Prop) : (host S).Background fun env env' =>
    Resized made env.firebase env'.firebase where
  refl env := .refl made env.firebase
  trans h h' := h.trans h'
  emit env c o := by cases o <;> exact .refl made _

/-- The environment does no more than that on its own. -/
theorem resized_app {env env' : Env} {a : Act} (hmem : .act a ∈ as)
    (ha : (host S).act env a = some env') :
    Resized (madeApp as) env.firebase env'.firebase := by
  cases a with
  | signIn device user => obtain rfl := Option.some.inj ha; exact .signedIn _ _ device _
  | signOut device => obtain rfl := Option.some.inj ha; exact .signedIn _ _ device _
  | thumbnail name =>
      obtain ⟨firebase, hm, rfl⟩ := Option.map_eq_some_iff.mp ha
      exact .makeThumbnail ⟨name, hmem, rfl⟩ hm

/-- **What `addData` leaves**, in SociallyApp. -/
theorem leftBy_app {u : UUID} {description : String} {date : Date} {data : Data} {op : Op}
    {error : Option NSError} (halone : ∀ a ∈ as, a.Alone k)
    (hrun : Lib.run (step S) w (.start k device (.addData u description date data) :: as) =
      some w') (hop : w'.ops k = some op) (ho : .added error ∈ op.outs) :
    LeftBy (madeApp as) w.env.firebase w'.env.firebase u.uuidString
      ⟨data, some (detectMimeType data)⟩
      (ok (upload (.addData u description date data)) none ∈ op.history)
      (fun doc => doc "imageURL" = some (.string (S.downloadURL (thumbPath u.uuidString))))
      error := by
  obtain ⟨env, op', ha, hop', hsolo⟩ := Lib.World.run_alone (background_app (madeApp as))
    (fun _ _ _ _ _ _ hr => by
      obtain ⟨firebase, hfb, -⟩ := serve_eq_some hr
      exact Firebase.Answers.of_serve hfb) (Call.linear_code _)
    (fun env a env' hmem ha => resized_app hmem ha) halone hrun
  obtain rfl : op' = op := Option.some.inj (hop'.symm.trans hop)
  obtain ⟨-, hdraw⟩ := Option.ite_none_left_eq_some.mp ha
  have hsame : env.firebase = w.env.firebase := by rw [← Option.some.inj hdraw]
  rw [← hsame]
  have hpath : ¬ madeApp as u.uuidString := not_made u
  have hserving : Serving S (madeApp as) device op'.history env.firebase w'.env.firebase :=
    serving_of_serves (fun hr => by
      obtain ⟨firebase, hfb, rfl⟩ := serve_eq_some hr
      exact hfb) hsolo.serves
  obtain ⟨error', houts, -, hends⟩ :=
    PostViewModel.ends_addData hsolo.place (.inr (List.ne_nil_of_mem ho))
  obtain rfl : error = error' := by simpa [houts] using ho
  generalize op'.history = history at hserving hends ⊢
  cases hends with
  | notUploaded e =>
      refine (hserving.resized ?_).leftBy hpath (fun hmem => ?_) e
      · exact List.forall_mem_singleton.mpr (idle_failure _ e _)
      · cases List.mem_singleton.mp hmem
  | noThumbnail e =>
      obtain ⟨fb₁, hup, hrest⟩ := hserving.uploaded ⟨data, some (detectMimeType data)⟩
      have hresized := hrest.resized (List.forall_mem_singleton.mpr (idle_failure _ e _))
      exact (hup.resized hpath hresized).leftBy List.mem_cons_self e
  | noURL =>
      obtain ⟨fb₁, hup, hrest⟩ := hserving.uploaded ⟨data, some (detectMimeType data)⟩
      have hresized := hrest.resized (List.forall_mem_singleton.mpr (idle_downloadURL _ _ _))
      exact (hup.resized hpath hresized).leftBy List.mem_cons_self _
  | notPublished e =>
      obtain ⟨fb₁, hup, hrest⟩ := hserving.uploaded ⟨data, some (detectMimeType data)⟩
      obtain ⟨fb₂, hwaited, hrest⟩ := hrest.skip (idle_downloadURL _ _ _)
      have hresized := hrest.resized (List.forall_mem_singleton.mpr (idle_failure _ e _))
      exact (hup.resized hpath (hwaited.trans hresized)).leftBy List.mem_cons_self e
  | published d =>
      obtain ⟨fb₁, hup, hrest⟩ := hserving.uploaded ⟨data, some (detectMimeType data)⟩
      obtain ⟨fb₂, hwaited, hrest⟩ := hrest.skip (idle_downloadURL _ _ _)
      exact hrest.published (hup.resized hpath hwaited) hpath rfl

end swiftui

/-! ## Both apps -/

/-- **What `addData` leaves behind**: in both apps, when a call that runs alone reports an
error, `Posts` is as before and Storage is, too, but for the call's own image, which is
there if its upload had succeeded; when it reports none, the image and the document that
refers to it exist. -/
theorem addData_leaves (S : StorageService) :
    (∀ (w w' : SociallyUIKit.World) k device path description date data as op error,
      (∀ a ∈ as, a.Alone k) →
      Lib.run (SociallyUIKit.step S) w
        (.start k device (.addData path description date data) :: as) = some w' →
      w'.ops k = some op → .added error ∈ op.outs →
      LeftBy (madeUIKit as) w.env.firebase w'.env.firebase path.uuidString
        (SociallyUIKit.imageObject data)
        (SociallyUIKit.ok (SociallyUIKit.upload path data) none ∈ op.history)
        (fun doc => doc "path" = some (.string path.uuidString)) error) ∧
    ∀ (w w' : SociallyApp.World) k device u description date data as op error,
      (∀ a ∈ as, a.Alone k) →
      Lib.run (SociallyApp.step S) w (.start k device (.addData u description date data) :: as) =
        some w' →
      w'.ops k = some op → .added error ∈ op.outs →
      LeftBy (madeApp as) w.env.firebase w'.env.firebase u.uuidString
        ⟨data, some (detectMimeType data)⟩
        (SociallyApp.ok (SociallyApp.upload (.addData u description date data)) none ∈ op.history)
        (fun doc => doc "imageURL" = some (.string (S.downloadURL (thumbPath u.uuidString))))
        error :=
  ⟨fun _ _ _ _ _ _ _ _ _ _ _ halone hrun hop ho => leftBy_uikit halone hrun hop ho,
    fun _ _ _ _ _ _ _ _ _ _ _ halone hrun hop ho => leftBy_app halone hrun hop ho⟩

/-- The image is uploaded and the document refused. -/
def refusedRun : List SociallyUIKit.Action :=
  [.serve 0 0 .success, .deliver 0 0, .serve 0 0 (.failure ⟨"firestore", 7, "refused"⟩),
    .deliver 0 0]

/-- The app after a Post tap and `refusedRun`. -/
theorem run_refusedRun : ∃ w' op, Lib.run (SociallyUIKit.step .plain)
      (SociallyUIKit.initial .empty)
      (.start 0 0 (.addData .sample "hello" 0 [0xFF]) :: refusedRun) = some w' ∧
    w'.ops 0 = some op ∧ .added (some ⟨"firestore", 7, "refused"⟩) ∈ op.outs ∧
    w'.env.firebase.objects "7A21" = some ⟨[0xFF], some "image/jpeg"⟩ :=
  ⟨_, _, rfl, rfl, List.mem_singleton_self _, by decide⟩

theorem leaves_refusedRun : ∃ w' : SociallyUIKit.World,
    w'.env.firebase.firestore = (Firebase.empty).firestore ∧
      w'.env.firebase.objects "7A21" = some ⟨[0xFF], some "image/jpeg"⟩ := by
  obtain ⟨w', op, hrun, hop, ho, himage⟩ := run_refusedRun
  have hleft := (addData_leaves .plain).1 _ w' 0 0 .sample "hello" 0 [0xFF] refusedRun op _
    (by decide) hrun hop ho
  exact ⟨w', hleft.1, himage⟩

/-- A failed call leaves its image: after `refusedRun` it is in Storage. -/
theorem imageLeft : ¬ ∀ (S : StorageService) (w w' : SociallyUIKit.World) k device path
    description date data as op error, (∀ a ∈ as, a.Alone k) →
    Lib.run (SociallyUIKit.step S) w
      (.start k device (.addData path description date data) :: as) = some w' →
    w'.ops k = some op → .added error ∈ op.outs →
    Clean (madeUIKit as) w.env.firebase w'.env.firebase path.uuidString
      (SociallyUIKit.imageObject data) (fun doc => doc "path" = some (.string path.uuidString))
      error := by
  intro h
  obtain ⟨w', op, hrun, hop, ho, himage⟩ := run_refusedRun
  have hclean := h .plain _ w' 0 0 .sample "hello" 0 [0xFF] refusedRun op _ (by decide) hrun hop ho
  have hsame := hclean.2 "7A21" (not_made .sample)
  rw [himage] at hsame
  cases hsame

end FirebaseApps.Composers
