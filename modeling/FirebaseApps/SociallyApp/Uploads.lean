import FirebaseApps.Firebase.Backend
import FirebaseApps.Lib.Fresh
import FirebaseApps.Lib.Places

/-!
# SociallyApp: the two operations that upload an image

`PostViewModel.addData` uploads an image, asks for the URL of its thumbnail and adds
a document; `AuthViewModel.uploadProfileImage` uploads an image, asks for its URL and
makes it the photo of the signed-in user.  Both are chains of three requests, each
sent from the callback of the one before.  Console output and the ten seconds that
`addData` sleeps before it asks for the thumbnail are left out: a run may wait
anywhere.

## Main definitions

* `PostViewModel.addData`, `AuthViewModel.uploadProfileImage` — the operations.
* `host` — the app as a callback host, for any number of devices.
* `Waiting`, `meets_code` — the request an operation can be waiting for.
-/

namespace FirebaseApps.SociallyApp

open Lib (Task)

/-! ## The operations -/

/-- What the operations do besides sending requests. -/
inductive Out
  /-- The completion of `addData`. -/
  | added (error : Option NSError)
  /-- `self.user = Auth.auth().currentUser` in `AuthViewModel`. -/
  | refreshUser

/-- Code of this app; the one variable it reads is `Auth.auth().currentUser`. -/
abbrev Code := Lib.Code Req Ans (Option User) Out

namespace PostViewModel

/-- The error for an answer that has neither a URL nor an error. -/
def urlError : NSError :=
  ⟨"URLError", 0, "The operation couldn’t be completed. (URLError error 0.)"⟩

/-- The dictionary that `addData` writes. -/
def newPost (description : String) (datePublished : Date) (imageURL : String) : Fields :=
  [("description", .value (.string description)),
   ("datePublished", .value (.timestamp datePublished)),
   ("imageURL", .value (.string imageURL))]

/-- `addData(description:datePublished:data:completion:)`; `fileUUID` is the fresh
UUID it draws first. -/
def addData (fileUUID : UUID) (description : String) (datePublished : Date) (data : Data)
    (completion : Option NSError → Code) : Code :=
  .request (.putData fileUUID.uuidString data (some (detectMimeType data))) (fun error =>
    match error with
    | some error => completion (some error)
    | none =>
      .request (.downloadURL (thumbPath fileUUID.uuidString)) (fun answer =>
        match answer with
        | (_, some error) => completion (some error)
        | (none, none) => completion (some urlError)
        | (some downloadURL, none) =>
          .request (.addDocument ["Posts"] (newPost description datePublished downloadURL))
            (fun error => completion error) .done) .done) .done

end PostViewModel

namespace AuthViewModel

/-- `uploadProfileImage(_:)`; `fileUUID` is the fresh UUID it draws first. -/
def uploadProfileImage (fileUUID : UUID) (imageData : Data) : Code :=
  .request (.putData fileUUID.uuidString imageData none) (fun error =>
    match error with
    | some _ => .done
    | none =>
      .request (.downloadURL fileUUID.uuidString) (fun answer =>
        match answer.1 with
        | none => .done
        | some imageURL =>
          .read fun currentUser =>
            match currentUser with
            | none => .done
            | some user =>
              .request (.commitChanges user.uid imageURL) (fun error =>
                match error with
                | some _ => .done
                | none => .call .refreshUser .done) .done) .done) .done

end AuthViewModel

/-- The calls the screens make. -/
inductive Call
  /-- A Post tap in `PostView`. -/
  | addData (fileUUID : UUID) (description : String) (datePublished : Date) (data : Data)
  /-- A picture was chosen in `ProfileView`. -/
  | uploadProfileImage (fileUUID : UUID) (imageData : Data)

/-- The code of a call, with the completion its screen passes. -/
def Call.code : Call → Code
  | .addData fileUUID description datePublished data =>
      PostViewModel.addData fileUUID description datePublished data
        fun error => .call (.added error) .done
  | .uploadProfileImage fileUUID imageData =>
      AuthViewModel.uploadProfileImage fileUUID imageData

/-- The UUID that a call draws. -/
def Call.fileUUID : Call → UUID
  | .addData fileUUID .. | .uploadProfileImage fileUUID _ => fileUUID

/-- The object that a call uploads. -/
def Call.object : Call → Object
  | .addData _ _ _ data => ⟨data, some (detectMimeType data)⟩
  | .uploadProfileImage _ imageData => ⟨imageData, none⟩

/-- Every operation has one request out at a time. -/
theorem Call.linear_code (call : Call) : call.code.Linear := by
  cases call with
  | addData fileUUID description datePublished data =>
      refine ⟨fun error => ?_, rfl⟩
      cases error with
      | some error => trivial
      | none =>
          refine ⟨fun answer => ?_, rfl⟩
          obtain ⟨_ | url, _ | error⟩ := answer
          · trivial
          · trivial
          · exact ⟨fun error => trivial, rfl⟩
          · trivial
  | uploadProfileImage fileUUID imageData =>
      refine ⟨fun error => ?_, rfl⟩
      cases error with
      | some error => trivial
      | none =>
          refine ⟨fun answer => ?_, rfl⟩
          obtain ⟨_ | imageURL, error⟩ := answer
          · trivial
          · intro currentUser
            cases currentUser with
            | none => trivial
            | some user =>
                refine ⟨fun error => ?_, rfl⟩
                cases error <;> trivial

/-! ## The system -/

/-- The backend, the user each `AuthViewModel` shows, and the UUIDs drawn so far. -/
structure Env where
  firebase : Firebase
  /-- `AuthViewModel.user` on each device. -/
  user : Device → Option User
  uuids : List UUID

/-- What happens without a call of the two operations. -/
inductive Act
  | signIn (device : Device) (user : User)
  | signOut (device : Device)
  /-- The server makes the thumbnail of an object. -/
  | thumbnail (name : String)

/-- The effects: `refreshUser` shows the signed-in user. -/
def Env.emit (env : Env) (device : Device) : Out → Env
  | .added _ => env
  | .refreshUser =>
      { env with user := Function.update env.user device (env.firebase.currentUser device) }

/-- A call draws a fresh UUID. -/
def Env.accept (env : Env) (_ : Device) (call : Call) : Option Env :=
  if call.fileUUID ∈ env.uuids then none else some { env with uuids := call.fileUUID :: env.uuids }

/-- The moves of the environment. -/
def Env.act (S : StorageService) (env : Env) : Act → Option Env
  | .signIn device user => some { env with firebase := env.firebase.signedIn device (some user) }
  | .signOut device => some { env with firebase := env.firebase.signedIn device none }
  | .thumbnail name =>
      (env.firebase.makeThumbnail S name).map fun firebase => { env with firebase := firebase }

/-- The app as a callback host. -/
def host (S : StorageService) :
    Lib.Host Env Device Call Act Choice Req Ans (Option User) Out where
  view env device := env.firebase.currentUser device
  emit := Env.emit
  serve env device r choice :=
    (env.firebase.serve S device r choice).map fun fa => ({ env with firebase := fa.1 }, fa.2)
  accept := Env.accept
  code := Call.code
  act := Env.act S

/-- The app with all its operations. -/
abbrev World := Lib.World Env Device Call Choice Req Ans (Option User) Out

abbrev Op := Lib.Op Device Call Choice Req Ans (Option User) Out

abbrev Event := Lib.Event Req Ans Choice

abbrev Entry := Lib.Entry Call Choice Req Ans

abbrev Action := Lib.Action Device Call Act Choice

/-- One step of the app. -/
abbrev step (S : StorageService) (w : World) (action : Action) : Option World :=
  w.step (host S) action

/-- No call has been made; `uuids` were drawn before. -/
def initial (firebase : Firebase) (uuids : List UUID) : World :=
  .initial ⟨firebase, fun _ => none, uuids⟩

/-- The states the app can be in, starting on this backend. -/
def Reachable (S : StorageService) (firebase : Firebase) (uuids : List UUID) (w : World) : Prop :=
  Lib.Reachable (step S) (initial firebase uuids) w

variable {S : StorageService} {fb : Firebase} {uuids : List UUID} {w w' : World} {action : Action}

theorem serve_eq_some {env env' : Env} {device : Device} {r : Req} {choice : Choice} {a : Ans r}
    (h : (host S).serve env device r choice = some (env', a)) :
    ∃ firebase, env.firebase.serve S device r choice = some (firebase, a) ∧
      env' = { env with firebase := firebase } :=
  Firebase.serve_of_map h

/-- Callbacks change nothing but the user that is shown. -/
theorem env_exec (device : Device) (code : Code) (env : Env) :
    ((host S).exec device code env).env.firebase = env.firebase ∧
      ((host S).exec device code env).env.uuids = env.uuids := by
  refine (host S).exec_env_invariant
    (P := fun env' => env'.firebase = env.firebase ∧ env'.uuids = env.uuids)
    (fun out _ env' h => ?_) ⟨rfl, rfl⟩
  cases out <;> exact h

/-! ## What an operation asks -/

/-- A request that was served without an error. -/
def ok (r : Req) (a : Ans r) : Event := ⟨r, .success, a⟩

/-- The request that uploads the object of a call. -/
abbrev upload (call : Call) : Req :=
  .putData call.fileUUID.uuidString call.object.data call.object.contentType

/-- The request for the URL of an object, answered with it. -/
abbrev found (S : StorageService) (name : String) : Event :=
  ok (.downloadURL name) (some (S.downloadURL name), none)

/-- The requests that can be out for a call, with what was served before. -/
inductive Waiting (S : StorageService) (W : Option User → Prop) : Call → List Event → Req → Prop
  | upload {call} : Waiting S W call [] (upload call)
  | lookup {u description date data} :
      Waiting S W (.addData u description date data)
        [ok (SociallyApp.upload (.addData u description date data)) none]
        (.downloadURL (thumbPath u.uuidString))
  | publish {u description date data} :
      Waiting S W (.addData u description date data)
        [ok (SociallyApp.upload (.addData u description date data)) none,
          found S (thumbPath u.uuidString)]
        (.addDocument ["Posts"]
          (PostViewModel.newPost description date (S.downloadURL (thumbPath u.uuidString))))
  | imageURL {u data} :
      Waiting S W (.uploadProfileImage u data)
        [ok (SociallyApp.upload (.uploadProfileImage u data)) none] (.downloadURL u.uuidString)
  | commit {u data} (user : User) (hW : W (some user)) :
      Waiting S W (.uploadProfileImage u data)
        [ok (SociallyApp.upload (.uploadProfileImage u data)) none, found S u.uuidString]
        (.commitChanges user.uid (S.downloadURL u.uuidString))

/-- The kinds of request an operation waits for. -/
theorem Waiting.kinds {W : Option User → Prop} {call : Call} {history : List Event} {r : Req}
    (h : Waiting S W call history r) :
    (r = SociallyApp.upload call ∧ history = []) ∨ (∃ name, r = .downloadURL name) ∨
      (∃ fields, r = .addDocument ["Posts"] fields) ∨ ∃ uid url, r = .commitChanges uid url := by
  cases h with
  | upload => exact .inl ⟨rfl, rfl⟩
  | lookup => exact .inr (.inl ⟨_, rfl⟩)
  | publish => exact .inr (.inr (.inl ⟨_, rfl⟩))
  | imageURL => exact .inr (.inl ⟨_, rfl⟩)
  | commit user hW => exact .inr (.inr (.inr ⟨_, _, rfl⟩))

/-- `uploadProfileImage` reads the signed-in user when it has the URL; nothing else
reads it. -/
def Reading (S : StorageService) : Call → List Event → Prop
  | .uploadProfileImage u data, history =>
      history = [ok (upload (.uploadProfileImage u data)) none, found S u.uuidString]
  | _, _ => False

/-- The contract of a call. -/
def contract (S : StorageService) (W : Option User → Prop) (call : Call) :
    Lib.Contract Req Ans Choice Out :=
  ⟨Waiting S W call, fun _ _ => True, Reading S call⟩

/-- **The calls keep their contracts.** -/
theorem meets_code (S : StorageService) (W : Option User → Prop) (call : Call) :
    call.code.Meets (Firebase.Answers S) W (contract S W call) [] := by
  cases call with
  | addData u description date data =>
      refine ⟨.upload, fun choice a ha => ?_, trivial⟩
      rcases ha.putData with ⟨rfl, rfl⟩ | ⟨e, rfl, rfl⟩
      · refine ⟨.lookup, fun choice a ha => ?_, trivial⟩
        rcases ha.downloadURL with ⟨rfl, rfl⟩ | ⟨e, rfl, rfl⟩ | ⟨rfl, rfl⟩
        · exact ⟨.publish, fun _ _ _ => ⟨trivial, trivial⟩, trivial⟩
        · exact ⟨trivial, trivial⟩
        · exact ⟨trivial, trivial⟩
      · exact ⟨trivial, trivial⟩
  | uploadProfileImage u data =>
      refine ⟨.upload, fun choice a ha => ?_, trivial⟩
      rcases ha.putData with ⟨rfl, rfl⟩ | ⟨e, rfl, rfl⟩
      · refine ⟨.imageURL, fun choice a ha => ?_, trivial⟩
        rcases ha.downloadURL with ⟨rfl, rfl⟩ | ⟨e, rfl, rfl⟩ | ⟨rfl, rfl⟩
        · refine ⟨rfl, fun currentUser hW => ?_⟩
          cases currentUser with
          | none => trivial
          | some user =>
              refine ⟨.commit user hW, fun choice a _ => ?_, trivial⟩
              cases a with
              | none => exact ⟨trivial, trivial⟩
              | some e => trivial
        · trivial
        · trivial
      · trivial

/-! ## How `addData` ends -/

/-- An `addData` call that has come to its end: what it has had served, and the error that
it has reported. -/
inductive PostViewModel.Ends (S : StorageService) (u : UUID) (description : String) (date : Date)
    (data : Data) : List Event → Option NSError → Prop
  | notUploaded (e : NSError) :
      Ends S u description date data
        [⟨upload (.addData u description date data), .failure e, some e⟩] (some e)
  | noThumbnail (e : NSError) :
      Ends S u description date data
        [ok (upload (.addData u description date data)) none,
          ⟨.downloadURL (thumbPath u.uuidString), .failure e, (none, some e)⟩] (some e)
  | noURL :
      Ends S u description date data
        [ok (upload (.addData u description date data)) none,
          ⟨.downloadURL (thumbPath u.uuidString), .neither, (none, none)⟩] (some urlError)
  | notPublished (e : NSError) :
      Ends S u description date data
        [ok (upload (.addData u description date data)) none, found S (thumbPath u.uuidString),
          ⟨.addDocument ["Posts"]
            (newPost description date (S.downloadURL (thumbPath u.uuidString))),
            .failure e, some e⟩] (some e)
  | published (d : String) :
      Ends S u description date data
        [ok (upload (.addData u description date data)) none, found S (thumbPath u.uuidString),
          ⟨.addDocument ["Posts"]
            (newPost description date (S.downloadURL (thumbPath u.uuidString))),
            .documentID d, none⟩] none

/-- **An `addData` call that is over, or has reported, has ended in one of these ways.** -/
theorem PostViewModel.ends_addData {W : Option User → Prop} {u : UUID} {description : String}
    {date : Date} {data : Data} {history : List Event} {outs : List Out}
    {tasks : List (Task Req Ans (Option User) Out)}
    (h : (Call.addData u description date data).code.At (Firebase.Answers S) W history outs tasks)
    (hover : tasks = [] ∨ outs ≠ []) :
    ∃ error, outs = [.added error] ∧ tasks = [] ∧ Ends S u description date data history error := by
  obtain ⟨choice, a, rest, hans, rfl, hplace⟩ := h.request_over hover
  rcases hans.putData with ⟨rfl, rfl⟩ | ⟨e, rfl, rfl⟩
  · obtain ⟨choice, a, rest, hans, rfl, hfound⟩ := hplace.request_over hover
    rcases hans.downloadURL with ⟨rfl, rfl⟩ | ⟨e, rfl, rfl⟩ | ⟨rfl, rfl⟩
    · obtain ⟨choice, a, rest, hans, rfl, hreport⟩ := Lib.Code.At.request_over hfound hover
      obtain ⟨rfl, houts, htasks⟩ := hreport.call_done
      refine ⟨a, houts, htasks, ?_⟩
      rcases hans.addDocument with ⟨d, rfl, rfl⟩ | ⟨e, rfl, rfl⟩
      · exact .published d
      · exact .notPublished e
    · obtain ⟨rfl, houts, htasks⟩ := Lib.Code.At.call_done hfound
      exact ⟨some e, houts, htasks, .noThumbnail e⟩
    · obtain ⟨rfl, houts, htasks⟩ := Lib.Code.At.call_done hfound
      exact ⟨some urlError, houts, htasks, .noURL⟩
  · obtain ⟨rfl, houts, htasks⟩ := hplace.call_done
    exact ⟨some e, houts, htasks, .notUploaded e⟩

variable {i j : ℕ} {op : Op}

/-! ## Operations on their code -/

/-- The operations of a reachable world are on their code. -/
abbrev OnCode (S : StorageService) (W : Option User → Option User → Prop) (w : World) : Prop :=
  Lib.World.OnCode (host S) (Firebase.Answers S) W w

theorem onCode_step {W : Option User → Option User → Prop} (h : OnCode S W w)
    (hW : Lib.World.Sees (host S) W w action) (hs : step S w action = some w') :
    OnCode S W w' :=
  Lib.World.OnCode.step h (fun _ _ _ _ _ _ hr => by
    obtain ⟨firebase, hfb, -⟩ := serve_eq_some hr
    exact .of_serve hfb) hW hs

theorem onCode_step_any (h : OnCode S (fun _ _ => True) w) (hs : step S w action = some w') :
    OnCode S (fun _ _ => True) w' :=
  onCode_step h (Lib.World.sees_of_forall (fun _ _ => trivial) w action) hs

/-- The request an operation waits for, by its call. -/
theorem OnCode.waiting {W : Option User → Option User → Prop} (h : OnCode S W w) {r : Req}
    {callback : Ans r → Code} (hop : w.ops i = some op)
    (ht : Task.waiting r callback ∈ op.tasks) : Waiting S (W op.origin) op.call op.history r :=
  Lib.Code.At.waiting (K := contract S (W op.origin) op.call) (meets_code S _ _)
    (h i op hop op.call.linear_code) ht

/-- A served request of an operation, by its call. -/
theorem OnCode.served {W : Option User → Option User → Prop} (h : OnCode S W w)
    {before after : List Event} {e : Event} (hop : w.ops i = some op)
    (he : op.history = before ++ e :: after) :
    Waiting S (W op.origin) op.call before e.req ∧ Firebase.Answers S e.req e.choice e.ans :=
  Lib.Code.At.served (K := contract S (W op.origin) op.call) (meets_code S _ _)
    (h i op hop op.call.linear_code) he

/-- No variable is read when a call is made. -/
theorem saw_start {W : Option User → Prop} (device : Device) (call : Call) (env : Env) :
    (host S).Saw device W call.code env := by
  refine (meets_code S (fun _ => True) call).saw ?_ fun hread => ?_
  · intro env out
    cases out <;> rfl
  · cases call <;> cases hread

/-- A callback reads the signed-in user only after it has the URL of a profile image. -/
theorem OnCode.saw_ready {W : Option User → Prop} (h : OnCode S (fun _ _ => True) w) {code : Code}
    (hop : w.ops i = some op) (ht : op.tasks[j]? = some (.ready code))
    (hview : Reading S op.call op.history → W (w.env.firebase.currentUser op.client)) :
    (host S).Saw op.client W code w.env := by
  have hready := Lib.Code.At.ready (K := contract S (fun _ => True) op.call) (meets_code S _ _)
    (h i op hop op.call.linear_code) (List.mem_of_getElem? ht)
  refine hready.saw ?_ hview
  intro env out
  cases out <;> rfl

/-! ## UUIDs -/

/-- Every UUID belongs to one call. -/
abbrev OwnUUIDs : World → Prop :=
  Lib.World.Own (fun op => (some op.call.fileUUID = some ·)) Env.uuids

theorem uuids_subset (hs : step S w action = some w') : ∀ u ∈ w.env.uuids, u ∈ w'.env.uuids := by
  intro u hu
  rcases Lib.World.step_cases hs with ⟨i, device, call, env, rfl, hi, ha, rfl⟩ |
    ⟨i, j, choice, op, r, callback, env, a, rfl, hi, ht, hr, rfl⟩ |
    ⟨i, j, op, code, rfl, hi, ht, rfl⟩ | ⟨a, env, rfl, ha, rfl⟩
  · obtain ⟨-, hdraw⟩ := Option.ite_none_left_eq_some.mp ha
    obtain rfl := Option.some.inj hdraw
    rw [Lib.World.env_resume, (env_exec _ _ _).2]
    exact List.mem_cons_of_mem _ hu
  · obtain ⟨firebase, -, rfl⟩ := serve_eq_some hr
    exact hu
  · rwa [Lib.World.env_resume, (env_exec _ _ _).2]
  · cases a with
    | signIn device user => obtain rfl := Option.some.inj ha; exact hu
    | signOut device => obtain rfl := Option.some.inj ha; exact hu
    | thumbnail name =>
        obtain ⟨firebase, -, rfl⟩ := Option.map_eq_some_iff.mp ha
        exact hu

theorem OwnUUIDs.step (h : OwnUUIDs w) (hs : SociallyApp.step S w action = some w') :
    OwnUUIDs w' := by
  refine Lib.World.Own.step_call (fun call => some call.fileUUID) h hs (uuids_subset hs) ?_
  intro device call env u ha hu
  obtain rfl := Option.some.inj hu
  obtain ⟨hfresh, hdraw⟩ := Option.ite_none_left_eq_some.mp ha
  obtain rfl := Option.some.inj hdraw
  exact ⟨hfresh, by rw [(env_exec _ _ _).2]; exact List.mem_cons_self⟩

/-! ## Documents -/

/-- Every id of a new document was drawn by one call. -/
abbrev OwnDocuments : World → Prop :=
  Lib.World.Own (fun op p => ∃ e ∈ op.history, Firebase.newDocument? e = some p)
    fun env => env.firebase.firestore.used

/-- A step leaves the backend alone, or is one of the moves of the backend. -/
theorem firebase_step (hs : step S w action = some w') :
    w'.env.firebase = w.env.firebase ∨
    (∃ i choice op op' r callback a, w.ops i = some op ∧ Task.waiting r callback ∈ op.tasks ∧
      w.env.firebase.serve S op.client r choice = some (w'.env.firebase, a) ∧
      w'.ops i = some op' ∧ op'.call = op.call ∧ op'.history = op.history ++ [⟨r, choice, a⟩]) ∨
    (∃ device user, w'.env.firebase = w.env.firebase.signedIn device user) ∨
    ∃ name, w.env.firebase.makeThumbnail S name = some w'.env.firebase := by
  rcases Lib.World.step_cases hs with ⟨i, device, call, env, rfl, hi, ha, rfl⟩ |
    ⟨i, j, choice, op, r, callback, env, a, rfl, hi, ht, hr, rfl⟩ |
    ⟨i, j, op, code, rfl, hi, ht, rfl⟩ | ⟨a, env, rfl, ha, rfl⟩
  · obtain ⟨-, hdraw⟩ := Option.ite_none_left_eq_some.mp ha
    obtain rfl := Option.some.inj hdraw
    exact .inl (by rw [Lib.World.env_resume, (env_exec _ _ _).1])
  · obtain ⟨firebase, hfb, rfl⟩ := serve_eq_some hr
    exact .inr (.inl ⟨i, choice, op, _, r, callback, a, hi, List.mem_of_getElem? ht, hfb,
      Function.update_self i _ _, rfl, rfl⟩)
  · exact .inl (by rw [Lib.World.env_resume, (env_exec _ _ _).1])
  · cases a with
    | signIn device user =>
        obtain rfl := Option.some.inj ha
        exact .inr (.inr (.inl ⟨device, some user, rfl⟩))
    | signOut device =>
        obtain rfl := Option.some.inj ha
        exact .inr (.inr (.inl ⟨device, none, rfl⟩))
    | thumbnail name =>
        obtain ⟨firebase, hm, rfl⟩ := Option.map_eq_some_iff.mp ha
        exact .inr (.inr (.inr ⟨name, hm⟩))

theorem firestore_makeThumbnail {fb fb' : Firebase} {name : String}
    (h : fb.makeThumbnail S name = some fb') : fb'.firestore = fb.firestore := by
  obtain ⟨o, -, rfl⟩ := Option.map_eq_some_iff.mp h
  rfl

/-- Used paths stay used. -/
theorem used_subset (hs : step S w action = some w') :
    ∀ p ∈ w.env.firebase.firestore.used, p ∈ w'.env.firebase.firestore.used := by
  rcases firebase_step hs with heq | ⟨_, _, _, _, _, _, _, -, -, hfb, -⟩ | ⟨device, user, heq⟩ |
    ⟨name, hm⟩
  · rw [heq]
    exact fun p hp => hp
  · exact Firebase.used_serve hfb
  · rw [heq]
    exact fun p hp => hp
  · rw [firestore_makeThumbnail hm]
    exact fun p hp => hp

theorem OwnDocuments.step (h : OwnDocuments w) (hs : SociallyApp.step S w action = some w') :
    OwnDocuments w' := by
  refine Lib.World.Own.step_served Firebase.newDocument? h hs (used_subset hs) ?_
  intro device r choice env a p hr hp
  obtain ⟨firebase, hfb, rfl⟩ := serve_eq_some hr
  exact Firebase.newDocument?_serve hfb hp

/-- What is known of every operation of a run that starts when `uuids` are drawn. -/
structure Known (S : StorageService) (uuids : List UUID) (w : World) : Prop where
  code : OnCode S (fun _ _ => True) w
  own : OwnUUIDs w
  drawn : ∀ u ∈ uuids, u ∈ w.env.uuids
  fresh : ∀ i op, w.ops i = some op → op.call.fileUUID ∉ uuids
  ids : OwnDocuments w
  logged : Lib.World.Logged w
  accounted : Lib.World.Accounted w

theorem known_initial (S : StorageService) (fb : Firebase) (uuids : List UUID) :
    Known S uuids (initial fb uuids) where
  code := Lib.World.onCode_initial _
  own := Lib.World.own_initial _
  drawn u hu := hu
  fresh i op h := by cases h
  ids := Lib.World.own_initial _
  logged := Lib.World.logged_initial _
  accounted := Lib.World.accounted_initial _

theorem Known.step (h : Known S uuids w) (hs : SociallyApp.step S w action = some w') :
    Known S uuids w' where
  code := onCode_step_any h.code hs
  own := h.own.step hs
  drawn u hu := uuids_subset hs u (h.drawn u hu)
  fresh i op' hop' hu := by
    rcases Lib.World.op_of_step hs hop' with ⟨env, -, -, ha, -, -⟩ | ⟨op, hop, hfol⟩
    · exact (Option.ite_none_left_eq_some.mp ha).1 (h.drawn _ hu)
    · exact h.fresh i op hop (hfol.call ▸ hu)
  ids := h.ids.step hs
  logged := h.logged.step hs
  accounted := h.accounted.step hs

end FirebaseApps.SociallyApp
