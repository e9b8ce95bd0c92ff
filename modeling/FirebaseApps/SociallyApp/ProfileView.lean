import FirebaseApps.SociallyApp.PostView
import FirebaseApps.SociallyApp.ProfileImages

/-!
# SociallyApp: the last chosen profile picture

`ProfileView` loads each picture that is chosen and hands it to `uploadProfileImage` when
its load has ended.  Nothing orders or cancels the loads and the chains of requests that
follow.  The change request of a picture is sent when the URL of its image is delivered,
and the SDK carries the change requests of a user out in the order in which they were
sent: `FIRUser` has a serial task queue for them.  So the photo of the user is the picture
whose URL was delivered last, which need not be the one that was chosen last.
-/

namespace FirebaseApps.SociallyApp

/-- `ProfileView`. -/
structure ProfileView where
  data : Option Data := none
  selectedItem : List PhotosPickerItem := []
  /-- How many pictures have been chosen; their loads are numbered. -/
  picks : ℕ := 0
  /-- The loads that have not ended. -/
  loads : List ℕ := []
  deriving DecidableEq, Repr

namespace ProfileView

/-- `onChange(of: selectedItem)`: the selected item is loaded. -/
def onChange (view : ProfileView) : ProfileView :=
  match view.selectedItem.head? with
  | none => view
  | some _ => { view with picks := view.picks + 1, loads := view.loads ++ [view.picks] }

/-- The callback of `loadTransferable(type: Data.self)`: the screen, and the data that it hands
to `uploadProfileImage`. -/
def loaded (view : ProfileView) : Except NSError (Option Data) → ProfileView × Option Data
  | .ok (some data) => ({ view with data := some data }, some data)
  | .ok none | .error _ => (view, none)

end ProfileView

/-- `ProfileView` on one device, and the app with its operations; the one that uploads the
picture of a load has the number of the load. -/
structure Profile where
  view : ProfileView
  app : World

namespace Profile

/-- What happens. -/
inductive Act
  /-- The photo picker selects these items. -/
  | select (items : List PhotosPickerItem)
  /-- A load ends; `fileUUID` is the UUID that `uploadProfileImage` draws. -/
  | load (pick : ℕ) (result : Except NSError (Option Data)) (fileUUID : UUID)
  | serve (i j : ℕ) (choice : Choice)
  | deliver (i j : ℕ)

variable (S : StorageService) (device : Device)

/-- The operation that has had a change request of this user served, and its URL. -/
def commit? (uid : String) (entry : Entry) : Option (ℕ × String) :=
  match entry.event.req with
  | .commitChanges uid' photoURL => if uid' = uid then some (entry.op, photoURL) else none
  | _ => none

/-- The change requests of the user that have been carried out, oldest first. -/
def commits (uid : String) (w : World) : List (ℕ × String) := w.log.filterMap (commit? uid)

/-- The operation that has sent a change request of this user. -/
def change? (uid : String) (sent : Lib.Sent Call Req) : Option ℕ :=
  match sent.req with
  | .commitChanges uid' _ => if uid' = uid then some sent.op else none
  | _ => none

/-- The change requests in the order in which `_taskQueue` of the user was given them. -/
def enqueued (uid : String) (w : World) : List ℕ := w.sent.filterMap (change? uid)

/-- A change request is carried out when it is the next one of its queue; other requests do
not wait for each other. -/
def isNext (w : World) (i j : ℕ) : Bool :=
  match (w.ops i).bind (·.tasks[j]?) with
  | some (.waiting (.commitChanges uid _) _) =>
      (enqueued uid w)[(commits uid w).length]? = some i
  | _ => true

/-- One step.  The picker selects one item at most, and only a change of the selection is
noticed. -/
def step (profile : Profile) : Act → Option Profile
  | .select items =>
      if items.length ≤ 1 ∧ items ≠ profile.view.selectedItem then
        some { profile with view := { profile.view with selectedItem := items }.onChange }
      else none
  | .load pick result fileUUID =>
      if pick ∈ profile.view.loads then
        match { profile.view with loads := profile.view.loads.erase pick }.loaded result with
        | (view, some data) =>
            (SociallyApp.step S profile.app
              (.start pick device (.uploadProfileImage fileUUID data))).map fun app => ⟨view, app⟩
        | (view, none) => some { profile with view := view }
      else none
  | .serve i j choice =>
      if isNext profile.app i j then
        (SociallyApp.step S profile.app (.serve i j choice)).map
          fun app => { profile with app := app }
      else none
  | .deliver i j =>
      (SociallyApp.step S profile.app (.deliver i j)).map
        fun app => { profile with app := app }

/-- The user has signed in on the device and opens the screen. -/
def initial (firebase : Firebase) (uuids : List UUID) (user : User) : Profile :=
  ⟨{}, SociallyApp.initial (firebase.signedIn device (some user)) uuids⟩

/-- Everything has been answered. -/
def Over (profile : Profile) : Prop :=
  profile.view.loads = [] ∧ ∀ i op, profile.app.ops i = some op → op.tasks = []

/-- A load that ends gives data, and a request that is served succeeds. -/
def Act.succeeds : Act → Bool
  | .select _ | .load _ (.ok (some _)) _ | .serve _ _ .success | .deliver .. => true
  | .load .. | .serve .. => false

/-- The photo of the user is the picture that was chosen last. -/
def LastPictureWins (uid : String) (profile : Profile) : Prop :=
  ∀ pick, profile.view.picks = pick + 1 → ∃ op, profile.app.ops pick = some op ∧
    profile.app.env.firebase.photoURL uid = some (S.downloadURL op.call.fileUUID.uuidString)

/-- The number of answers that each upload has been given, and the uploads that have been
given their second one, the URL of their image, in this order. -/
def hear (heard : (ℕ → ℕ) × List ℕ) : Act → (ℕ → ℕ) × List ℕ
  | .deliver i _ =>
      (Function.update heard.1 i (heard.1 i + 1),
        if heard.1 i = 1 then heard.2 ++ [i] else heard.2)
  | _ => heard

/-- The uploads in the order in which their URLs were delivered. -/
def urlAnswers (acts : List Act) : List ℕ := (acts.foldl hear (fun _ => 0, [])).2

/-- The URL that was delivered last is that of the picture chosen last. -/
def InTurn (acts : List Act) (profile : Profile) : Prop :=
  ∀ pick ∈ (urlAnswers acts).getLast?, profile.view.picks = pick + 1

instance (acts : List Act) (profile : Profile) : Decidable (profile.InTurn acts) := by
  unfold InTurn
  infer_instance

/-! ## The uploads -/

variable {S device} {fb : Firebase} {uuids : List UUID} {user : User} {w w' : World}

/-- What happens to the app while pictures are chosen and everything succeeds. -/
inductive Uploading (device : Device) : Action → Prop
  | start (i : ℕ) (fileUUID : UUID) (data : Data) :
      Uploading device (.start i device (.uploadProfileImage fileUUID data))
  | serve (i j : ℕ) : Uploading device (.serve i j .success)
  | deliver (i j : ℕ) : Uploading device (.deliver i j)

/-- It leaves the backend alone, or carries out one request. -/
theorem Uploading.backend {action : Action} (h : Uploading device action)
    (hs : SociallyApp.step S w action = some w') :
    (w'.env.firebase = w.env.firebase ∧ w'.log = w.log) ∨
    ∃ i op r a, w.ops i = some op ∧
      w.env.firebase.serve S op.client r .success = some (w'.env.firebase, a) ∧
      w'.log = w.log ++ [⟨i, op.call, ⟨r, .success, a⟩⟩] := by
  rcases Lib.World.step_cases hs with ⟨i, client, call, env, rfl, hi, ha, rfl⟩ |
    ⟨i, j, choice, op, r, callback, env, a, rfl, hi, ht, hr, rfl⟩ |
    ⟨i, j, op, code, rfl, hi, ht, rfl⟩ | ⟨a, env, rfl, ha, rfl⟩
  · obtain ⟨-, hdraw⟩ := Option.ite_none_left_eq_some.mp ha
    obtain rfl := Option.some.inj hdraw
    exact .inl ⟨by rw [Lib.World.env_resume, (env_exec _ _ _).1], rfl⟩
  · obtain ⟨firebase, hfb, rfl⟩ := serve_eq_some hr
    cases h
    exact .inr ⟨i, op, r, a, hi, hfb, rfl⟩
  · exact .inl ⟨by rw [Lib.World.env_resume, (env_exec _ _ _).1], rfl⟩
  · cases h

/-- Pictures are chosen by one user who stays signed in, and all requests have succeeded. -/
structure Pictures (S : StorageService) (device : Device) (user : User) (uuids : List UUID)
    (w : World) : Prop where
  known : Known S uuids w
  code : OnCode S (fun _ seen => seen = some user) w
  signedIn : w.env.firebase.currentUser device = some user
  calls : ∀ i op, w.ops i = some op → op.client = device ∧ op.call.isProfileImage = true
  succeeded : ∀ entry ∈ w.log, entry.event.choice = .success
  /-- The photo is what the last change request made it. -/
  committed : ∀ commit ∈ (commits user.uid w).getLast?,
    w.env.firebase.photoURL user.uid = some commit.2

theorem pictures_initial (S : StorageService) (device : Device) (user : User) (fb : Firebase)
    (uuids : List UUID) :
    Pictures S device user uuids (SociallyApp.initial (fb.signedIn device (some user)) uuids) where
  known := known_initial S _ uuids
  code := Lib.World.onCode_initial _
  signedIn := Function.update_self device _ _
  calls i op h := by cases h
  succeeded entry h := by cases h
  committed commit h := by cases h

/-- One more request that was carried out. -/
theorem committed_serve {fb' : Firebase} {uid : String} {i : ℕ} {op : Op} {r : Req} {a : Ans r}
    {log : List Entry}
    (h : ∀ commit ∈ (log.filterMap (commit? uid)).getLast?, fb.photoURL uid = some commit.2)
    (hr : fb.serve S op.client r .success = some (fb', a)) :
    ∀ commit ∈
      ((log ++ [(⟨i, op.call, ⟨r, .success, a⟩⟩ : Entry)]).filterMap (commit? uid)).getLast?,
      fb'.photoURL uid = some commit.2 := by
  rw [Firebase.photoURL_serve hr, List.filterMap_append]
  cases r with
  | commitChanges uid' photoURL =>
      by_cases huid : uid' = uid
      · subst huid
        simp [commit?]
      · simpa [commit?, huid, Function.update_of_ne (Ne.symm huid)] using h
  | _ => simpa [commit?] using h

theorem Pictures.step {action : Action} (h : Pictures S device user uuids w)
    (ha : Uploading device action) (hs : SociallyApp.step S w action = some w') :
    Pictures S device user uuids w' where
  known := h.known.step hs
  code := by
    refine onCode_step h.code ?_ hs
    cases ha with
    | start i fileUUID data =>
        exact fun env _ => saw_start device (.uploadProfileImage fileUUID data) env
    | serve i j => trivial
    | deliver i j =>
        intro op code hop ht
        refine h.known.code.saw_ready hop ht fun _ => ?_
        rw [(h.calls i op hop).1]
        exact h.signedIn
  signedIn := by
    rcases ha.backend hs with ⟨heq, -⟩ | ⟨i, op, r, a, -, hr, -⟩
    · rw [heq]
      exact h.signedIn
    · rw [Firebase.currentUser_serve hr]
      exact h.signedIn
  calls i op' hop' := by
    rcases Lib.World.op_of_step hs hop' with ⟨env, hstart, -⟩ | ⟨op, hop, hfol⟩
    · cases ha with
      | start =>
          obtain ⟨-, rfl, hcall⟩ := Lib.Action.start.inj hstart
          exact ⟨rfl, hcall ▸ rfl⟩
      | serve | deliver => cases hstart
    · rw [hfol.client, hfol.call]
      exact h.calls i op hop
  succeeded entry hentry := by
    rcases ha.backend hs with ⟨-, heq⟩ | ⟨i, op, r, a, -, -, heq⟩
    · exact h.succeeded entry (heq ▸ hentry)
    · rw [heq, List.mem_append, List.mem_singleton] at hentry
      rcases hentry with hentry | rfl
      · exact h.succeeded entry hentry
      · rfl
  committed := by
    rcases ha.backend hs with ⟨hfb, heq⟩ | ⟨i, op, r, a, -, hr, heq⟩
    · rw [commits, heq, hfb]
      exact h.committed
    · rw [commits, heq]
      exact committed_serve h.committed hr

/-- A change request sets the URL of the picture of its operation. -/
theorem Pictures.commit_eq (h : Pictures S device user uuids w) {commit : ℕ × String}
    (hcommit : commit ∈ commits user.uid w) : ∃ op, w.ops commit.1 = some op ∧
      commit.2 = S.downloadURL op.call.fileUUID.uuidString := by
  obtain ⟨⟨i, call, ⟨r, choice, a⟩⟩, hentry, heq⟩ := List.mem_filterMap.mp hcommit
  obtain ⟨op, hop, rfl, he⟩ := h.known.logged.known i call _ hentry
  obtain ⟨before, after, hsplit⟩ := List.append_of_mem he
  refine ⟨op, ?_⟩
  have hwait := (h.code.served hop hsplit).1
  generalize op.call = call at hwait heq ⊢
  cases hwait with
  | commit user' hW =>
      obtain rfl : user' = user := Option.some.inj hW
      obtain rfl : (i, S.downloadURL _) = commit := by simpa [commit?] using heq
      exact ⟨hop, rfl⟩
  | upload => cases call <;> cases heq
  | _ => cases heq

/-- An upload that has ended, with all its requests carried out, has had its change request
carried out. -/
theorem finished_uploadProfileImage {fileUUID : UUID} {data : Data} {history : List Event}
    {outs : List Out}
    (h : (Call.uploadProfileImage fileUUID data).code.At (Firebase.Answers S)
      (fun seen => seen = some user) history outs [])
    (hsucceeded : ∀ e ∈ history, e.choice = .success) :
    ∃ e ∈ history, e.req = .commitChanges user.uid (S.downloadURL fileUUID.uuidString) := by
  obtain ⟨choice, a, rest, hans, rfl, huploaded⟩ := h.request_finished
  obtain rfl : choice = .success := hsucceeded _ List.mem_cons_self
  rcases hans.putData with ⟨-, rfl⟩ | ⟨e, hfailed, -⟩
  · obtain ⟨choice, a, rest, hans, rfl, hfound⟩ := huploaded.request_finished
    obtain rfl : choice = .success := hsucceeded _ (List.mem_cons_of_mem _ List.mem_cons_self)
    rcases hans.downloadURL with ⟨-, rfl⟩ | ⟨e, hfailed, -⟩ | ⟨hfailed, -⟩
    · obtain ⟨seen, rfl, hcommit⟩ := hfound
      obtain ⟨choice, a, rest, -, rfl, -⟩ := Lib.Code.At.request_finished hcommit
      exact ⟨_, List.mem_cons_of_mem _ (List.mem_cons_of_mem _ List.mem_cons_self), rfl⟩
    · cases hfailed
    · cases hfailed
  · cases hfailed

/-! ## The screen -/

/-- The pictures that have been chosen are being loaded or have been handed to
`uploadProfileImage`, and everything has succeeded. -/
structure Going (S : StorageService) (device : Device) (user : User) (uuids : List UUID)
    (profile : Profile) : Prop where
  pictures : Pictures S device user uuids profile.app
  chosen : ∀ pick ∈ profile.view.loads, pick < profile.view.picks
  numbered : ∀ i op, profile.app.ops i = some op → i < profile.view.picks
  uploaded : ∀ pick < profile.view.picks,
    pick ∈ profile.view.loads ∨ ∃ op, profile.app.ops pick = some op

variable {profile profile' : Profile}

/-- A step of the app alone. -/
theorem Going.app {action : Action} (h : Going S device user uuids profile)
    (ha : Uploading device action) (hstart : ∀ i client call, action ≠ .start i client call)
    (hs : SociallyApp.step S profile.app action = some w') :
    Going S device user uuids { profile with app := w' } where
  pictures := h.pictures.step ha hs
  chosen := h.chosen
  numbered i op' hop' := by
    rcases Lib.World.op_of_step hs hop' with ⟨env, heq, -⟩ | ⟨op, hop, -⟩
    · exact absurd heq (hstart i _ _)
    · exact h.numbered i op hop
  uploaded pick hpick := by
    rcases h.uploaded pick hpick with hload | ⟨op, hop⟩
    · exact .inl hload
    · obtain ⟨op', hop', -⟩ := Lib.World.step_op hs hop
      exact .inr ⟨op', hop'⟩

/-- The load of a picture ends, and its upload starts. -/
theorem Going.upload {pick : ℕ} {fileUUID : UUID} {data : Data}
    (h : Going S device user uuids profile) (hpick : pick ∈ profile.view.loads)
    (hs : SociallyApp.step S profile.app
      (.start pick device (.uploadProfileImage fileUUID data)) = some w') :
    Going S device user uuids
      ⟨{ profile.view with loads := profile.view.loads.erase pick, data := some data }, w'⟩ where
  pictures := h.pictures.step (.start pick fileUUID data) hs
  chosen p hp := h.chosen p (List.mem_of_mem_erase hp)
  numbered i op' hop' := by
    rcases Lib.World.op_of_step hs hop' with ⟨env, heq, -⟩ | ⟨op, hop, -⟩
    · obtain ⟨rfl, -, -⟩ := Lib.Action.start.inj heq
      exact h.chosen _ hpick
    · exact h.numbered i op hop
  uploaded p hp := by
    rcases h.uploaded p hp with hload | ⟨op, hop⟩
    · by_cases heq : p = pick
      · subst heq
        obtain ⟨env, -, rfl⟩ := Lib.World.step_start hs
        exact .inr ⟨_, Function.update_self p _ _⟩
      · exact .inl ((List.mem_erase_of_ne heq).mpr hload)
    · obtain ⟨op', hop', -⟩ := Lib.World.step_op hs hop
      exact .inr ⟨op', hop'⟩

theorem Going.step {act : Act} (h : Going S device user uuids profile) (hsucceeds : act.succeeds)
    (hs : profile.step S device act = some profile') : Going S device user uuids profile' := by
  cases act with
  | select items =>
      obtain ⟨-, heq⟩ := Option.ite_none_right_eq_some.mp hs
      obtain rfl := Option.some.inj heq
      unfold ProfileView.onChange
      split
      · exact ⟨h.pictures, h.chosen, h.numbered, h.uploaded⟩
      · refine ⟨h.pictures, fun pick hpick => ?_, fun i op hop => ?_, fun pick hpick => ?_⟩
        · rcases List.mem_append.mp hpick with hpick | hpick
          · exact Nat.lt_succ_of_lt (h.chosen pick hpick)
          · obtain rfl := List.mem_singleton.mp hpick
            exact Nat.lt_succ_self _
        · exact Nat.lt_succ_of_lt (h.numbered i op hop)
        · rcases Nat.lt_succ_iff_lt_or_eq.mp hpick with hlt | rfl
          · exact (h.uploaded pick hlt).imp_left (List.mem_append_left _)
          · exact .inl (List.mem_append_right _ List.mem_cons_self)
  | load pick result fileUUID =>
      obtain ⟨hpick, heq⟩ := Option.ite_none_right_eq_some.mp hs
      rcases result with _ | _ | data
      · cases hsucceeds
      · cases hsucceeds
      · obtain ⟨app, happ, rfl⟩ := Option.map_eq_some_iff.mp heq
        exact h.upload hpick happ
  | serve i j choice =>
      obtain rfl : choice = .success := by
        cases choice <;> first | rfl | cases hsucceeds
      obtain ⟨-, heq⟩ := Option.ite_none_right_eq_some.mp hs
      obtain ⟨app, happ, rfl⟩ := Option.map_eq_some_iff.mp heq
      exact h.app (.serve i j) (fun _ _ _ heq => by cases heq) happ
  | deliver i j =>
      obtain ⟨app, happ, rfl⟩ := Option.map_eq_some_iff.mp hs
      exact h.app (.deliver i j) (fun _ _ _ heq => by cases heq) happ

theorem going_initial (S : StorageService) (device : Device) (user : User) (fb : Firebase)
    (uuids : List UUID) : Going S device user uuids (initial device fb uuids user) where
  pictures := pictures_initial S device user fb uuids
  chosen pick h := by cases h
  numbered i op h := by cases h
  uploaded pick h := absurd h (Nat.not_lt_zero pick)

/-! ## The task queue -/

/-- The change requests are enqueued as the URLs are delivered, and carried out in this
order. -/
structure Queued (user : User) (profile : Profile) (heard : (ℕ → ℕ) × List ℕ) : Prop where
  delivered : profile.app.Delivered heard.1
  enqueued_eq : enqueued user.uid profile.app = heard.2
  nodup : heard.2.Nodup
  late : ∀ i ∈ heard.2, 2 ≤ heard.1 i
  carriedOut : (commits user.uid profile.app).map Prod.fst <+: heard.2

theorem queued_initial (device : Device) (user : User) (fb : Firebase) (uuids : List UUID) :
    Queued user (initial device fb uuids user) (fun _ => 0, []) where
  delivered := Lib.World.delivered_initial _
  enqueued_eq := rfl
  nodup := .nil
  late i h := by cases h
  carriedOut := List.prefix_rfl

/-- The change requests through a step of the app that no answer is delivered in. -/
theorem enqueued_of_sent {uid : String} {reqs : List (Lib.Sent Call Req)}
    (hsent : w'.sent = w.sent ++ reqs) (hreqs : reqs.filterMap (change? uid) = []) :
    enqueued uid w' = enqueued uid w := by
  rw [enqueued, hsent, List.filterMap_append, hreqs, List.append_nil, enqueued]

theorem Queued.load {heard : (ℕ → ℕ) × List ℕ} {pick : ℕ} {fileUUID : UUID} {data : Data}
    {view : ProfileView} (h : Queued user profile heard)
    (hs : SociallyApp.step S profile.app
      (.start pick device (.uploadProfileImage fileUUID data)) = some w') :
    Queued user ⟨view, w'⟩ heard := by
  have hdelivered := h.delivered.step hs
  obtain ⟨env, -, rfl⟩ := Lib.World.step_start hs
  exact ⟨hdelivered, (enqueued_of_sent rfl rfl).trans h.enqueued_eq, h.nodup, h.late, h.carriedOut⟩

/-- A queue goes on with its next member. -/
theorem prefix_append_next {α : Type} {done queue : List α} {a : α} (h : done <+: queue)
    (ha : queue[done.length]? = some a) : done ++ [a] <+: queue := by
  obtain ⟨rest, rfl⟩ := h
  rw [List.getElem?_append_right le_rfl, Nat.sub_self] at ha
  cases rest with
  | nil => cases ha
  | cons b rest =>
      obtain rfl := Option.some.inj ha
      exact ⟨rest, by simp⟩

theorem Queued.serve {heard : (ℕ → ℕ) × List ℕ} {i j : ℕ} {choice : Choice}
    (h : Queued user profile heard) (hnext : isNext profile.app i j)
    (hs : SociallyApp.step S profile.app (.serve i j choice) = some w') :
    Queued user { profile with app := w' } heard := by
  refine ⟨h.delivered.step hs, ?_, h.nodup, h.late, ?_⟩
  all_goals
    rcases Lib.World.step_cases hs with ⟨_, _, _, _, heq, -⟩ |
      ⟨_, _, _, op, r, callback, env, a, heq, hi, ht, -, rfl⟩ |
      ⟨_, _, _, _, heq, -⟩ | ⟨_, _, heq, -⟩
    all_goals cases heq
  · exact h.enqueued_eq
  · simp only [commits, Lib.World.log_answer, List.filterMap_append, List.map_append]
    cases hcommit : commit? user.uid ⟨i, op.call, ⟨r, choice, a⟩⟩ with
    | none => simpa [List.filterMap_cons_none hcommit, commits] using h.carriedOut
    | some commit =>
        rw [List.filterMap_cons_some hcommit, List.filterMap_nil, List.map_singleton]
        -- the request is the next one of the queue
        have hqueue : heard.2[(commits user.uid profile.app).length]? = some commit.1 := by
          unfold commit? at hcommit
          split at hcommit
          next uid photoURL hr =>
            dsimp only at hr
            subst hr
            obtain ⟨rfl, heq⟩ := Option.ite_none_right_eq_some.mp hcommit
            obtain rfl := Option.some.inj heq
            rw [← h.enqueued_eq]
            simpa [isNext, hi, ht] using hnext
          next => cases hcommit
        exact prefix_append_next h.carriedOut (by simpa [commits] using hqueue)

/-- Answers are only counted up. -/
theorem le_hear (heard : (ℕ → ℕ) × List ℕ) (i j k : ℕ) :
    heard.1 k ≤ (hear heard (.deliver i j)).1 k := by
  by_cases hki : k = i
  · subst hki
    simp [hear]
  · simp [hear, hki]

/-- **What a delivery enqueues**: the change request of its upload, when the answer is the
second one of this. -/
theorem Going.enqueued_deliver {d : ℕ → ℕ} {i j : ℕ} (h : Going S device user uuids profile)
    (hdelivered : profile.app.Delivered d)
    (hs : SociallyApp.step S profile.app (.deliver i j) = some w') :
    enqueued user.uid w' = enqueued user.uid profile.app ++ if d i = 1 then [i] else [] := by
  rcases Lib.World.step_cases hs with ⟨_, _, _, _, heq, -⟩ | ⟨_, _, _, _, _, _, _, _, heq, -⟩ |
    ⟨_, _, op, code, heq, hi, ht, rfl⟩ | ⟨_, _, heq, -⟩
  all_goals cases heq
  have hsent : enqueued user.uid (profile.app.resume (host S) i
      { op with tasks := op.tasks.eraseIdx j } profile.app.env code) =
        enqueued user.uid profile.app ++
          (((host S).exec op.client code profile.app.env).requests.map
            fun r => (⟨i, op.call, r⟩ : Lib.Sent Call Req)).filterMap (change? user.uid) :=
    List.filterMap_append
  rw [hsent]
  congr 1
  have hplace := h.pictures.code i op hi op.call.linear_code
  have hsucceeded : ∀ e ∈ op.history, e.choice = .success := fun e he =>
    h.pictures.succeeded _ (h.pictures.known.logged.served i op e hi he)
  have hsigned : profile.app.env.firebase.currentUser op.client = some user := by
    rw [(h.pictures.calls i op hi).1]
    exact h.pictures.signedIn
  have hprofile := (h.pictures.calls i op hi).2
  have hcount := hdelivered i
  simp only [hi] at hcount
  obtain ⟨client, call, origin, history, outs, tasks⟩ := op
  cases call with
  | addData => cases hprofile
  | uploadProfileImage fileUUID data =>
      obtain ⟨rfl, hrequests⟩ :=
        ready_uploadProfileImage hplace hsucceeded (List.mem_of_getElem? ht)
      -- this is the one answer that is not yet delivered
      have hone : d i + 1 = history.length := hcount
      rcases hrequests with ⟨htwo, hrequests⟩ | ⟨hother, hnone⟩
      · have hfirst : d i = 1 := Nat.succ.inj (hone.trans htwo)
        rw [if_pos hfirst, hrequests _ _ _ hsigned]
        simp [change?]
      · have hfirst : d i ≠ 1 := fun heq => hother (by rw [← hone, heq])
        rw [if_neg hfirst, List.filterMap_eq_nil_iff]
        intro sent hmem
        obtain ⟨r, hr, rfl⟩ := List.mem_map.mp hmem
        cases r with
        | commitChanges uid photoURL => exact absurd hr (hnone _ _ uid photoURL)
        | _ => rfl

/-- An answer is delivered. -/
theorem Queued.deliver {heard : (ℕ → ℕ) × List ℕ} {i j : ℕ} (h : Queued user profile heard)
    (hgoing : Going S device user uuids profile)
    (hs : SociallyApp.step S profile.app (.deliver i j) = some w') :
    Queued user { profile with app := w' } (hear heard (.deliver i j)) := by
  have henqueued := hgoing.enqueued_deliver h.delivered hs
  rw [h.enqueued_eq] at henqueued
  have hcommits : commits user.uid w' = commits user.uid profile.app := by
    rcases Lib.World.step_cases hs with ⟨_, _, _, _, heq, -⟩ | ⟨_, _, _, _, _, _, _, _, heq, -⟩ |
      ⟨_, _, _, _, _, _, _, rfl⟩ | ⟨_, _, heq, -⟩
    on_goal 3 => rfl
    all_goals cases heq
  have hcarriedOut := h.carriedOut
  rw [← hcommits] at hcarriedOut
  by_cases hfirst : heard.1 i = 1
  · have hqueue : (hear heard (.deliver i j)).2 = heard.2 ++ [i] := if_pos hfirst
    have hnew : i ∉ heard.2 := fun hmem => by
      have hlate := h.late i hmem
      omega
    refine ⟨h.delivered.step hs, ?_, ?_, fun k hk => ?_, ?_⟩
    · rw [hqueue, henqueued, if_pos hfirst]
    · rw [hqueue, ← List.concat_eq_append]
      exact h.nodup.concat hnew
    · rw [hqueue, List.mem_append, List.mem_singleton] at hk
      rcases hk with hk | rfl
      · exact (h.late k hk).trans (le_hear heard i j k)
      · simp [hear, hfirst]
    · rw [hqueue]
      exact hcarriedOut.trans (List.prefix_append _ _)
  · have hqueue : (hear heard (.deliver i j)).2 = heard.2 := if_neg hfirst
    refine ⟨h.delivered.step hs, ?_, hqueue ▸ h.nodup, fun k hk => ?_, hqueue ▸ hcarriedOut⟩
    · rw [hqueue, henqueued, if_neg hfirst, List.append_nil]
    · exact (h.late k (hqueue ▸ hk)).trans (le_hear heard i j k)

theorem Queued.step {heard : (ℕ → ℕ) × List ℕ} {act : Act} (h : Queued user profile heard)
    (hgoing : Going S device user uuids profile) (hsucceeds : act.succeeds)
    (hs : profile.step S device act = some profile') :
    Queued user profile' (hear heard act) := by
  cases act with
  | select items =>
      obtain ⟨-, heq⟩ := Option.ite_none_right_eq_some.mp hs
      obtain rfl := Option.some.inj heq
      exact ⟨h.delivered, h.enqueued_eq, h.nodup, h.late, h.carriedOut⟩
  | load pick result fileUUID =>
      obtain ⟨hpick, heq⟩ := Option.ite_none_right_eq_some.mp hs
      rcases result with _ | _ | data
      · cases hsucceeds
      · cases hsucceeds
      · obtain ⟨app, happ, rfl⟩ := Option.map_eq_some_iff.mp heq
        exact h.load happ
  | serve i j choice =>
      obtain ⟨hnext, heq⟩ := Option.ite_none_right_eq_some.mp hs
      obtain ⟨app, happ, rfl⟩ := Option.map_eq_some_iff.mp heq
      exact h.serve hnext happ
  | deliver i j =>
      obtain ⟨app, happ, rfl⟩ := Option.map_eq_some_iff.mp hs
      exact h.deliver hgoing happ

/-- When nothing is pending, the change requests have been carried out as the URLs were
delivered. -/
theorem Queued.commits_eq {heard : (ℕ → ℕ) × List ℕ} (h : Queued user profile heard)
    (hgoing : Going S device user uuids profile) (hover : profile.Over) :
    (commits user.uid profile.app).map Prod.fst = heard.2 := by
  obtain ⟨rest, hrest⟩ := h.carriedOut
  cases rest with
  | nil => rw [← hrest, List.append_nil]
  | cons i rest =>
      -- a change request that has not been carried out would still be pending
      have hmem : i ∈ enqueued user.uid profile.app := by
        rw [h.enqueued_eq, ← hrest]
        simp
      obtain ⟨sent, hsent, hchange⟩ := List.mem_filterMap.mp hmem
      unfold change? at hchange
      split at hchange
      next uid photoURL hreq =>
        obtain ⟨rfl, heq⟩ := Option.ite_none_right_eq_some.mp hchange
        obtain rfl := Option.some.inj heq
        obtain ⟨op, hop, -, ⟨callback, hwait⟩ | ⟨e, he, heq⟩⟩ :=
          hgoing.pictures.known.accounted sent hsent
        · rw [hover.2 _ op hop] at hwait
          cases hwait
        · have hserved := hgoing.pictures.known.logged.served _ op e hop he
          have hcommit : (sent.op, photoURL) ∈ commits user.uid profile.app :=
            List.mem_filterMap.mpr ⟨_, hserved, by simp [commit?, heq.trans hreq]⟩
          have hdisjoint := (List.nodup_append.mp (hrest ▸ h.nodup)).2.2
          exact absurd rfl (hdisjoint sent.op (List.mem_map_of_mem hcommit) sent.op
            List.mem_cons_self)
      next => cases hchange

/-- Everything of a run: what goes on, and the task queue. -/
theorem going_of_run (S : StorageService) (device : Device) (fb : Firebase) (uuids : List UUID)
    (user : User) (acts : List Act)
    (hrun : Lib.run (step S device) (initial device fb uuids user) acts = some profile)
    (hsucceed : ∀ act ∈ acts, act.succeeds) : Going S device user uuids profile ∧
      Queued user profile (acts.foldl hear (fun _ => 0, [])) :=
  Lib.run_simulates_of_mem
    (R := fun profile heard => Going S device user uuids profile ∧ Queued user profile heard)
    (fun _ _ act hact _ h hs =>
      ⟨h.1.step (hsucceed act hact) hs, h.2.step h.1 (hsucceed act hact) hs⟩)
    ⟨going_initial S device user fb uuids, queued_initial device user fb uuids⟩ hrun

/-! ## The last picture -/

/-- The last change request, when a picture has been chosen and everything has ended. -/
theorem Going.exists_commit (h : Going S device user uuids profile) (hover : profile.Over)
    {pick : ℕ} (hpick : pick < profile.view.picks) :
    ∃ op commit, profile.app.ops pick = some op ∧
      (commits user.uid profile.app).getLast? = some commit := by
  rcases h.uploaded pick hpick with hload | ⟨op, hop⟩
  · rw [hover.1] at hload
    cases hload
  · obtain ⟨client, call, origin, history, outs, tasks⟩ := op
    obtain rfl : tasks = [] := hover.2 pick _ hop
    cases call with
    | addData => exact absurd (h.pictures.calls pick _ hop).2 Bool.false_ne_true
    | uploadProfileImage fileUUID data =>
        have hplace := h.pictures.code pick _ hop
          (Call.linear_code (.uploadProfileImage fileUUID data))
        obtain ⟨e, he, hreq⟩ := finished_uploadProfileImage hplace fun e he =>
          h.pictures.succeeded _ (h.pictures.known.logged.served pick _ e hop he)
        have hcommit : commit? user.uid ⟨pick, .uploadProfileImage fileUUID data, e⟩ =
            some (pick, S.downloadURL fileUUID.uuidString) := by
          simp [commit?, hreq]
        have hmem := List.mem_filterMap.mpr
          ⟨_, h.pictures.known.logged.served pick _ e hop he, hcommit⟩
        obtain ⟨commit, hlast⟩ := Option.isSome_iff_exists.mp
          (List.getLast?_isSome.mpr (List.ne_nil_of_mem hmem))
        exact ⟨_, commit, hop, hlast⟩

/-- Then the photo is the picture chosen last if and only if that request was its own. -/
theorem Going.wins_iff_last (h : Going S device user uuids profile) (hover : profile.Over) :
    profile.LastPictureWins S user.uid ↔
      ∀ commit ∈ (commits user.uid profile.app).getLast?, profile.view.picks = commit.1 + 1 := by
  constructor
  · intro hwins commit hcommit
    obtain ⟨op, hop, hurl⟩ := h.pictures.commit_eq (List.mem_of_getLast? hcommit)
    have hlt := h.numbered _ op hop
    obtain ⟨last, hlast⟩ := Nat.exists_eq_add_one_of_ne_zero (Nat.ne_zero_of_lt hlt)
    obtain ⟨op', hop', hphoto⟩ := hwins last hlast
    -- both operations uploaded the object that the photo is
    rw [h.pictures.committed commit hcommit, hurl] at hphoto
    have huuid := UUID.ext_uuidString (S.downloadURL_injective (Option.some.inj hphoto))
    rw [h.pictures.known.own.inj commit.1 last op op' _ hop hop' rfl (congrArg some huuid.symm)]
    exact hlast
  · intro hturn pick hpick
    obtain ⟨op, commit, hop, hcommit⟩ := h.exists_commit hover (hpick ▸ Nat.lt_add_one pick)
    have heq : commit.1 = pick := Nat.succ.inj ((hturn commit hcommit).symm.trans hpick)
    obtain ⟨op', hop', hurl⟩ := h.pictures.commit_eq (List.mem_of_getLast? hcommit)
    rw [heq] at hop'
    obtain rfl : op = op' := Option.some.inj (hop.symm.trans hop')
    exact ⟨op, hop, by rw [h.pictures.committed commit hcommit, hurl]⟩

/-- Only the uploads of chosen pictures have to be over. -/
theorem Going.over_of_loads (h : Going S device user uuids profile)
    (hloads : profile.view.loads = [])
    (htasks : ∀ pick < profile.view.picks, ∀ op ∈ profile.app.ops pick, op.tasks = []) :
    profile.Over :=
  ⟨hloads, fun i op hop => htasks i (h.numbered i op hop) op hop⟩

/-- **The last chosen picture wins**, once all loads and requests have ended well, if and only
if its URL was delivered last. -/
theorem lastPictureWins_iff (S : StorageService) (device : Device) (fb : Firebase)
    (uuids : List UUID) (user : User) (acts : List Act) (profile : Profile)
    (hrun : Lib.run (step S device) (initial device fb uuids user) acts = some profile)
    (hsucceed : ∀ act ∈ acts, act.succeeds) (hover : profile.Over) :
    profile.LastPictureWins S user.uid ↔ profile.InTurn acts := by
  obtain ⟨hgoing, hqueued⟩ := going_of_run S device fb uuids user acts hrun hsucceed
  rw [hgoing.wins_iff_last hover, InTurn, urlAnswers, ← hqueued.commits_eq hgoing hover,
    List.getLast?_map]
  simp

/-- Two pictures are chosen and loaded; then their uploads go on in this order. -/
def choose (order : List ℕ) : List Act :=
  [.select [7], .select [8], .load 0 (.ok (some [0])) .sample,
    .load 1 (.ok (some [1])) ⟨"C5E1", by decide⟩] ++
    order.flatMap fun i => [.serve i 0 .success, .deliver i 0]

/-- Where the URLs are delivered in turn, the picture chosen last wins. -/
theorem lastPictureWins_inTurn : ∃ profile,
    Lib.run (step .plain 0) (initial 0 .empty [] ada) (choose [0, 1, 0, 1, 0, 1]) = some profile ∧
      profile.LastPictureWins .plain ada.uid := by
  refine ⟨_, rfl, ?_⟩
  refine (lastPictureWins_iff .plain 0 .empty [] ada (choose [0, 1, 0, 1, 0, 1]) _ rfl ?_ ?_).mpr ?_
  · decide
  · have hgoing := (going_of_run .plain 0 .empty [] ada (choose [0, 1, 0, 1, 0, 1]) rfl
      (by decide)).1
    exact hgoing.over_of_loads rfl (by decide)
  · decide

/-- An earlier picture wins: the URL of the other one overtakes its own. -/
theorem earlierPictureWins : ¬ ∀ (S : StorageService) (device : Device) (fb : Firebase)
    (uuids : List UUID) (user : User) (acts : List Act) (profile : Profile),
    Lib.run (step S device) (initial device fb uuids user) acts = some profile →
    (∀ act ∈ acts, act.succeeds) → profile.Over → profile.LastPictureWins S user.uid := by
  intro h
  have hrun : ∃ profile,
      Lib.run (step .plain 0) (initial 0 .empty [] ada) (choose [0, 1, 1, 0, 1, 0]) = some profile ∧
        profile.Over ∧ ∃ commit ∈ (commits ada.uid profile.app).getLast?,
          profile.view.picks ≠ commit.1 + 1 := by
    refine ⟨_, rfl, ?_, _, rfl, ?_⟩
    · have hgoing := (going_of_run .plain 0 .empty [] ada (choose [0, 1, 1, 0, 1, 0]) rfl
        (by decide)).1
      exact hgoing.over_of_loads rfl (by decide)
    · decide
  obtain ⟨profile, hrun, hover, commit, hcommit, hne⟩ := hrun
  obtain ⟨hgoing, -⟩ := going_of_run .plain 0 .empty [] ada _ hrun (by decide)
  exact hne ((hgoing.wins_iff_last hover).mp (h .plain 0 .empty [] ada _ profile hrun
    (by decide) hover) commit hcommit)

end Profile
end FirebaseApps.SociallyApp
