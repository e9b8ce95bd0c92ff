import FirebaseApps.Lib.Fresh
import FirebaseApps.Lib.Places
import FirebaseApps.NoteApp.Accounts

/-!
# NoteApp: does every account have its profile?

`signUp` creates the account first and writes its profile then.  When the second write
fails nothing takes the account back, and no later `signIn` repairs it, so an account has
its profile in the end exactly if the write has succeeded, or the document was there
already (`profilesKept_iff`).
-/

namespace FirebaseApps.NoteApp

variable {S : StorageService} {w w' : World} {action : Action} {fb : Firebase}

/-! ## Profiles -/

/-- `Users/<uid>` holds exactly the e-mail address and the uid. -/
def Profile (firestore : Firestore) (emailAddress uid : String) : Prop :=
  firestore.get ["Users", uid] =
    some (Document.empty.merge (AuthViewModel.profile emailAddress uid))

/-- The answer of `createUser` with the new account. -/
def created (emailAddress password : String) (user : User) : Lib.Event Req Ans Choice :=
  ⟨.createUser emailAddress password, .account user, (some user, none)⟩

/-- The request that writes the profile. -/
def profileRequest (emailAddress uid : String) : Req :=
  .setData ["Users", uid] (AuthViewModel.profile emailAddress uid) false

/-- A `signUp` call has had this account created. -/
def Created (w : World) (i : ℕ) (emailAddress : String) (user : User) : Prop :=
  ∃ password, ⟨i, .signUp emailAddress password, created emailAddress password user⟩ ∈ w.log

/-- A `signUp` call has had its profile write settled in this way. -/
def Wrote (w : World) (i : ℕ) (emailAddress uid : String) (choice : Choice) : Prop :=
  ∃ password a,
    ⟨i, .signUp emailAddress password, ⟨profileRequest emailAddress uid, choice, a⟩⟩ ∈ w.log

/-- Every account that a `signUp` call has created has its profile. -/
def ProfilesKept (w : World) : Prop :=
  ∀ i emailAddress user, Created w i emailAddress user →
    user.email = some emailAddress ∧ Profile w.env.firebase.firestore emailAddress user.uid

/-- A profile write that failed was of a document that had been there since the start. -/
def ProfilesWritten (fb : Firebase) (w : World) : Prop :=
  ∀ i emailAddress uid e, Wrote w i emailAddress uid (.failure e) →
    Profile fb.firestore emailAddress uid

/-! ## Sign-ups -/

/-- How far a `signUp` call has come. -/
inductive SignUp (S : StorageService) (emailAddress password : String) :
    List (Lib.Event Req Ans Choice) → List (Lib.Task Req Ans View Out) → Prop
  | sent {tasks} (h : tasks ≠ []) : SignUp S emailAddress password [] tasks
  | refused (e : NSError) {tasks} :
      SignUp S emailAddress password
        [⟨.createUser emailAddress password, .failure e, (none, some e)⟩] tasks
  | created {user : User} (hemail : user.email = some emailAddress) {tasks} (h : tasks ≠ []) :
      SignUp S emailAddress password [created emailAddress password user] tasks
  | written {user : User} (hemail : user.email = some emailAddress) {choice : Choice}
      {a : Option NSError}
      (ha : Firebase.Answers S (profileRequest emailAddress user.uid) choice a) {tasks} :
      SignUp S emailAddress password
        [created emailAddress password user, ⟨profileRequest emailAddress user.uid, choice, a⟩]
        tasks

theorem linear_signUp (emailAddress password : String) :
    (Call.signUp emailAddress password).code.Linear := by
  refine ⟨fun answer => ?_, rfl⟩
  obtain ⟨_ | user, _ | e⟩ := answer
  · trivial
  · trivial
  · exact ⟨fun _ => trivial, rfl⟩
  · trivial

/-- A `signUp` call is at one of these places. -/
theorem signUp_of_at {emailAddress password : String} {W : View → Prop}
    {history : List (Lib.Event Req Ans Choice)} {outs : List Out}
    {tasks : List (Lib.Task Req Ans View Out)}
    (h : (Call.signUp emailAddress password).code.At (Firebase.Answers S) W history outs tasks) :
    SignUp S emailAddress password history tasks := by
  rcases h with ⟨rfl, -, rfl⟩ | ⟨choice, a, ha, hplace⟩
  · exact .sent (List.cons_ne_nil _ _)
  · rcases ha.createUser with ⟨user, hemail, rfl, rfl⟩ | ⟨e, rfl, rfl⟩
    · rcases hplace with ⟨rfl, -, rfl⟩ | ⟨history', rfl, hplace⟩
      · exact .created hemail (List.cons_ne_nil _ _)
      · rcases hplace with ⟨rfl, -, rfl⟩ | ⟨choice, a, ha, ⟨rfl, -, -⟩ | ⟨history', rfl, rfl, -, -⟩⟩
        · exact .created hemail (List.cons_ne_nil _ _)
        · exact .written hemail ha
        · exact .written hemail ha
    · rcases hplace with ⟨rfl, -, rfl⟩ | ⟨history', rfl, rfl, -, -⟩
      · exact .refused e
      · exact .refused e

/-- No call of a `NoteViewModel` is made. -/
def isAuth : Action → Bool
  | .start _ _ call => !call.isNote
  | .serve .. | .deliver .. | .act _ => true

/-- What is known of the operations of a run without note calls. -/
structure SignUps (S : StorageService) (w : World) : Prop where
  code : Lib.World.OnCode (host S) (Firebase.Answers S) (fun _ _ => True) w
  asked : Lib.World.Asked Asks w
  logged : Lib.World.Logged w
  auth : ∀ i op, w.ops i = some op → op.call.isNote = false
  /-- Every account was created by one call. -/
  own : Lib.World.Own (fun op uid => ∃ e ∈ op.history, Firebase.newAccount? e = some uid)
    (fun env => env.firebase.accounts.map User.uid) w

theorem signUps_initial (S : StorageService) (fb : Firebase) : SignUps S (initial fb) where
  code := Lib.World.onCode_initial _
  asked := Lib.World.asked_initial _
  logged := Lib.World.logged_initial _
  auth i op h := by cases h
  own := Lib.World.own_initial _

/-- Moves do not touch the accounts. -/
theorem Move.accounts {env env' : Env} (h : Move env env') :
    env'.firebase.accounts = env.firebase.accounts := by
  cases h with
  | load hlive => simp
  | _ => rfl

/-- Accounts stay. -/
theorem accounts_subset (hasked : Lib.World.Asked Asks w) (hs : step S w action = some w') :
    ∀ uid ∈ w.env.firebase.accounts.map User.uid, uid ∈ w'.env.firebase.accounts.map User.uid := by
  rcases env_step hasked hs with ⟨i, j, choice, op, r, a, firebase, -, hserved⟩ | ⟨-, hmoves, -⟩
  · rw [hserved.env_eq]
    intro uid huid
    rw [Firebase.accounts_serve hserved.serve]
    split
    · exact List.mem_cons_of_mem _ huid
    · exact huid
  · have hsame : w'.env.firebase.accounts = w.env.firebase.accounts := by
      clear hs
      generalize w'.env = env' at hmoves
      induction hmoves with
      | refl => rfl
      | tail _ hmove ih => rw [hmove.accounts, ih]
    rw [hsame]
    exact fun uid huid => huid

theorem SignUps.step (h : SignUps S w) (hauth : isAuth action)
    (hs : NoteApp.step S w action = some w') : SignUps S w' where
  code := h.code.step (fun _ _ _ _ _ _ hr => by
    obtain ⟨firebase, hfb, -⟩ := serve_eq_some hr
    exact .of_serve hfb) (Lib.World.sees_of_forall (fun _ _ => trivial) w action) hs
  asked := h.asked.step Call.sends_code hs
  logged := h.logged.step hs
  auth i op' hop' := by
    rcases Lib.World.op_of_step hs hop' with ⟨env, hstart, -⟩ | ⟨op, hop, hfol⟩
    · subst hstart
      simpa [isAuth] using hauth
    · rw [hfol.call]
      exact h.auth i op hop
  own := by
    refine Lib.World.Own.step_served Firebase.newAccount? h.own hs (accounts_subset h.asked hs) ?_
    intro device r choice env a uid hr huid
    obtain ⟨firebase, hfb, rfl⟩ := serve_eq_some hr
    exact Firebase.newAccount?_serve hfb huid

/-- Where a `signUp` call is. -/
theorem SignUps.signUp (h : SignUps S w) {i : ℕ} {op : Op} {emailAddress password : String}
    (hop : w.ops i = some op) (hcall : op.call = .signUp emailAddress password) :
    SignUp S emailAddress password op.history op.tasks := by
  have hplace := h.code i op hop
  obtain ⟨client, call, origin, history, outs, tasks⟩ := op
  obtain rfl : call = .signUp emailAddress password := hcall
  exact signUp_of_at (hplace (linear_signUp emailAddress password))

/-- A call whose profile write has been settled has had its account created. -/
theorem SignUps.signUp_of_wrote (h : SignUps S w) {i : ℕ} {emailAddress uid : String}
    {choice : Choice} (hwrote : Wrote w i emailAddress uid choice) :
    ∃ op password user a, w.ops i = some op ∧ op.call = .signUp emailAddress password ∧
      user.uid = uid ∧ user.email = some emailAddress ∧
      op.history =
        [created emailAddress password user, ⟨profileRequest emailAddress uid, choice, a⟩] := by
  obtain ⟨password, a, hentry⟩ := hwrote
  obtain ⟨op, hop, hcall, he⟩ := h.logged.known i _ _ hentry
  have hplace := h.signUp hop hcall
  generalize hhistory : op.history = history at hplace he
  cases hplace with
  | sent => cases he
  | refused e =>
      rcases List.mem_cons.mp he with heq | he
      · cases heq
      · cases he
  | created hemail =>
      rcases List.mem_cons.mp he with heq | he
      · cases heq
      · cases he
  | @written user hemail choice' a' ha =>
      rcases List.mem_cons.mp he with heq | he
      · cases heq
      · cases List.mem_singleton.mp he
        exact ⟨op, password, user, _, hop, hcall, rfl, hemail, hhistory⟩

/-- The profile of an account is written once. -/
theorem SignUps.wrote_unique (h : SignUps S w) {i j : ℕ} {emailAddress emailAddress' uid : String}
    {choice choice' : Choice} (hwrote : Wrote w i emailAddress uid choice)
    (hwrote' : Wrote w j emailAddress' uid choice') :
    emailAddress = emailAddress' ∧ choice = choice' := by
  obtain ⟨op, password, user, a, hop, hcall, huser, -, hhistory⟩ := h.signUp_of_wrote hwrote
  obtain ⟨op', password', user', a', hop', hcall', huser', -, hhistory'⟩ :=
    h.signUp_of_wrote hwrote'
  obtain rfl : i = j := by
    refine h.own.inj i j op op' uid hop hop'
      ⟨created emailAddress password user, ?_, congrArg some huser⟩
      ⟨created emailAddress' password' user', ?_, congrArg some huser'⟩
    · rw [hhistory]
      exact List.mem_cons_self
    · rw [hhistory']
      exact List.mem_cons_self
  obtain rfl : op = op' := Option.some.inj (hop.symm.trans hop')
  obtain ⟨rfl, -⟩ := Call.signUp.inj (hcall.symm.trans hcall')
  rw [hhistory] at hhistory'
  have hwrite := (List.cons.inj (List.cons.inj hhistory').2).1
  exact ⟨rfl, (Lib.Event.mk.inj hwrite).2.1⟩

/-- The profiles of a run without note calls. -/
structure Signing (S : StorageService) (fb : Firebase) (w : World) : Prop extends SignUps S w where
  written : ∀ i emailAddress uid, Wrote w i emailAddress uid .success →
    Profile w.env.firebase.firestore emailAddress uid
  untouched : ∀ uid,
    w.env.firebase.firestore.get ["Users", uid] = fb.firestore.get ["Users", uid] ∨
      ∃ i emailAddress, Wrote w i emailAddress uid .success

theorem signing_initial (S : StorageService) (fb : Firebase) : Signing S fb (initial fb) where
  toSignUps := signUps_initial S fb
  written i emailAddress uid h := by
    obtain ⟨password, a, hentry⟩ := h
    cases hentry
  untouched uid := .inl rfl

/-- A profile write stays in the log. -/
theorem Wrote.step {i : ℕ} {emailAddress uid : String} {choice : Choice}
    (h : Wrote w i emailAddress uid choice) (hs : NoteApp.step S w action = some w') :
    Wrote w' i emailAddress uid choice := by
  obtain ⟨password, a, hentry⟩ := h
  refine ⟨password, a, ?_⟩
  rcases Lib.World.log_step hs with heq | ⟨_, _, _, _, _, -, heq, -⟩
  · rwa [heq]
  · rw [heq]
    exact List.mem_append_left _ hentry

/-- A profile write of the log was there before, or is what was served last. -/
theorem wrote_of_log {entry : Entry} {i : ℕ} {emailAddress uid : String} {choice : Choice}
    (hlog : w'.log = w.log ++ [entry]) (h : Wrote w' i emailAddress uid choice) :
    Wrote w i emailAddress uid choice ∨
      (entry.event.req = profileRequest emailAddress uid ∧ entry.event.choice = choice) := by
  obtain ⟨password, a, hentry⟩ := h
  rw [hlog, List.mem_append, List.mem_singleton] at hentry
  rcases hentry with hentry | rfl
  · exact .inl ⟨password, a, hentry⟩
  · exact .inr ⟨rfl, rfl⟩

/-- **What a step does to the documents**: nothing, or it writes one profile. -/
theorem SignUps.firestore_step (h : SignUps S w) (hs : NoteApp.step S w action = some w') :
    (w'.env.firebase.firestore = w.env.firebase.firestore ∧
      ∀ i emailAddress uid, Wrote w' i emailAddress uid .success →
        Wrote w i emailAddress uid .success) ∨
    ∃ i emailAddress uid, Wrote w' i emailAddress uid .success ∧
      w'.env.firebase.firestore = w.env.firebase.firestore.set ["Users", uid]
        (Document.empty.merge (AuthViewModel.profile emailAddress uid)) ∧
      ∀ j emailAddress' uid', uid' ≠ uid → Wrote w' j emailAddress' uid' .success →
        Wrote w j emailAddress' uid' .success := by
  rcases env_step h.asked hs with ⟨i, j, choice, op, r, a, firebase, -, hserved⟩ |
    ⟨-, hmoves, hlog⟩
  · obtain ⟨hop, hasks, hserve, henv, hlog⟩ := hserved
    have hcall := h.auth i op hop
    rw [henv]
    -- a request that is no profile write leaves the documents alone
    have hother : firebase.firestore = w.env.firebase.firestore →
        (∀ emailAddress uid, r = profileRequest emailAddress uid → choice ≠ .success) →
        firebase.firestore = w.env.firebase.firestore ∧ ∀ i emailAddress uid,
          Wrote w' i emailAddress uid .success → Wrote w i emailAddress uid .success := by
      refine fun hsame hr => ⟨hsame, fun k emailAddress uid hwrote => ?_⟩
      rcases wrote_of_log hlog hwrote with hold | ⟨hreq, hchoice⟩
      · exact hold
      · exact absurd hchoice (hr emailAddress uid hreq)
    generalize hc : op.call = call at hasks hcall
    cases hasks with
    | signIn =>
        exact .inl (hother (Firebase.firestore_serve hserve rfl) fun _ _ hr => by cases hr)
    | createUser =>
        exact .inl (hother (Firebase.firestore_serve hserve rfl) fun _ _ hr => by cases hr)
    | @profile emailAddress password uid =>
        have hsettled := Firebase.settled_of_serve hserve
        cases hsettled with
        | failed _ e => exact .inl (hother rfl fun _ _ _ hchoice => by cases hchoice)
        | setData =>
            refine .inr ⟨i, emailAddress, uid, ⟨password, none, ?_⟩, rfl, ?_⟩
            · rw [hlog, hc]
              exact List.mem_append_right _ List.mem_cons_self
            · intro k emailAddress' uid' huid hwrote
              rcases wrote_of_log hlog hwrote with hold | ⟨hreq, -⟩
              · exact hold
              · obtain ⟨hpath, -⟩ := Req.setData.inj hreq
                exact absurd (by simpa using hpath.symm) huid
    | add | update | delete => cases hcall
  · have hsame : w'.env.firebase.firestore = w.env.firebase.firestore := by
      clear hs hlog
      generalize w'.env = env' at hmoves
      induction hmoves with
      | refl => rfl
      | tail _ hmove ih => rw [hmove.firestore, ih]
    refine .inl ⟨hsame, fun i emailAddress uid hwrote => ?_⟩
    rwa [Wrote, hlog] at hwrote

theorem Signing.step (h : Signing S fb w) (hauth : isAuth action)
    (hs : NoteApp.step S w action = some w') : Signing S fb w' where
  toSignUps := h.toSignUps.step hauth hs
  written j emailAddress' uid' hwrote' := by
    rcases h.toSignUps.firestore_step hs with ⟨hsame, hold⟩ |
      ⟨i, emailAddress, uid, hwrote, hset, hold⟩
    · rw [hsame]
      exact h.written j emailAddress' uid' (hold j emailAddress' uid' hwrote')
    · rw [Profile, hset, Firestore.get_set]
      by_cases huid : uid' = uid
      · subst huid
        obtain ⟨rfl, -⟩ := (h.toSignUps.step hauth hs).wrote_unique hwrote hwrote'
        rw [if_pos rfl]
      · rw [if_neg (by simpa using huid)]
        exact h.written j emailAddress' uid' (hold j emailAddress' uid' huid hwrote')
  untouched uid' := by
    have hold : ∀ {fs : Firestore},
        fs.get ["Users", uid'] = w.env.firebase.firestore.get ["Users", uid'] →
        fs.get ["Users", uid'] = fb.firestore.get ["Users", uid'] ∨
          ∃ i emailAddress, Wrote w' i emailAddress uid' .success := by
      intro fs hfs
      rcases h.untouched uid' with heq | ⟨i, emailAddress, hwrote⟩
      · exact .inl (hfs.trans heq)
      · exact .inr ⟨i, emailAddress, hwrote.step hs⟩
    rcases h.toSignUps.firestore_step hs with ⟨hsame, -⟩ | ⟨i, emailAddress, uid, hwrote, hset, -⟩
    · exact hold (by rw [hsame])
    · by_cases huid : uid' = uid
      · exact .inr ⟨i, emailAddress, huid ▸ hwrote⟩
      · refine hold ?_
        rw [hset, Firestore.get_set, if_neg (by simpa using huid)]

/-! ## The condition -/

/-- When nothing is pending, the profile of an account has been written or has failed to be. -/
theorem SignUps.wrote_of_created (h : SignUps S w)
    (hquiet : ∀ i op, w.ops i = some op → op.tasks = []) {i : ℕ} {emailAddress : String}
    {user : User} (hcreated : Created w i emailAddress user) : user.email = some emailAddress ∧
      (Wrote w i emailAddress user.uid .success ∨
        ∃ e, Wrote w i emailAddress user.uid (.failure e)) := by
  obtain ⟨password, hentry⟩ := hcreated
  obtain ⟨op, hop, hcall, he⟩ := h.logged.known i _ _ hentry
  have hserved := h.logged.served i op
  have hplace := h.signUp hop hcall
  rw [hquiet i op hop] at hplace
  generalize op.history = history at hplace he hserved
  cases hplace with
  | sent htasks => exact absurd rfl htasks
  | refused e => cases List.mem_singleton.mp he
  | created hemail htasks => exact absurd rfl htasks
  | @written user' hemail choice a ha =>
      have hwrote : Wrote w i emailAddress user'.uid choice :=
        ⟨password, a, hcall ▸ hserved _ hop (List.mem_cons_of_mem _ List.mem_cons_self)⟩
      rcases List.mem_cons.mp he with heq | he
      · cases heq
        refine ⟨hemail, ?_⟩
        rcases ha.setData with ⟨rfl, -⟩ | ⟨e, rfl, -⟩
        · exact .inl hwrote
        · exact .inr ⟨e, hwrote⟩
      · cases List.mem_singleton.mp he

/-- **Every account has its profile**, in every state without a pending request, if and only if
no profile write has failed, but for documents that were there at the start. -/
theorem profilesKept_iff (S : StorageService) (fb : Firebase) (as : List Action) (w : World)
    (hrun : Lib.run (step S) (initial fb) as = some w)
    (hauth : ∀ action ∈ as, isAuth action)
    (hquiet : ∀ i op, w.ops i = some op → op.tasks = []) :
    ProfilesKept w ↔ ProfilesWritten fb w := by
  have hsigning : Signing S fb w :=
    Lib.run_invariant_of_mem
      (fun w action hmem w' h hs => h.step (hauth action hmem) hs)
      (signing_initial S fb) hrun
  constructor
  · intro hkept i emailAddress uid e hwrote
    obtain ⟨op, password, user, a, hop, hcall, rfl, hemail, hhistory⟩ :=
      hsigning.toSignUps.signUp_of_wrote hwrote
    have hentry := hsigning.logged.served i op (created emailAddress password user) hop
      (by rw [hhistory]; exact List.mem_cons_self)
    obtain ⟨-, hprofile⟩ := hkept i emailAddress user ⟨password, hcall ▸ hentry⟩
    rcases hsigning.untouched user.uid with heq | ⟨j, emailAddress', hwrote'⟩
    · exact heq.symm.trans hprofile
    · obtain ⟨-, hchoice⟩ := hsigning.toSignUps.wrote_unique hwrote hwrote'
      cases hchoice
  · intro hwritten i emailAddress user hcreated
    obtain ⟨hemail, hwrote | ⟨e, hwrote⟩⟩ := hsigning.toSignUps.wrote_of_created hquiet hcreated
    · exact ⟨hemail, hsigning.written i emailAddress user.uid hwrote⟩
    · refine ⟨hemail, ?_⟩
      rcases hsigning.untouched user.uid with heq | ⟨j, emailAddress', hwrote'⟩
      · exact heq.trans (hwritten i emailAddress user.uid e hwrote)
      · obtain ⟨-, hchoice⟩ := hsigning.toSignUps.wrote_unique hwrote hwrote'
        cases hchoice

/-- Ana signs up on device `0` and Ben on device `1`, and their profile writes are settled so. -/
def bothSignUp (choice : Choice) : List Action :=
  [.start 0 0 (.signUp "ana@notes.app" "pw"), .start 1 1 (.signUp "ben@notes.app" "pw"),
    .serve 1 0 (.account ben), .serve 0 0 (.account ana), .deliver 0 0, .deliver 1 0,
    .serve 0 0 choice, .serve 1 0 .success, .deliver 1 0, .deliver 0 0,
    .start 2 0 .signOut, .start 3 0 (.signIn "ana@notes.app" "pw"), .serve 3 0 (.account ana),
    .deliver 3 0]

/-- Both have their profiles. -/
theorem profilesKept_bothSignUp : ∃ w,
    Lib.run (step .plain) (initial .empty) (bothSignUp .success) = some w ∧
      Created w 0 "ana@notes.app" ana ∧ ProfilesKept w := by
  have hrun : ∃ w, Lib.run (step .plain) (initial .empty) (bothSignUp .success) = some w ∧
      w.log[1]? = some ⟨0, .signUp "ana@notes.app" "pw", created "ana@notes.app" "pw" ana⟩ ∧
      w.log.map (·.event.choice) =
        [.account ben, .account ana, .success, .success, .account ana] ∧
      ∀ i < 4, ∀ op ∈ w.ops i, op.tasks = [] := ⟨_, rfl, rfl, rfl, by decide⟩
  obtain ⟨w, hrun, hcreated, hchoices, htasks⟩ := hrun
  have hquiet := Lib.World.tasks_run (n := 4) hrun (fun _ _ => rfl) (by decide) htasks
  refine ⟨w, hrun, ⟨"pw", List.mem_of_getElem? hcreated⟩,
    (profilesKept_iff .plain .empty (bothSignUp .success) w hrun (by decide) hquiet).mpr ?_⟩
  rintro i emailAddress uid e ⟨password, a, hentry⟩
  have hfailed := List.mem_map_of_mem (f := fun entry : Entry => entry.event.choice) hentry
  rw [hchoices] at hfailed
  simp at hfailed

/-- Ana has none: its write has failed, and signing in again does not repair it. -/
theorem profileMissing : ¬ ∀ (S : StorageService) (fb : Firebase) (as : List Action) (w : World),
    Lib.run (step S) (initial fb) as = some w → (∀ action ∈ as, isAuth action) →
    (∀ i op, w.ops i = some op → op.tasks = []) → ProfilesKept w := by
  intro h
  have hrun : ∃ w, Lib.run (step .plain) (initial .empty)
        (bothSignUp
          (.failure ⟨"FIRFirestoreErrorDomain", 7, "Missing or insufficient permissions."⟩)) =
          some w ∧
      w.log[1]? = some ⟨0, .signUp "ana@notes.app" "pw", created "ana@notes.app" "pw" ana⟩ ∧
      w.env.firebase.firestore.get ["Users", "ana"] = none ∧
      ∀ i < 4, ∀ op ∈ w.ops i, op.tasks = [] := ⟨_, rfl, rfl, by decide, by decide⟩
  obtain ⟨w, hrun, hcreated, hmissing, htasks⟩ := hrun
  have hquiet := Lib.World.tasks_run (n := 4) hrun (fun _ _ => rfl) (by decide) htasks
  have hkept := h .plain .empty _ w hrun (by decide) hquiet
  obtain ⟨-, hprofile⟩ := hkept 0 _ ana ⟨"pw", List.mem_of_getElem? hcreated⟩
  cases hmissing.symm.trans hprofile

end FirebaseApps.NoteApp
