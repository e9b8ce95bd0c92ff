import FirebaseApps.Lib.Endless
import FirebaseApps.SociallyUIKit.LinkedViews

/-!
# Socially-UIKit: when the update loop of the feed settles

Showing a row may write to the database, and the write makes the devices show their rows
again.  The loop ends unless a document that was linked in the view of a device is unlinked
again, which happens in one way: the server refuses the write, and the rollback shows the row
without its image URL, which looks the thumbnail up once more.

`feed_settles` bounds the runs without such a refusal, by a potential that the unlinked
documents pay for; `length_le_of_rollbacks` says what each refusal adds to a run; and
`feedLoops` is a run of refusals that has no end.
-/

namespace FirebaseApps.SociallyUIKit.Feed

open Lib (Task)

variable {S : StorageService} {fs₀ : Firestore} {r : Req}

/-! ## Any number of devices -/

variable {n K : ℕ} {env env' : Env} {device : Device}

/-- The collection, and all that the devices have, fits the starting one. -/
structure Sound (S : StorageService) (fs₀ : Firestore) (env : Env) : Prop where
  server : Derived S fs₀ env.firebase.firestore
  clients : ∀ device, Given S fs₀ (env.clients device)

/-- The weight of all devices. -/
def load (n : ℕ) (env : Env) : ℕ :=
  ∑ device ∈ Finset.range env.devices, weight n (env.clients device)

/-- What the devices can still do: their weight, and for each document that may still be linked
at the server, that each device is told of it. -/
def debt (n : ℕ) (env : Env) : ℕ :=
  load n env + env.devices * (unresolved env.firebase.firestore).card

theorem Sound.setClient (h : Sound S fs₀ env) {client : FeedClient} (hgiven : Given S fs₀ client) :
    Sound S fs₀ (env.setClient device client) := by
  refine ⟨h.server, fun other => ?_⟩
  by_cases hother : other = device
  · subst hother
    simpa [Env.setClient] using hgiven
  · simpa [Env.setClient, hother] using h.clients other

theorem load_setClient (hdevice : device < env.devices) (client : FeedClient) :
    load n (env.setClient device client) + weight n (env.clients device) =
      load n env + weight n client :=
  Lib.World.sum_update (weight n) env.clients hdevice client

/-- A device that has gained `k` at most. -/
theorem load_setClient_le {client : FeedClient} {k : ℕ}
    (hweight : weight n client ≤ weight n (env.clients device) + k) :
    load n (env.setClient device client) ≤ load n env + k := by
  by_cases hdevice : device < env.devices
  · have hload := load_setClient (n := n) hdevice client
    omega
  · have hsame : load n (env.setClient device client) = load n env := by
      refine Finset.sum_congr rfl fun other hother => ?_
      have hne : other ≠ device := fun heq => hdevice (heq ▸ Finset.mem_range.mp hother)
      simp [Env.setClient, hne]
    omega

/-- What a step does to the devices and to the documents, when the operations are set aside: it
gains `gain`, and pays for `cost`. -/
structure Pays (S : StorageService) (fs₀ : Firestore) (env env' : Env) (gain cost : ℕ) : Prop where
  sound : Sound S fs₀ env'
  debt_le : debt (ids fs₀).card env' + cost ≤ debt (ids fs₀).card env + gain
  card_le : (unresolved env'.firebase.firestore).card ≤ (unresolved env.firebase.firestore).card
  card_lt : (∃ d, env'.firebase.firestore.get ["Posts", d] ≠
      env.firebase.firestore.get ["Posts", d]) →
    (unresolved env'.firebase.firestore).card < (unresolved env.firebase.firestore).card

/-- A step that leaves the documents alone. -/
theorem pays_of_firestore {gain cost : ℕ} (hsound : Sound S fs₀ env')
    (hfirestore : env'.firebase.firestore = env.firebase.firestore)
    (hdevices : env'.devices = env.devices)
    (hload : load (ids fs₀).card env' + cost ≤ load (ids fs₀).card env + gain) :
    Pays S fs₀ env env' gain cost where
  sound := hsound
  debt_le := by
    rw [debt, debt, hfirestore, hdevices]
    omega
  card_le := by rw [hfirestore]
  card_lt := by
    rintro ⟨d, hd⟩
    exact absurd (by rw [hfirestore]) hd

/-- **A request that is sent** costs nothing. -/
theorem pays_emit (h : Sound S fs₀ env) {o : Out ⊕ Req}
    (ho : ∀ r, o = .inr r → Firebase.changesDocuments r → IsLink S fs₀ r) :
    Pays S fs₀ env (env.emit device o) 0 0 := by
  have hsame : Pays S fs₀ env env 0 0 := pays_of_firestore h rfl rfl le_rfl
  cases o with
  | inl o => exact hsame
  | inr r =>
      unfold Env.emit
      dsimp only
      split
      next hr =>
        obtain ⟨hgiven, hweight⟩ := (h.clients device).writeMutations (n := (ids fs₀).card)
          (ho r rfl hr)
        exact pays_of_firestore (h.setClient hgiven) rfl rfl (load_setClient_le hweight)
      next => exact hsame

/-- The news of a write adds one step to each device. -/
theorem load_notified (h : Sound S fs₀ env) (hr : IsLink S fs₀ r) (firebase : Firebase) :
    load n ⟨firebase, env.devices, fun device => (env.clients device).notified r⟩ =
      load n env + env.devices := by
  have hweight : ∀ device, weight n ((env.clients device).notified r) =
      weight n (env.clients device) + 1 :=
    fun device => ((h.clients device).notified hr).2
  rw [load, Finset.sum_congr rfl fun device _ => hweight device, Finset.sum_add_distrib,
    Finset.sum_const_nat fun _ _ => rfl, Finset.card_range, Nat.mul_one]
  rfl

/-- **A write that the server applies** pays for telling the devices. -/
theorem pays_written (h : Sound S fs₀ env) (hr : IsLink S fs₀ r) {firebase : Firebase}
    (hfirebase : firebase.firestore = applyToLocalView env.firebase.firestore r) :
    Pays S fs₀ env (env.written firebase r) 0 0 := by
  have hserver : Derived S fs₀ firebase.firestore := hfirebase ▸ h.server.link hr
  rcases h.server.seesChange_cases hr hfirebase with ⟨hsees, hcard⟩ | ⟨hsees, hsame, hget⟩
  · -- the document is linked now, and all devices are told
    rw [Env.written, if_pos hsees]
    have hlt : (unresolved firebase.firestore).card < (unresolved env.firebase.firestore).card := by
      omega
    refine ⟨⟨hserver, fun device => ((h.clients device).notified (n := 0) hr).1⟩, ?_, hlt.le,
      fun _ => hlt⟩
    rw [debt, load_notified h hr, debt, ← hcard, Nat.mul_add_one]
    dsimp only
    omega
  · -- the document was linked already, and nothing changes
    rw [Env.written, if_neg (by simp [hsees])]
    refine ⟨⟨hserver, h.clients⟩, ?_, by rw [hsame], ?_⟩
    · rw [debt, hsame]
      exact le_rfl
    · rintro ⟨e, he⟩
      exact absurd (hget e) he

/-- A write that is refused changes nothing at the server. -/
theorem written_self (env : Env) (r : Req) : env.written env.firebase r = env := by
  simp [Env.written, seesChange_self]

theorem mutationQueue_written (firebase : Firebase) :
    ((env.written firebase r).clients device).store.mutationQueue =
      (env.clients device).store.mutationQueue := by
  unfold Env.written
  dsimp only
  split <;> rfl

/-- Two steps, one after the other. -/
theorem Pays.trans {env'' : Env} {gain cost gain' cost' : ℕ} (h : Pays S fs₀ env env' gain cost)
    (h' : Pays S fs₀ env' env'' gain' cost') :
    Pays S fs₀ env env'' (gain + gain') (cost + cost') where
  sound := h'.sound
  debt_le := by
    have hdebt := h.debt_le
    have hdebt' := h'.debt_le
    omega
  card_le := h'.card_le.trans h.card_le
  card_lt := by
    rintro ⟨d, hd⟩
    by_cases hd' : env'.firebase.firestore.get ["Posts", d] =
        env.firebase.firestore.get ["Posts", d]
    · exact (h'.card_lt ⟨d, hd' ▸ hd⟩).trans_le h.card_le
    · exact h'.card_le.trans_lt (h.card_lt ⟨d, hd'⟩)

/-- What a step may gain: a refused write whose rollback the listener sees shows its rows
twice more. -/
def credit (n : ℕ) (client : FeedClient) (r : Req) : Choice → ℕ
  | .failure _ => if client.rollsBack r then 2 * (1 + 5 * n) else 0
  | _ => 0

/-- A write that is acknowledged costs nothing. -/
theorem pays_acknowledged (h : Sound S fs₀ env)
    (hhead : (env.clients device).store.mutationQueue.head? = some r) :
    Pays S fs₀ env (env.answered device r .success) 0 0 := by
  obtain ⟨hgiven, hweight⟩ := (h.clients device).handleSuccessfulWrite (n := (ids fs₀).card) hhead
  exact pays_of_firestore (h.setClient hgiven) rfl rfl (load_setClient_le hweight)

/-- A write that is refused gains the snapshot of its rollback, and its lookup again. -/
theorem pays_refused (h : Sound S fs₀ env)
    (hhead : (env.clients device).store.mutationQueue.head? = some r) (e : NSError) :
    Pays S fs₀ env (env.answered device r (.failure e))
      (credit (ids fs₀).card (env.clients device) r (.failure e)) 0 := by
  obtain ⟨hgiven, hweight⟩ := (h.clients device).handleRejectedWrite (n := (ids fs₀).card) hhead
  exact pays_of_firestore (h.setClient hgiven) rfl rfl (load_setClient_le hweight)

/-- A link that is served has been applied or refused. -/
theorem served_link {fb firebase : Firebase} {choice : Choice} {a : Ans r} (hr : IsLink S fs₀ r)
    (hserve : fb.serve S device r choice = some (firebase, a)) :
    (choice = .success ∧ firebase.firestore = applyToLocalView fb.firestore r) ∨
      ((∃ e, choice = .failure e) ∧ firebase = fb) := by
  obtain ⟨d, path, doc, hu, rfl⟩ := hr
  cases Firebase.settled_of_serve hserve with
  | setData => exact .inl ⟨rfl, rfl⟩
  | failed e => exact .inr ⟨⟨_, rfl⟩, rfl⟩

/-- **What serving does**: a write is the first one of its device, and goes to all devices;
another request only to the backend. -/
theorem serve_eq_some {choice : Choice} {a : Ans r}
    (hr : Env.serve S env device r choice = some (env', a)) :
    ∃ firebase, env.firebase.serve S device r choice = some (firebase, a) ∧
      ((env.clients device).store.mutationQueue.head? = some r ∧
          env' = (env.written firebase r).answered device r choice ∨
        Firebase.changesDocuments r = false ∧ env' = { env with firebase := firebase }) := by
  unfold Env.serve at hr
  split at hr
  · obtain ⟨hhead, hr⟩ := Option.ite_none_right_eq_some.mp hr
    obtain ⟨⟨firebase, b⟩, hserve, heq⟩ := Option.map_eq_some_iff.mp hr
    obtain ⟨rfl, rfl⟩ := Prod.mk.inj heq
    exact ⟨firebase, hserve, .inl ⟨hhead, rfl⟩⟩
  next hreads =>
    obtain ⟨⟨firebase, b⟩, hserve, heq⟩ := Option.map_eq_some_iff.mp hr
    obtain ⟨rfl, rfl⟩ := Prod.mk.inj heq
    exact ⟨firebase, hserve, .inr ⟨Bool.eq_false_of_not_eq_true hreads, rfl⟩⟩

/-- **A request that is served** costs nothing, but for a refused write. -/
theorem pays_serve (h : Sound S fs₀ env) {choice : Choice} {a : Ans r}
    (hr : Env.serve S env device r choice = some (env', a)) :
    Pays S fs₀ env env' (credit (ids fs₀).card (env.clients device) r choice) 0 := by
  obtain ⟨firebase, hserve, ⟨hhead, rfl⟩ | ⟨hreads, rfl⟩⟩ := serve_eq_some hr
  · have hlink := (h.clients device).stored.queue r (List.mem_of_mem_head? hhead)
    rcases served_link hlink hserve with ⟨rfl, hfirebase⟩ | ⟨⟨e, rfl⟩, rfl⟩
    · have hwritten := pays_written h hlink hfirebase
      have hhead' : ((env.written firebase r).clients device).store.mutationQueue.head? = some r :=
        (congrArg List.head? (mutationQueue_written firebase)).trans hhead
      exact hwritten.trans (pays_acknowledged hwritten.sound hhead')
    · rw [written_self]
      exact pays_refused h hhead e
  · have hfirestore := Firebase.firestore_serve hserve hreads
    exact pays_of_firestore ⟨hfirestore ▸ h.server, h.clients⟩ hfirestore rfl (Nat.le_add_right _ _)

/-- A change of one device that pays for itself. -/
theorem pays_setClient (h : Sound S fs₀ env) (hdevice : device < env.devices) {client : FeedClient}
    {cost : ℕ} (hclient : Given S fs₀ client ∧ weight (ids fs₀).card client + cost ≤
      weight (ids fs₀).card (env.clients device)) :
    Pays S fs₀ env (env.setClient device client) 0 cost := by
  obtain ⟨hgiven, hweight⟩ := hclient
  have hload := load_setClient (n := (ids fs₀).card) hdevice client
  exact pays_of_firestore (h.setClient hgiven) rfl rfl (by omega)

/-- The configuration of a row pays for its lookup. -/
theorem pays_accept (h : Sound S fs₀ env) {post : Post}
    (ha : Env.accept env device post = some env') :
    Pays S fs₀ env env' 0 5 ∧ Fits fs₀ post := by
  obtain ⟨⟨hdevice, hpost⟩, heq⟩ := Option.ite_none_right_eq_some.mp ha
  obtain rfl := Option.some.inj heq
  obtain ⟨hgiven, hweight⟩ := (h.clients device).configured (n := (ids fs₀).card) hpost
  exact ⟨pays_setClient h hdevice ⟨hgiven, hweight.le⟩, (h.clients device).changed post hpost⟩

/-- A snapshot that is delivered pays for the rows that it changes, and the news of a write for
itself. -/
theorem pays_act (h : Sound S fs₀ env) {a : Act} (ha : Env.act env a = some env') :
    Pays S fs₀ env env' 0 1 := by
  cases a with
  | listen device =>
      obtain ⟨hdevice, hnext⟩ := Option.ite_none_right_eq_some.mp ha
      obtain ⟨feed, hlisten, rfl⟩ := Option.map_eq_some_iff.mp hnext
      exact pays_setClient h hdevice ((h.clients device).listen hlisten)
  | remoteEvent device count =>
      obtain ⟨⟨hdevice, hpos, hcount⟩, heq⟩ := Option.ite_none_right_eq_some.mp ha
      obtain rfl := Option.some.inj heq
      exact pays_setClient h hdevice ((h.clients device).applyRemoteEvent hpos hcount)

/-! ## Lookups -/

variable {w w' : World} {action : Action} {i j : ℕ}

/-- The operations of a reachable world are on their code. -/
abbrev OnCode (S : StorageService) (w : World) : Prop :=
  Lib.World.OnCode (host S) (Firebase.Answers S) (fun _ _ => True) w

/-- A row asks for nothing, or looks its thumbnail up. -/
theorem lookup_cases (item : Post) : PostTableViewCell.lookup item = .done ∨
    ∃ path, item.imageURL = none ∧ item.path = some path ∧
      PostTableViewCell.lookup item = item.checkImageURL path := by
  unfold PostTableViewCell.lookup
  split
  next path hurl hpath => exact .inr ⟨path, hurl, hpath, rfl⟩
  next => exact .inl rfl

theorem linear_lookup (item : Post) : (PostTableViewCell.lookup item).announced.Linear := by
  refine Lib.Code.Linear.announced ?_
  rcases lookup_cases item with heq | ⟨path, -, -, heq⟩
  · rw [heq]
    trivial
  · rw [heq]
    exact Call.linear_code .plain (.checkImageURL item path)

/-- A lookup has two requests served at most. -/
theorem within_lookup (item : Post) : (PostTableViewCell.lookup item).announced.Within 2 := by
  refine Lib.Code.Within.announced ?_
  rcases lookup_cases item with heq | ⟨path, -, -, heq⟩
  · rw [heq]
    trivial
  · rw [heq]
    refine ⟨rfl, 1, rfl, fun answer => ?_⟩
    obtain ⟨_ | url, _ | error⟩ := answer
    · trivial
    · trivial
    · cases hid : item.id with
      | none => simp [Lib.Code.Within]
      | some docId => simp [Lib.Code.Within]
    · trivial

/-- A row writes nothing but the link of its thumbnail. -/
def lookupContract (S : StorageService) (item : Post) : Lib.Contract Req Ans Choice Out where
  asks _ r := Firebase.changesDocuments r → ∃ d path, item.imageURL = none ∧
    item.path = some path ∧ item.id = some d ∧ r = link S d path
  reports _ _ := True
  reads _ := True

theorem meets_lookup (S : StorageService) (item : Post) :
    (PostTableViewCell.lookup item).announced.Meets (Firebase.Answers S) (fun _ => True)
      (lookupContract S item).announced [] := by
  refine Lib.Code.Meets.announced ?_
  rcases lookup_cases item with heq | ⟨path, hurl, hpath, heq⟩
  · rw [heq]
    trivial
  · rw [heq]
    refine ⟨fun hchanges => (by cases hchanges), fun choice a ha => ?_, trivial⟩
    rcases ha.downloadURL with ⟨rfl, rfl⟩ | ⟨e, rfl, rfl⟩ | ⟨rfl, rfl⟩
    · cases hid : item.id with
      | none => simp [Lib.Code.Meets]
      | some d =>
          simp only [Lib.Code.Meets]
          exact ⟨fun _ => ⟨d, path, hurl, hpath, hid, rfl⟩, fun _ _ _ => trivial, trivial⟩
    · trivial
    · trivial

/-- **Running code of a row** costs nothing. -/
theorem pays_exec (device : Device) (h : Sound S fs₀ env) {item : Post} (hfits : Fits fs₀ item)
    {code : Lib.Code Req Ans (Option User) (Out ⊕ Req)} {past : List Event}
    (hcode : code.Meets (Firebase.Answers S) (fun _ => True)
      (lookupContract S item).announced past) :
    Pays S fs₀ env ((host S).exec device code env).env 0 0 := by
  obtain ⟨hreports, -⟩ := hcode.exec (host S) device env
  refine (host S).exec_env_invariant (P := fun env' => Pays S fs₀ env env' 0 0)
    (fun o ho env' henv' => ?_) (pays_of_firestore h rfl rfl le_rfl)
  refine henv'.trans (pays_emit henv'.sound fun r hr hchanges => ?_)
  subst hr
  obtain ⟨d, path, hurl, hpath, hid, heq⟩ := hreports (.inr r) ho hchanges
  obtain ⟨d', doc, hid', hu⟩ := hfits hurl path hpath
  obtain rfl := Option.some.inj (hid.symm.trans hid')
  exact ⟨d, path, doc, hu, heq⟩

/-! ## The loop -/

/-- What holds in every state of a run. -/
structure Settling (S : StorageService) (fs₀ : Firestore) (w : World) : Prop where
  code : OnCode S w
  paced : w.Paced 2
  sound : Sound S fs₀ w.env
  called : ∀ i op, w.ops i = some op → Fits fs₀ op.call

theorem settling_initial (S : StorageService) (fb : Firebase) (devices : ℕ)
    (rows : Device → List Post) : Settling S fb.firestore (initial fb devices rows) where
  code := Lib.World.onCode_initial _
  paced := Lib.World.paced_initial _
  sound :=
    { server := .refl S fb.firestore
      clients := fun device =>
        { stored := ⟨.refl S fb.firestore, by simp [initial, startingClient, Lib.World.initial],
            by simp [initial, startingClient, Lib.World.initial]⟩
          snapshots := fun posts hposts => by
            obtain rfl := List.mem_singleton.mp hposts
            exact ⟨length_orderedFeed_le _, fun post => (Derived.refl S fb.firestore).fits⟩
          changed := fun post hpost => by cases hpost } }
  called i op h := by cases h

/-- The operations stay on their code. -/
theorem OnCode.step (h : OnCode S w) (hs : Feed.step S w action = some w') : OnCode S w' := by
  refine Lib.World.OnCode.step h (fun env c r choice env' a hr => ?_)
    (Lib.World.sees_of_forall (fun _ _ => trivial) w action) hs
  obtain ⟨fb, hserve, -⟩ := serve_eq_some hr
  exact .of_serve hserve

/-- A refused write is rolled back in this step, and the listener of its device sees it. -/
def RollsBack (w : World) : Action → Prop
  | .serve i j (.failure _) => ∃ op ∈ w.ops i, ∃ r ∈ op.tasks[j]?.bind Task.request?,
      (w.env.clients op.client).rollsBack r
  | _ => False

instance (w : World) : (action : Action) → Decidable (RollsBack w action)
  | .serve i j (.failure _) => inferInstanceAs (Decidable (∃ op ∈ w.ops i,
      ∃ r ∈ op.tasks[j]?.bind Task.request?, (w.env.clients op.client).rollsBack r = true))
  | .serve _ _ .success | .serve _ _ .neither | .serve _ _ (.documentID _)
  | .serve _ _ (.account _) | .start .. | .deliver .. | .act _ => isFalse id

/-- What a run can still do: the lookups under way, and what the devices can do. -/
def potential (n K : ℕ) (w : World) : ℕ := w.outstanding 2 K + debt n w.env

/-- What a rollback adds to a run. -/
def rollback (n : ℕ) (w : World) (action : Action) : ℕ :=
  if RollsBack w action then 2 * (1 + 5 * n) else 0

/-- A refused write gains no more than its rollback adds. -/
theorem credit_le_rollback {choice : Choice} {op : Op}
    {callback : Ans r → Lib.Code Req Ans (Option User) (Out ⊕ Req)} (hop : w.ops i = some op)
    (ht : op.tasks[j]? = some (.waiting r callback)) :
    credit n (w.env.clients op.client) r choice ≤ rollback n w (.serve i j choice) := by
  unfold credit
  split
  · split
    next hrolls =>
      have hback : RollsBack w (.serve i j (.failure ‹_›)) :=
        ⟨op, hop, r, by simp [ht, Task.request?], hrolls⟩
      rw [rollback, if_pos hback]
    next => exact Nat.zero_le _
  · exact Nat.zero_le _

/-- **A step** gains only from a rollback, and pays for what it adds to the lookups under way
and for itself. -/
theorem Settling.exists_pays (h : Settling S fs₀ w) (hs : Feed.step S w action = some w')
    (hK : ∀ i ∈ action.op?, i < K) : ∃ gain cost,
      Pays S fs₀ w.env w'.env gain cost ∧ gain ≤ rollback (ids fs₀).card w action ∧
        w'.outstanding 2 K + 1 ≤ w.outstanding 2 K + cost := by
  have hsteps := h.paced.outstanding_step within_lookup hK hs
  rcases Lib.World.step_cases hs with ⟨i, device, post, env, rfl, hi, ha, rfl⟩ |
    ⟨i, j, choice, op, r, callback, env, a, rfl, hi, ht, hr, rfl⟩ |
    ⟨i, j, op, code, rfl, hi, ht, rfl⟩ | ⟨a, env, rfl, ha, rfl⟩
  · obtain ⟨haccept, hfits⟩ := pays_accept h.sound ha
    have hpays := haccept.trans (pays_exec device haccept.sound hfits (meets_lookup S post))
    exact ⟨_, _, hpays, Nat.zero_le _, Nat.succ_le_succ hsteps⟩
  · exact ⟨_, _, pays_serve h.sound hr, credit_le_rollback hi ht, hsteps⟩
  · have hpays := pays_exec op.client h.sound (h.called i op hi)
      (Lib.Code.At.ready (meets_lookup S op.call)
        (h.code i op hi (linear_lookup op.call)) (List.mem_of_getElem? ht))
    exact ⟨_, _, hpays, Nat.zero_le _, hsteps⟩
  · exact ⟨_, _, pays_act h.sound ha, Nat.zero_le _, Nat.succ_le_succ hsteps.le⟩

/-- A step keeps the invariant: only the configuration of a row makes a new call. -/
theorem Settling.step (h : Settling S fs₀ w) (hs : Feed.step S w action = some w') {gain cost : ℕ}
    (hpays : Pays S fs₀ w.env w'.env gain cost) : Settling S fs₀ w' := by
  refine ⟨h.code.step hs, h.paced.step within_lookup hs, hpays.sound, fun i op' hop' => ?_⟩
  rcases Lib.World.op_of_step hs hop' with ⟨env, rfl, -, ha, -⟩ | ⟨op, hop, hfol⟩
  · exact (pays_accept h.sound ha).2
  · exact hfol.call ▸ h.called i op hop

/-- A step takes one from the potential, when what a rollback adds is set aside. -/
theorem Settling.pays (h : Settling S fs₀ w) (hs : Feed.step S w action = some w')
    (hK : ∀ i ∈ action.op?, i < K) : Settling S fs₀ w' ∧
      potential (ids fs₀).card K w' + 1 ≤
        potential (ids fs₀).card K w + rollback (ids fs₀).card w action ∧
      ∃ gain cost, Pays S fs₀ w.env w'.env gain cost := by
  obtain ⟨gain, cost, hpays, hgain, hcost⟩ := h.exists_pays hs hK
  have hdebt := hpays.debt_le
  refine ⟨h.step hs hpays, ?_, gain, cost, hpays⟩
  simp only [potential]
  omega

open Classical in
/-- The writes of a run that change the content of the collection. -/
noncomputable def contentWrites (S : StorageService) (w : World) (as : List Action) : ℕ :=
  Lib.tally (step S) (fun w _ w' => if ∃ d, document w' d ≠ document w d then 1 else 0) w as

/-- Some number is larger than all operations that the actions are about. -/
theorem exists_bound (as : List Action) : ∃ K, ∀ a ∈ as, ∀ i ∈ a.op?, i < K := by
  induction as with
  | nil => exact ⟨0, fun a h => by cases h⟩
  | cons a as ih =>
      obtain ⟨K, hK⟩ := ih
      refine ⟨max K (a.op?.getD 0 + 1), fun b hb i hi => ?_⟩
      rcases List.mem_cons.mp hb with rfl | hb
      · rw [Option.mem_def] at hi
        simp [hi]
      · exact lt_max_of_lt_left (hK b hb i hi)

/-- What a run can still do at its start. -/
theorem potential_initial (fb : Firebase) (devices : ℕ) (rows : Device → List Post) :
    potential n K (initial fb devices rows) =
      devices * ((1 + 5 * n) * (1 + (unresolved fb.firestore).card) +
        (unresolved fb.firestore).card) := by
  have hload : load n (initial fb devices rows).env =
      devices * ((1 + 5 * n) * (1 + (unresolved fb.firestore).card)) := by
    rw [load, Finset.sum_const_nat (m := (1 + 5 * n) * (1 + (unresolved fb.firestore).card)),
      Finset.card_range]
    · rfl
    · intro device _
      rfl
  have houtstanding : Lib.World.outstanding 2 K (initial fb devices rows) = 0 :=
    Lib.World.outstanding_initial _
  rw [potential, debt, hload, houtstanding, Nat.zero_add, Nat.mul_add devices]
  rfl

/-- **Runs of the feed**: one is no longer than the potential of its start, and what the
rollbacks in it add. -/
theorem length_le_of_rollbacks {fb : Firebase} {devices : ℕ} {rows : Device → List Post}
    {as : List Action} (hrun : Lib.run (step S) (initial fb devices rows) as = some w) :
    as.length ≤ devices * ((1 + 5 * (ids fb.firestore).card) *
        (1 + (unresolved fb.firestore).card) + (unresolved fb.firestore).card) +
      Lib.tally (step S) (fun w action _ => rollback (ids fb.firestore).card w action)
        (initial fb devices rows) as := by
  obtain ⟨K, hK⟩ := exists_bound as
  have hlength := Lib.length_add_le_credit (I := Settling S fb.firestore)
    (μ := potential (ids fb.firestore).card K)
    (fun w a ha w' hw hs => ⟨(hw.pays hs (hK a ha)).1, (hw.pays hs (hK a ha)).2.1⟩)
    (settling_initial S fb devices rows) hrun
  rw [potential_initial] at hlength
  exact (Nat.le_add_right _ _).trans hlength

/-- The collection changes at most once for each document without an image URL. -/
theorem contentWrites_le {fb : Firebase} {devices : ℕ} {rows : Device → List Post}
    {as : List Action} (hrun : Lib.run (step S) (initial fb devices rows) as = some w) :
    contentWrites S (initial fb devices rows) as ≤ (unresolved fb.firestore).card := by
  obtain ⟨K, hK⟩ := exists_bound as
  have hwrites : contentWrites S (initial fb devices rows) as +
      (unresolved w.env.firebase.firestore).card ≤ (unresolved fb.firestore).card := by
    refine Lib.tally_add_le (I := Settling S fb.firestore)
      (μ := fun w => (unresolved w.env.firebase.firestore).card) (fun w a ha w' hw hs => ?_)
      (settling_initial S fb devices rows) hrun
    obtain ⟨hw', -, gain, cost, hpays⟩ := hw.pays hs (hK a ha)
    refine ⟨hw', ?_⟩
    split
    next hchanged => exact hpays.card_lt hchanged
    next => exact hpays.card_le
  exact (Nat.le_add_right _ _).trans hwrites

/-- **The update loop settles as long as no refused write is rolled back on the screen.**  From
one snapshot on each of any number of devices, a run of the automatic steps is finite then, and
bounded in length by the numbers of devices, of documents and of documents without an image
URL; and the writes that change the collection are at most as many as the latter. -/
theorem feed_settles (S : StorageService) (fb : Firebase) (devices : ℕ)
    (rows : Device → List Post) (as : List Action) (w : World)
    (hrun : Lib.run (step S) (initial fb devices rows) as = some w)
    (hkept : Lib.StepsMeet (step S) (fun w action _ => ¬ RollsBack w action)
      (initial fb devices rows) as) :
    as.length ≤ devices * ((1 + 5 * (ids fb.firestore).card) *
        (1 + (unresolved fb.firestore).card) + (unresolved fb.firestore).card) ∧
      contentWrites S (initial fb devices rows) as ≤ (unresolved fb.firestore).card := by
  have hnone : Lib.tally (step S) (fun w action _ => rollback (ids fb.firestore).card w action)
      (initial fb devices rows) as = 0 :=
    Lib.tally_eq_zero (hkept.mono fun w action w' hnot => if_neg hnot)
  have hlength := length_le_of_rollbacks hrun
  rw [hnone, Nat.add_zero] at hlength
  exact ⟨hlength, contentWrites_le hrun⟩

/-- A collection with one document, whose thumbnail is there. -/
def oneDocument : Firebase :=
  { Firebase.empty with
    firestore := Firestore.empty.set ["Posts", "d"] (Document.empty.merge
      [("description", .value (.string "A")), ("datePublished", .value (.timestamp 0)),
        ("path", .value (.string "p"))])
    objects := fun name => if name = thumbPath "p" then some ⟨[0xFF], none⟩ else none }

/-- The row of this document, before and after its lookup. -/
def rowBefore : Post := { id := some "d", description := some "A", path := some "p" }

def rowAfter : Post := { rowBefore with imageURL := some "https://storage/thumbs/p_320x200" }

/-- Two devices look up the same thumbnail, and each shows it when it writes the link; the
second write changes nothing at the server, so the news of the first is all there is. -/
def twoLookups : List Action :=
  [.act (.listen 0), .act (.listen 1), .start 0 0 rowBefore, .start 1 1 rowBefore,
    .serve 0 0 .success, .deliver 0 0, .serve 1 0 .success, .deliver 1 0, .serve 0 0 .success,
    .serve 1 0 .success, .act (.listen 0), .start 2 0 rowAfter, .deliver 0 0, .deliver 1 0,
    .act (.listen 1), .start 3 1 rowAfter, .act (.remoteEvent 0 1), .act (.remoteEvent 1 1)]

theorem feed_settles_twoLookups : ∃ w,
    Lib.run (step .plain) (initial oneDocument 2 fun _ => []) twoLookups = some w ∧
      (w.env.clients 0).feed.snapshots = [] ∧ (w.env.clients 1).feed.snapshots = [] ∧
      (w.env.clients 0).feed.rows = [rowAfter] ∧ (w.env.clients 1).feed.rows = [rowAfter] ∧
      contentWrites .plain (initial oneDocument 2 fun _ => []) twoLookups ≤
        (unresolved oneDocument.firestore).card := by
  refine ⟨_, rfl, rfl, rfl, rfl, rfl, ?_⟩
  exact (feed_settles .plain oneDocument 2 (fun _ => []) twoLookups _ rfl (by decide)).2

/-! ## Refused for ever -/

/-- One device shows the feed. -/
def oneDevice (client : FeedClient) : Env :=
  ⟨oneDocument, 1, Function.update (fun _ => startingClient oneDocument.firestore []) 0 client⟩

/-- The row without an image URL is shown, and is to be configured. -/
def unresolvedRow : FeedClient :=
  ⟨⟨[], [rowBefore], [rowBefore]⟩, ⟨oneDocument.firestore, [], []⟩⟩

/-- The error of a write that the security rules do not allow. -/
def permissionDenied : NSError :=
  ⟨"FIRFirestoreErrorDomain", 7, "Missing or insufficient permissions."⟩

/-- The thumbnail of the row is found, and its link is written and shown; the write is refused
and rolled back, and the row is shown without the link again. -/
def refusedTurn : List Action :=
  [.serve 0 0 .success, .deliver 0 0, .act (.listen 0), .start 1 0 rowAfter,
    .serve 0 0 (.failure permissionDenied), .deliver 0 0, .act (.listen 0)]

/-- **A refused write is tried again for ever**: each rollback shows the row without its image
URL, and the row looks its thumbnail up and writes the link once more. -/
theorem exists_endless_refused {w : World} (henv : w.env = oneDevice unresolvedRow)
    (hops : ∃ K, ∀ i, K ≤ i → w.ops i = none) :
    ∃ schedule, Lib.Endless (step .plain) w schedule := by
  obtain ⟨v, hrun, hv⟩ : ∃ v, Lib.run (step .plain) (.initial (oneDevice unresolvedRow))
      (.start 0 0 rowBefore :: refusedTurn) = some v ∧ v.env = oneDevice unresolvedRow := by
    refine ⟨_, rfl, congrArg (Env.mk oneDocument 1) (funext fun device => ?_)⟩
    cases device <;> rfl
  exact Lib.World.exists_endless_of_loop hrun hv henv hops

/-- The feed need not settle: its write may be refused for ever. -/
theorem feedLoops : ¬ ∀ (S : StorageService) (fb : Firebase) (devices : ℕ)
    (rows : Device → List Post),
    (∀ schedule, ¬ Lib.Endless (step S) (initial fb devices rows) schedule) ∧
      ∀ as w, Lib.run (step S) (initial fb devices rows) as = some w →
        contentWrites S (initial fb devices rows) as ≤ (unresolved fb.firestore).card := by
  intro h
  obtain ⟨w, hlisten, henv, hops⟩ : ∃ w, step .plain (initial oneDocument 1 fun _ => [])
      (.act (.listen 0)) = some w ∧ w.env = oneDevice unresolvedRow ∧ ∀ i, w.ops i = none :=
    ⟨_, rfl, rfl, fun _ => rfl⟩
  obtain ⟨schedule, hschedule⟩ := exists_endless_refused henv ⟨0, fun i _ => hops i⟩
  exact (h .plain oneDocument 1 fun _ => []).1 _ (hschedule.cons hlisten)

end FirebaseApps.SociallyUIKit.Feed
