import FirebaseApps.NoteApp.Collection

/-!
# NoteApp: note lists over the map

Any number of view models show the notes of an account, act on them by position and
have writes under way.  Each delivery shows the map as it was when the snapshot was
taken: one note for each document, with its id and title.  So the positions that
`deleteData(at:)` is given stand for ids of documents, however old the list is, and
its deletions hit those documents (`refinesMap_reachable`).
-/

namespace FirebaseApps.NoteApp

open Relation (ReflTransGen)

variable {S : StorageService} {fb : Firebase} {w w' : World} {env env' : Env} {action : Action}
variable {u : String}

/-! ## Decoding -/

theorem Note.id_decode {documentID : String} {data : Document} {note : Note}
    (h : Note.decode documentID data = some note) : note.id = some documentID := by
  unfold Note.decode at h
  split at h <;> simp only [Option.some.injEq, reduceCtorEq] at h <;> rw [← h]

/-- No note is dropped by the decoding. -/
theorem IsNote.decode {doc : Document} (h : IsNote doc) (documentID : String) :
    Note.decode documentID doc = some ⟨some documentID, doc.string "title"⟩ := by
  obtain ⟨title, htitle⟩ := h.title
  simp [Note.decode, htitle, Document.string, Value.asString]

/-- The notes of a snapshot. -/
def Snapshot.notes (s : Snapshot) : List Note :=
  s.documents.filterMap fun doc => Note.decode doc.1 doc.2

/-- A note list shows a snapshot of the notes of `u`: in its order, it has one note for
each document that the map held, with its id and title. -/
structure Shows (notes : List Note) (s : Snapshot) (u : String) : Prop where
  eq : notes = s.documents.map fun doc => ⟨some doc.1, titles s.server u doc.1⟩
  held : ∀ id, id ∈ s.documents.map Prod.fst ↔ (titles s.server u id).isSome
  nodup : (notes.map Note.id).Nodup

/-- The notes of a snapshot show it. -/
theorem Snapshot.shows (s : Snapshot) (hs : NotesOnly u s.server) (hu : s.collection = posts u) :
    Shows s.notes s u := by
  have heq : s.notes = s.documents.map fun doc => ⟨some doc.1, titles s.server u doc.1⟩ := by
    rw [notes, ← List.filterMap_eq_map]
    refine List.filterMap_congr fun doc hdoc => ?_
    have hget : s.server.get (posts u ++ [doc.1]) = some doc.2 := by
      rw [← hu]
      exact Firestore.mem_documents.mp hdoc
    rw [(hs doc.1 doc.2 hget).decode]
    simp [titles, hget]
  refine ⟨heq, fun id => ?_, ?_⟩
  · constructor
    · intro hid
      obtain ⟨⟨id', doc⟩, hdoc, rfl⟩ := List.mem_map.mp hid
      have hget := Firestore.mem_documents.mp hdoc
      rw [hu] at hget
      rw [Option.isSome_iff_ne_none, ne_eq, hs.titles_eq_none, hget]
      simp
    · intro hsome
      obtain ⟨title, htitle⟩ := Option.isSome_iff_exists.mp hsome
      obtain ⟨doc, hget, -⟩ := Option.bind_eq_some_iff.mp htitle
      refine List.mem_map.mpr ⟨(id, doc), Firestore.mem_documents.mpr ?_, rfl⟩
      rw [hu]
      exact hget
  · have hids : s.notes.map Note.id = (s.documents.map Prod.fst).map some := by
      rw [heq, List.map_map, List.map_map]
      rfl
    rw [hids]
    exact (s.server.nodup_documents _).map (Option.some_injective _)

/-! ## View models and their snapshots -/

/-- Listeners, snapshots and note lists belong to the reference of their view model;
the servers of the snapshots satisfy `past`. -/
structure Bound (past : Firestore → Prop) (env : Env) : Prop where
  listener : ∀ l ∈ env.listeners,
    (env.screens.viewModels l.viewModel).databaseReference = some (some l.collection)
  snapshot : ∀ s ∈ env.snapshots,
    (env.screens.viewModels s.viewModel).databaseReference = some (some s.collection)
  server : ∀ s ∈ env.snapshots, past s.server
  notes : ∀ m, (env.screens.viewModels m).notes = [] ∨
    ∃ s ∈ env.snapshots, s.viewModel = m ∧ (env.screens.viewModels m).notes = s.notes

theorem bound_initial (past : Firestore → Prop) (fb : Firebase) : Bound past (initial fb).env where
  listener l h := by cases h
  snapshot s h := by cases h
  server s h := by cases h
  notes m := .inl rfl

/-- Only a reference that was never used changes. -/
theorem Bound.load {past : Firestore → Prop} (h : Bound past env) {device : Device} {m : ℕ}
    (hlive : env.screens.live device = some m) : Bound past (env.load device) := by
  unfold Env.load
  split
  next => exact h
  next hcached =>
    rw [env.screens.viewModel_of_live hlive] at hcached
    have hviewModels : ∀ n, (env.screens.viewModels n).databaseReference ≠ none →
        (env.emit device
          (.load (NoteViewModel.makeReference (env.view device)))).screens.viewModels n =
          env.screens.viewModels n := by
      intro n hn
      rw [Env.emit, env.screens.viewModels_setLive hlive, Function.update_of_ne]
      rintro rfl
      exact hn hcached
    refine ⟨fun l hl => ?_, fun s hs => ?_, h.server, fun n => ?_⟩
    · rw [hviewModels _ (by rw [h.listener l hl]; simp)]
      exact h.listener l hl
    · rw [hviewModels _ (by rw [h.snapshot s hs]; simp)]
      exact h.snapshot s hs
    · rw [Env.emit, env.screens.viewModels_setLive hlive]
      by_cases hn : n = m
      · subst hn
        rw [Function.update_self, env.screens.viewModel_of_live hlive]
        exact h.notes n
      · rw [Function.update_of_ne hn]
        exact h.notes n

theorem Bound.move {past : Firestore → Prop} (h : Bound past env)
    (hpast : past env.firebase.firestore) (hm : Move env env') : Bound past env' := by
  cases hm with
  | load hlive => exact h.load hlive
  | @listen d m collection hlive hcached =>
      refine ⟨fun l hl => ?_, h.snapshot, h.server, h.notes⟩
      rcases List.mem_append.mp hl with hl | hl
      · exact h.listener l hl
      · obtain rfl := List.mem_singleton.mp hl
        exact hcached
  | signOut => exact ⟨h.listener, h.snapshot, h.server, h.notes⟩
  | listenToAuthState => exact ⟨h.listener, h.snapshot, h.server, h.notes⟩
  | listenerError =>
      exact ⟨fun l hl => h.listener l (List.mem_filter.mp hl).1, h.snapshot, h.server, h.notes⟩
  | @authState d =>
      have hviewModels := (env.screens.live_setUser d (env.firebase.currentUser d)).2.1
      exact ⟨fun l hl => by rw [hviewModels]; exact h.listener l hl,
        fun s hs => by rw [hviewModels]; exact h.snapshot s hs, h.server,
        fun m => by rw [hviewModels]; exact h.notes m⟩
  | @takeSnapshot l hl =>
      refine ⟨h.listener, fun s hs => ?_, fun s hs => ?_, fun m => ?_⟩
      · rcases List.mem_append.mp hs with hs | hs
        · exact h.snapshot s hs
        · obtain rfl := List.mem_singleton.mp hs
          exact h.listener l hl
      · rcases List.mem_append.mp hs with hs | hs
        · exact h.server s hs
        · obtain rfl := List.mem_singleton.mp hs
          exact hpast
      · rcases h.notes m with hnil | ⟨s, hs, hm⟩
        · exact .inl hnil
        · exact .inr ⟨s, List.mem_append_left _ hs, hm⟩
  | @deliver s hm hs =>
      have hreference : ∀ n, ((env.screens.setViewModel s.viewModel hm
          ((env.screens.viewModels s.viewModel).receive
            (some s.documents))).viewModels n).databaseReference =
          (env.screens.viewModels n).databaseReference := by
        intro n
        by_cases hn : n = s.viewModel
        · subst hn
          simp [Screens.setViewModel, NoteViewModel.receive]
        · simp [Screens.setViewModel, hn]
      refine ⟨fun l hl => (hreference _).trans (h.listener l hl),
        fun t ht => (hreference _).trans (h.snapshot t ht), h.server, fun n => ?_⟩
      by_cases hn : n = s.viewModel
      · subst hn
        refine .inr ⟨s, hs, rfl, ?_⟩
        simp [Screens.setViewModel, NoteViewModel.receive, Snapshot.notes]
      · simpa [Screens.setViewModel, hn] using h.notes n

/-- Every note on a list has the id of its document. -/
def Identified (env : Env) : Prop :=
  ∀ m, ∀ note ∈ (env.screens.viewModels m).notes, ∃ id, note.id = some id

theorem Bound.identified {past : Firestore → Prop} (h : Bound past env) : Identified env := by
  intro m note hnote
  rcases h.notes m with hnil | ⟨s, -, -, heq⟩
  · rw [hnil] at hnote
    cases hnote
  · rw [heq] at hnote
    obtain ⟨doc, -, hdecode⟩ := List.mem_filterMap.mp hnote
    exact ⟨doc.1, Note.id_decode hdecode⟩

/-! ## Runs -/

/-- The notes of `u` at some earlier moment of the run: the map is the replay of the
first of the writes. -/
def Past (fb : Firebase) (u : String) (w : World) (fs : Firestore) : Prop :=
  NotesOnly u fs ∧ ∃ ws, ws <+: writes u w ∧ titles fs u = Lib.replay (titles fb.firestore u) ws

/-- What holds in every run of the app. -/
structure Listed (S : StorageService) (fb : Firebase) (u : String) (w : World) : Prop where
  calls : Calls w
  replayed : Replayed fb u w
  bound : Bound (Past fb u w) w.env
  atOnce : Lib.World.AtOnce (host S) Identified w

theorem Replayed.past (h : Replayed fb u w) : Past fb u w w.env.firebase.firestore :=
  ⟨h.notesOnly, _, List.prefix_rfl, h.replay⟩

theorem listed_initial (S : StorageService) (h : NotesOnly u fb.firestore) :
    Listed S fb u (initial fb) where
  calls := calls_initial fb
  replayed := replayed_initial h
  bound := bound_initial _ fb
  atOnce := Lib.World.atOnce_initial _

theorem bound_step (h : Bound (Past fb u w) w.env) (hrep : Replayed fb u w) (hcalls : Calls w)
    (hs : NoteApp.step S w action = some w') : Bound (Past fb u w') w'.env := by
  rcases env_step hcalls.asked hs with ⟨i, j, choice, op, r, a, firebase, rfl, hserved⟩ |
    ⟨-, hmoves, hlog⟩
  · -- the past goes on, and the snapshots are as they were
    have hpast : ∀ fs, Past fb u w fs → Past fb u w' fs := by
      rintro fs ⟨hnotes, ws, hprefix, heq⟩
      refine ⟨hnotes, ws, hprefix.trans ?_, heq⟩
      rw [writes, writes, hserved.log_eq, List.filterMap_append]
      exact List.prefix_append _ _
    rw [hserved.env_eq]
    exact ⟨h.listener, h.snapshot, fun s hs => hpast _ (h.server s hs), h.notes⟩
  · have hpast : Past fb u w' = Past fb u w := by
      funext fs
      simp only [Past, writes, hlog]
    rw [hpast]
    have hboth : Bound (Past fb u w) w'.env ∧ Past fb u w w'.env.firebase.firestore := by
      generalize w'.env = env' at hmoves
      induction hmoves with
      | refl => exact ⟨h, hrep.past⟩
      | tail _ hmove ih => exact ⟨ih.1.move ih.2 hmove, hmove.firestore.symm ▸ ih.2⟩
    exact hboth.1

theorem Listed.step (h : Listed S fb u w) (hs : NoteApp.step S w action = some w') :
    Listed S fb u w' where
  calls := h.calls.step hs
  replayed := h.replayed.step h.calls.asked hs
  bound := bound_step h.bound h.replayed h.calls hs
  atOnce := h.atOnce.step h.calls.accounted h.bound.identified hs

theorem listed_reachable (hfb : NotesOnly u fb.firestore) (h : Reachable S fb w) :
    Listed S fb u w :=
  Lib.Reachable.invariant (P := Listed S fb u) h (listed_initial S hfb)
    fun _ _ _ hl hs => hl.step hs

/-! ## The lists and the map -/

/-- What the note lists and the collection of `u` have to do with its map. -/
structure RefinesMap (S : StorageService) (fb : Firebase) (u : String) (w : World) : Prop where
  /-- The writes are applied to the map one at a time. -/
  replay : titles w.env.firebase.firestore u = Lib.replay (titles fb.firestore u) (writes u w)
  /-- Every document has the title of the last update since it was added, or that of
  its `addData`; a document of the start has its title from there. -/
  title : ∀ id title, titles w.env.firebase.firestore u id = some title →
    (∃ before title₀ after, writes u w = before ++ .add id title₀ :: after ∧
      (∀ write ∈ before, write.key ≠ id) ∧ Lib.Leaves id title₀ after title) ∨
    ∃ title₀, titles fb.firestore u id = some title₀ ∧ Lib.Leaves id title₀ (writes u w) title
  /-- A document that was deleted is gone. -/
  deleted : ∀ id, .delete id ∈ writes u w → w.env.firebase.firestore.get (posts u ++ [id]) = none
  /-- `deleteData(at:)` deletes the documents of the notes that were at these positions. -/
  deletes : ∀ i op indexSet, w.ops i = some op → op.call = .deleteData indexSet →
    op.origin.viewModel.databaseReference = some (some (posts u)) →
    ∃ ids : List String,
      ids.map some =
        indexSet.indices.map (fun index => op.origin.viewModel.notes[index]?.bind Note.id) ∧
      w.requests i = ids.map fun id => .deleteDocument (posts u ++ [id])
  /-- A delivery to a view model of `u` shows the map of the moment of the snapshot. -/
  delivered : ∀ n w' s, step S w (.act (.deliverSnapshot n)) = some w' →
    w.env.snapshots[n]? = some s →
    (w.env.screens.viewModels s.viewModel).databaseReference = some (some (posts u)) →
    s.collection = posts u ∧ Past fb u w s.server ∧
      Shows (w'.env.screens.viewModels s.viewModel).notes s u

theorem Listed.deletes (h : Listed S fb u w) {i : ℕ} {op : Op} {indexSet : IndexSet} {c : Path}
    (hop : w.ops i = some op) (hcall : op.call = .deleteData indexSet)
    (hreference : op.origin.viewModel.databaseReference = some (some c)) :
    ∃ ids : List String,
      ids.map some =
        indexSet.indices.map (fun index => op.origin.viewModel.notes[index]?.bind Note.id) ∧
      w.requests i = ids.map fun id => .deleteDocument (c ++ [id]) := by
  have himm : ((host S).code op.call).Immediate := Call.immediate_code (by rw [hcall]; rfl)
  obtain ⟨before, env, hid, horigin, haccept, -, hrequests⟩ := (h.atOnce i op hop himm).work
  replace haccept : before.accept op.client (.deleteData indexSet) = some env := hcall ▸ haccept
  obtain ⟨m, hlive⟩ := live_of_accept rfl haccept
  have hrange : ∀ index ∈ indexSet.indices,
      index < (before.screens.viewModel op.client).notes.length := by
    have hguard := haccept
    simp only [Env.accept, Option.ite_none_right_eq_some] at hguard
    exact hguard.1.2
  obtain rfl := accept_eq haccept
  have hview : op.origin.viewModel = env.screens.viewModel op.client := by rw [horigin]; rfl
  rw [hview] at hreference ⊢
  have hcached : env.reference op.client = some c := by
    simp [Env.reference, NoteViewModel.reference, Env.view, hreference]
  have hids : ∀ note ∈ (env.screens.viewModel op.client).notes, ∃ id, note.id = some id := by
    rw [env.screens.viewModel_of_live hlive]
    exact hid m
  let idAt (index : ℕ) : String :=
    ((env.screens.viewModel op.client).notes[index]?.bind Note.id).getD ""
  refine ⟨indexSet.indices.map idAt, ?_, ?_⟩
  · rw [List.map_map]
    refine List.map_congr_left fun index hindex => ?_
    obtain ⟨note, hget⟩ : ∃ note, (env.screens.viewModel op.client).notes[index]? = some note :=
      ⟨_, List.getElem?_eq_getElem (hrange index hindex)⟩
    obtain ⟨id, hid⟩ := hids note (List.mem_of_getElem? hget)
    simp [idAt, hget, hid]
  · rw [hrequests, hcall, List.map_map]
    exact requests_deleteEach hlive hcached _ hrange

theorem Listed.delivered (h : Listed S fb u w) {n : ℕ} {s : Snapshot}
    (hs : NoteApp.step S w (.act (.deliverSnapshot n)) = some w')
    (hn : w.env.snapshots[n]? = some s)
    (hu : (w.env.screens.viewModels s.viewModel).databaseReference = some (some (posts u))) :
    s.collection = posts u ∧ Past fb u w s.server ∧
      Shows (w'.env.screens.viewModels s.viewModel).notes s u := by
  have hmem := List.mem_of_getElem? hn
  have hcollection : s.collection = posts u := by
    have hreference := h.bound.snapshot s hmem
    rw [hu] at hreference
    exact (Option.some.inj (Option.some.inj hreference)).symm
  have hpast := h.bound.server s hmem
  refine ⟨hcollection, hpast, ?_⟩
  obtain ⟨env, hact, rfl⟩ := Option.map_eq_some_iff.mp hs
  obtain ⟨s', hs', hreceive⟩ := Option.bind_eq_some_iff.mp hact
  obtain rfl : s = s' := Option.some.inj (hn.symm.trans hs')
  unfold Env.receive at hreceive
  split at hreceive
  next hm =>
    obtain rfl := Option.some.inj hreceive
    have hshows := s.shows hpast.1 hcollection
    simpa [Screens.setViewModel, NoteViewModel.receive, Snapshot.notes] using hshows
  next => cases hreceive

/-- **The note lists refine the map**: in every run from a backend where the collection
holds notes, for any number of view models and any order of writes and of snapshots of the
documents of the server. -/
theorem refinesMap_reachable (S : StorageService) (fb : Firebase) (u : String)
    (hfb : NotesOnly u fb.firestore) (h : Reachable S fb w) : RefinesMap S fb u w := by
  have hl : Listed S fb u w := listed_reachable hfb h
  constructor
  · exact hl.replayed.replay
  · intro id title htitle
    rw [hl.replayed.replay] at htitle
    rcases Lib.value_of_replay htitle with ⟨before, title₀, after, heq, hleaves⟩ | hstart
    · exact .inl ⟨before, title₀, after, heq, hl.replayed.first before id title₀ after heq, hleaves⟩
    · exact .inr hstart
  · exact hl.replayed.deleted
  · exact fun i op indexSet hop hcall hreference => hl.deletes hop hcall hreference
  · exact fun n w' s hs hn hu => hl.delivered hs hn hu

/-- The screens of Ana's device: she signs in and opens her notes. -/
def openNotes (device : Device) (i : ℕ) : List Action :=
  [.start i device .listenToAuthState, .start (i + 1) device (.signIn "ana@notes.app" "secret"),
    .serve (i + 1) 0 (.account ⟨"ana", some "ana@notes.app", none⟩), .act (.authState device),
    .start (i + 2) device .fetchData]

/-- Ana's two devices add a note each, and are shown both; one changes the title of the
first note on its list while the other deletes the second. -/
def twoDevices : List Action :=
  openNotes 0 0 ++ openNotes 1 3 ++
  ([.start 6 0 (.addData "milk"), .start 7 1 (.addData "tea"), .serve 6 0 (.documentID "m"),
    .serve 7 0 (.documentID "t"), .act (.takeSnapshot 0), .act (.takeSnapshot 1),
    .act (.deliverSnapshot 1), .act (.deliverSnapshot 0),
    .start 8 1 (.updateData "green tea" "t"), .start 9 0 (.deleteData ⟨[1], by decide⟩),
    .serve 9 0 .success, .serve 8 0 .success, .act (.takeSnapshot 1),
    .act (.deliverSnapshot 2)] : List Action)

theorem refinesMap_twoDevices : ∃ w, Lib.run (step .plain) (initial .empty) twoDevices = some w ∧
    writes "ana" w = [.add "m" "milk", .add "t" "tea", .delete "m", .update "t" "green tea"] ∧
    (w.env.screens.viewModels 0).notes = [⟨some "t", some "tea"⟩, ⟨some "m", some "milk"⟩] ∧
    (w.env.screens.viewModels 1).notes = [⟨some "t", some "green tea"⟩] ∧
    RefinesMap .plain .empty "ana" w := by
  have hempty : NotesOnly "ana" Firebase.empty.firestore := fun id doc h => by cases h
  have h : Reachable .plain .empty _ := ⟨twoDevices, rfl⟩
  exact ⟨_, rfl, rfl, rfl, rfl, refinesMap_reachable .plain .empty "ana" hempty h⟩

end FirebaseApps.NoteApp
