import FirebaseApps.Lib.Replay
import FirebaseApps.NoteApp.Moves

/-!
# NoteApp: the notes of an account as a map

On the server, `Users/<uid>/Posts` is a map from document ids to titles.  `addData`,
`updateData` and `deleteData` write to it; a new document gets an id that was never
used, and an update of a document that is gone fails.  So the map is the replay of the
writes that were applied, and an id that is deleted stays so.
-/

namespace FirebaseApps.NoteApp

open Relation (ReflTransGen)

variable {S : StorageService} {fb : Firebase} {w w' : World} {action : Action} {u id : String}

/-! ## The map -/

/-- The notes of an account as a map from ids to titles. -/
def titles (fs : Firestore) (u : String) : String → Option String := fun id =>
  (fs.get (posts u ++ [id])).bind fun doc => doc.string "title"

/-- A document that `Note` decodes with its title. -/
structure IsNote (doc : Document) : Prop where
  title : ∃ title, doc "title" = some (.string title)

/-- The collection of `u` holds nothing but notes. -/
def NotesOnly (u : String) (fs : Firestore) : Prop :=
  ∀ id doc, fs.get (posts u ++ [id]) = some doc → IsNote doc

/-- Writing a document of some collection. -/
theorem titles_set (fs : Firestore) (collection : Path) (id : String) (doc : Document)
    (u : String) :
    titles (fs.set (collection ++ [id]) doc) u =
      if collection = posts u then Function.update (titles fs u) id (doc.string "title")
      else titles fs u := by
  funext k
  by_cases hc : collection = posts u
  · subst hc
    by_cases hk : k = id
    · simp [titles, hk]
    · simp [titles, hk]
  · simp [titles, hc, List.append_singleton_inj, Ne.symm hc]

/-- Removing a document of some collection. -/
theorem titles_remove (fs : Firestore) (collection : Path) (id u : String) :
    titles (fs.remove (collection ++ [id])) u =
      if collection = posts u then Function.update (titles fs u) id none else titles fs u := by
  funext k
  by_cases hc : collection = posts u
  · subst hc
    by_cases hk : k = id
    · simp [titles, hk]
    · simp [titles, hk]
  · simp [titles, hc, List.append_singleton_inj, Ne.symm hc]

/-- Where there are only notes, every document has a title on the map. -/
theorem NotesOnly.titles_eq_none {fs : Firestore} (h : NotesOnly u fs) :
    titles fs u id = none ↔ fs.get (posts u ++ [id]) = none := by
  cases hget : fs.get (posts u ++ [id]) with
  | none => simp [titles, hget]
  | some doc =>
      obtain ⟨title, htitle⟩ := (h id doc hget).title
      simp [titles, hget, Document.string, htitle, Value.asString]

/-- A document is a note once its title has been written. -/
theorem isNote_merge (doc : Document) (title : String) : IsNote (doc.merge (titleField title)) :=
  ⟨title, rfl⟩

/-- The write to the collection of `u` that a served request was. -/
def write? (u : String) (e : Entry) : Option (Lib.MapWrite String String) :=
  match e.call, e.event with
  | .addData title, ⟨.addDocument collection _, .documentID id, _⟩ =>
      if collection = posts u then some (.add id title) else none
  | .updateData title id, ⟨.updateData p _, .success, _⟩ =>
      if p = posts u ++ [id] then some (.update id title) else none
  | .deleteData _, ⟨.deleteDocument p, .success, _⟩ =>
      p.getLast?.bind fun id => if p = posts u ++ [id] then some (.delete id) else none
  | _, _ => none

/-- The writes applied to the collection of `u`, oldest first. -/
def writes (u : String) (w : World) : List (Lib.MapWrite String String) :=
  w.log.filterMap (write? u)

/-! ## Requests and the documents -/

/-- What a served request of a call does to the documents. -/
inductive Applied (fs : Firestore) : Call → Lib.Event Req Ans Choice → Firestore → Prop
  | nothing {call e} (hnone : ∀ u i, write? u ⟨i, call, e⟩ = none) : Applied fs call e fs
  | profile {email password uid} :
      Applied fs (.signUp email password)
        ⟨.setData ["Users", uid] (AuthViewModel.profile email uid) false, .success, none⟩
        (fs.set ["Users", uid] (Document.empty.merge (AuthViewModel.profile email uid)))
  | add {title collection id} (hfresh : collection ++ [id] ∉ fs.used) :
      Applied fs (.addData title)
        ⟨.addDocument collection (titleField title), .documentID id, none⟩
        (fs.set (collection ++ [id]) (Document.empty.merge (titleField title)))
  | update {title id collection old} (hold : fs.get (collection ++ [id]) = some old) :
      Applied fs (.updateData title id)
        ⟨.updateData (collection ++ [id]) (titleField title), .success, none⟩
        (fs.set (collection ++ [id]) (old.merge (titleField title)))
  | delete {indexSet collection id} :
      Applied fs (.deleteData indexSet) ⟨.deleteDocument (collection ++ [id]), .success, none⟩
        (fs.remove (collection ++ [id]))

/-- Served requests are applied. -/
theorem applied_of_serve {fb fb' : Firebase} {device : Device} {call : Call} {r : Req}
    {choice : Choice} {a : Ans r} (hasks : Asks call r)
    (h : fb.serve S device r choice = some (fb', a)) :
    Applied fb.firestore call ⟨r, choice, a⟩ fb'.firestore := by
  cases hasks with
  | signIn =>
      rw [Firebase.firestore_serve h rfl]
      exact .nothing fun u i => rfl
  | createUser =>
      rw [Firebase.firestore_serve h rfl]
      exact .nothing fun u i => rfl
  | profile =>
      cases Firebase.settled_of_serve h with
      | failed => exact .nothing fun u i => rfl
      | setData => exact .profile
  | add =>
      cases Firebase.settled_of_serve h with
      | failed => exact .nothing fun u i => rfl
      | addDocument hfresh => exact .add hfresh
  | update =>
      cases Firebase.settled_of_serve h with
      | failed => exact .nothing fun u i => rfl
      | updateData hold => exact .update hold
  | delete =>
      cases Firebase.settled_of_serve h with
      | failed => exact .nothing fun u i => rfl
      | deleteDocument => exact .delete

section applied
variable {fs fs' : Firestore} {call : Call} {e : Lib.Event Req Ans Choice}

/-- Used paths stay used. -/
theorem Applied.used (h : Applied fs call e fs') : ∀ p ∈ fs.used, p ∈ fs'.used := by
  intro p hp
  cases h <;> simp [hp]

/-- Only notes are written to a collection of notes. -/
theorem Applied.notesOnly (h : Applied fs call e fs') (hn : NotesOnly u fs) : NotesOnly u fs' := by
  intro id doc hget
  cases h with
  | nothing => exact hn id doc hget
  | profile => exact hn id doc (by simpa [posts] using hget)
  | @add title collection id' hfresh =>
      rw [Firestore.get_set] at hget
      split at hget
      · exact Option.some.inj hget ▸ isNote_merge _ title
      · exact hn id doc hget
  | @update title id' collection old hold =>
      rw [Firestore.get_set] at hget
      split at hget
      next hp => exact Option.some.inj hget ▸ isNote_merge old title
      next => exact hn id doc hget
  | @delete indexSet collection id' =>
      rw [Firestore.get_remove] at hget
      split at hget
      · cases hget
      · exact hn id doc hget

/-- A document that is gone does not come back. -/
theorem Applied.gone (h : Applied fs call e fs') (hused : posts u ++ [id] ∈ fs.used)
    (hgone : fs.get (posts u ++ [id]) = none) : fs'.get (posts u ++ [id]) = none := by
  cases h with
  | nothing => exact hgone
  | profile => simpa [posts] using hgone
  | @add title collection id' hfresh =>
      have hne : posts u ++ [id] ≠ collection ++ [id'] := fun heq => hfresh (heq ▸ hused)
      rw [Firestore.get_set, if_neg hne]
      exact hgone
  | @update title id' collection old hold =>
      have hne : posts u ++ [id] ≠ collection ++ [id'] := fun heq => by
        rw [heq, hold] at hgone
        cases hgone
      rw [Firestore.get_set, if_neg hne]
      exact hgone
  | delete => simp [hgone]

/-- **A served request writes to the map what its call says.** -/
theorem Applied.titles (h : Applied fs call e fs') (hn : NotesOnly u fs) (i : ℕ) :
    titles fs' u = match write? u ⟨i, call, e⟩ with
      | some write => write.apply (titles fs u)
      | none => titles fs u := by
  cases h with
  | nothing hnone => rw [hnone u i]
  | profile =>
      funext id
      simp [write?, titles, posts]
  | @add title collection id hfresh =>
      rw [titles_set]
      by_cases hc : collection = posts u
      · simp [write?, hc, Lib.MapWrite.apply, titleField, Document.string, Document.merge,
          Value.asString]
      · simp [write?, hc]
  | @update title id collection old hold =>
      rw [titles_set]
      by_cases hc : collection = posts u
      · subst hc
        obtain ⟨title₀, htitle₀⟩ := (hn id old hold).title
        have hid : NoteApp.titles fs u id = some title₀ := by
          simp [NoteApp.titles, hold, Document.string, htitle₀, Value.asString]
        simp [write?, Lib.MapWrite.apply, hid, titleField, Document.string, Document.merge,
          Value.asString]
      · simp [write?, hc]
  | @delete indexSet collection id =>
      rw [titles_remove]
      by_cases hc : collection = posts u
      · simp [write?, hc, Lib.MapWrite.apply]
      · simp [write?, hc]

/-- A write to the map uses up its id; an addition has a fresh one, and a deletion
leaves no document. -/
theorem Applied.write (h : Applied fs call e fs') {i : ℕ} {write : Lib.MapWrite String String}
    (hw : write? u ⟨i, call, e⟩ = some write) :
    posts u ++ [write.key] ∈ fs'.used ∧
      (∀ id title, write = .add id title → posts u ++ [id] ∉ fs.used) ∧
      ∀ id, write = .delete id → fs'.get (posts u ++ [id]) = none := by
  cases h with
  | nothing hnone =>
      rw [hnone u i] at hw
      cases hw
  | profile => cases hw
  | add hfresh =>
      obtain ⟨rfl, heq⟩ := Option.ite_none_right_eq_some.mp hw
      obtain rfl := Option.some.inj heq
      refine ⟨List.mem_cons_self, ?_, by simp⟩
      rintro id title heq
      obtain ⟨rfl, -⟩ := Lib.MapWrite.add.inj heq
      exact hfresh
  | update hold =>
      obtain ⟨heq, hupdate⟩ := Option.ite_none_right_eq_some.mp hw
      obtain rfl := Option.some.inj hupdate
      exact ⟨heq ▸ List.mem_cons_self, by simp, by simp⟩
  | @delete indexSet collection id =>
      obtain ⟨id', -, hw⟩ := Option.bind_eq_some_iff.mp hw
      obtain ⟨heq, hdelete⟩ := Option.ite_none_right_eq_some.mp hw
      obtain rfl := Option.some.inj hdelete
      refine ⟨heq ▸ List.mem_cons_self, by simp, ?_⟩
      rintro id hid
      obtain rfl := Lib.MapWrite.delete.inj hid
      simp [heq]

end applied

/-! ## Runs -/

/-- The collection of `u` is the replay of the writes applied to it. -/
structure Replayed (fb : Firebase) (u : String) (w : World) : Prop where
  notesOnly : NotesOnly u w.env.firebase.firestore
  replay : titles w.env.firebase.firestore u = Lib.replay (titles fb.firestore u) (writes u w)
  used : ∀ write ∈ writes u w, posts u ++ [write.key] ∈ w.env.firebase.firestore.used
  /-- An id is added before anything else is done with it. -/
  first : ∀ before id title after, writes u w = before ++ .add id title :: after →
    ∀ write ∈ before, write.key ≠ id
  deleted : ∀ id, .delete id ∈ writes u w → w.env.firebase.firestore.get (posts u ++ [id]) = none

theorem replayed_initial (h : NotesOnly u fb.firestore) : Replayed fb u (initial fb) where
  notesOnly := h
  replay := rfl
  used write h := by cases h
  first before id title after h := by simp [writes, initial, Lib.World.initial] at h
  deleted id h := by cases h

theorem Replayed.step (h : Replayed fb u w) (hasked : Lib.World.Asked Asks w)
    (hs : NoteApp.step S w action = some w') : Replayed fb u w' := by
  rcases env_step hasked hs with ⟨i, j, choice, op, r, a, firebase, rfl, hserved⟩ |
    ⟨-, hmoves, hlog⟩
  · have happ : Applied w.env.firebase.firestore op.call ⟨r, choice, a⟩
        w'.env.firebase.firestore := by
      rw [hserved.env_eq]
      exact applied_of_serve hserved.asks hserved.serve
    have hwrites : writes u w' =
        writes u w ++ (write? u ⟨i, op.call, ⟨r, choice, a⟩⟩).toList := by
      rw [writes, hserved.log_eq, List.filterMap_append, writes]
      cases hw : write? u ⟨i, op.call, ⟨r, choice, a⟩⟩ <;> simp [hw]
    constructor
    · exact happ.notesOnly h.notesOnly
    · rw [happ.titles h.notesOnly i, hwrites, h.replay]
      cases write? u ⟨i, op.call, ⟨r, choice, a⟩⟩ <;> simp
    · intro write hmem
      rw [hwrites, List.mem_append, Option.mem_toList] at hmem
      rcases hmem with hmem | hmem
      · exact happ.used _ (h.used write hmem)
      · exact (happ.write hmem).1
    · intro before id title after heq write hmem
      rw [hwrites] at heq
      cases hw : write? u ⟨i, op.call, ⟨r, choice, a⟩⟩ with
      | none =>
          rw [hw, Option.toList_none, List.append_nil] at heq
          exact h.first before id title after heq write hmem
      | some new =>
          rw [hw, Option.toList_some] at heq
          rcases List.eq_nil_or_concat after with rfl | ⟨rest, last, rfl⟩
          · -- the write is the addition, whose id is fresh
            obtain ⟨rfl, rfl⟩ := List.append_singleton_inj.mp heq
            rintro rfl
            exact (happ.write hw).2.1 _ title rfl (h.used write hmem)
          · rw [List.concat_eq_append, ← List.cons_append, ← List.append_assoc] at heq
            exact h.first before id title rest (List.append_singleton_inj.mp heq).1 write hmem
    · intro id hmem
      rw [hwrites, List.mem_append, Option.mem_toList] at hmem
      rcases hmem with hmem | hmem
      · exact happ.gone (h.used _ hmem) (h.deleted id hmem)
      · exact (happ.write hmem).2.2 id rfl
  · have hfs : w'.env.firebase.firestore = w.env.firebase.firestore := by
      generalize w'.env = env' at hmoves
      induction hmoves with
      | refl => rfl
      | tail _ hmove ih => exact hmove.firestore.trans ih
    have hwrites : writes u w' = writes u w := by rw [writes, hlog, writes]
    constructor
    · rw [hfs]; exact h.notesOnly
    · rw [hfs, hwrites]; exact h.replay
    · rw [hfs, hwrites]; exact h.used
    · rw [hwrites]; exact h.first
    · rw [hfs, hwrites]; exact h.deleted

end FirebaseApps.NoteApp
