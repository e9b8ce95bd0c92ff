import FirebaseApps.SociallyUIKit.Provenance

/-!
# Socially-UIKit: the writes to the collection

Seen from Firestore, a run of the app is a sequence of writes to `Posts`: a document
is created, its description is set, its thumbnail is linked, or it is deleted.
`writes` reads that sequence off the log, and `step_write` says which step applies
which write, by which operation, and what it does to the documents.
-/

namespace FirebaseApps.SociallyUIKit

open Lib (Task)

variable {S : StorageService} {fb : Firebase} {w w' : World} {action : Action}

/-- An applied write to a document of `Posts`. -/
inductive Write
  | created (d : String) (fields : Fields)
  | described (d : String) (description : String)
  | linked (d : String) (url : String)
  | deleted (d : String)
  deriving DecidableEq, Repr

/-- The id of the document a write is about. -/
def Write.target : Write → String
  | .created d _ | .described d _ | .linked d _ | .deleted d => d

/-- The write that a served request applied, if it is one that took effect. -/
def write? : Entry → Option Write
  | ⟨_, .addData .., ⟨.addDocument _ fields, .documentID d, _⟩⟩ => some (.created d fields)
  | ⟨_, .updatePost _ description, ⟨.setData [_, d] _ _, .success, _⟩⟩ =>
      some (.described d description)
  | ⟨_, .checkImageURL .., ⟨.setData [_, d] [_, (_, .value (.string url))] _, .success, _⟩⟩ =>
      some (.linked d url)
  | ⟨_, .deletePost _, ⟨.deleteDocument [_, d], .success, _⟩⟩ => some (.deleted d)
  | _ => none

/-- The writes applied so far, oldest first. -/
def writes (w : World) : List Write := w.log.filterMap write?

/-- The document `Posts/d`. -/
abbrev document (w : World) (d : String) : Option Document :=
  w.env.firebase.firestore.get ["Posts", d]

/-- What a write does to the documents, and the request and operation it comes from. -/
inductive Applies (S : StorageService) (fs : Firestore) (op : Op) :
    Req → Choice → Write → Firestore → Prop
  | created {path description date data d} (user : Option User)
      (hcall : op.call = .addData path description date data)
      (hhistory : op.history = [ok (upload path data) none])
      (hfresh : ["Posts", d] ∉ fs.used) :
      Applies S fs op (publish path description date user) (.documentID d)
        (.created d (NewPostViewController.newPost description date user path))
        (fs.set ["Posts", d]
          (Document.empty.merge (NewPostViewController.newPost description date user path)))
  | described {post description d} (hcall : op.call = .updatePost post description)
      (hid : post.id = some d) :
      Applies S fs op (describe d description) .success (.described d description)
        (fs.set ["Posts", d] (((fs.get ["Posts", d]).getD .empty).merge
          [("description", .value (.string description))]))
  | linked {post path d} (hcall : op.call = .checkImageURL post path) (hid : post.id = some d) :
      Applies S fs op (link S d path) .success (.linked d (S.downloadURL (thumbPath path)))
        (fs.set ["Posts", d] (((fs.get ["Posts", d]).getD .empty).merge
          (Post.thumbnailFields (S.downloadURL (thumbPath path)))))
  | deleted {post d} (hcall : op.call = .deletePost post) (hid : post.id = some d) :
      Applies S fs op (.deleteDocument ["Posts", d]) .success (.deleted d)
        (fs.remove ["Posts", d])

/-- A request that a call waits for is a write that takes effect, or leaves the
documents alone. -/
theorem serve_write {W : Option User → Prop} {op : Op} {r : Req} {choice : Choice}
    {fb fb' : Firebase} {a : Ans r} (i : ℕ) (hw : Waiting S W op.call op.history r)
    (hr : fb.serve S op.client r choice = some (fb', a)) :
    (fb'.firestore = fb.firestore ∧ write? ⟨i, op.call, ⟨r, choice, a⟩⟩ = none) ∨
    ∃ write, write? ⟨i, op.call, ⟨r, choice, a⟩⟩ = some write ∧
      Applies S fb.firestore op r choice write fb'.firestore := by
  obtain ⟨client, call, origin, history, outs, tasks⟩ := op
  dsimp only at hw hr ⊢
  have hsettled := Firebase.settled_of_serve hr
  cases hw with
  | upload => cases hsettled <;> exact .inl ⟨rfl, rfl⟩
  | publish user _ =>
      cases hsettled with
      | failed => exact .inl ⟨rfl, rfl⟩
      | addDocument hfresh => exact .inr ⟨_, rfl, .created user rfl rfl hfresh⟩
  | lookup => cases hsettled <;> exact .inl ⟨rfl, rfl⟩
  | link hid =>
      cases hsettled with
      | failed => exact .inl ⟨rfl, rfl⟩
      | setData => exact .inr ⟨_, rfl, .linked rfl hid⟩
  | describe hid =>
      cases hsettled with
      | failed => exact .inl ⟨rfl, rfl⟩
      | setData => exact .inr ⟨_, rfl, .described rfl hid⟩
  | readBack hid => cases hsettled <;> exact .inl ⟨rfl, rfl⟩
  | delete hid =>
      cases hsettled with
      | failed => exact .inl ⟨rfl, rfl⟩
      | deleteDocument => exact .inr ⟨_, rfl, .deleted rfl hid⟩
  | deleteImage hid hurl => cases hsettled <;> exact .inl ⟨rfl, rfl⟩

/-- **What a step writes.**  A step writes nothing to `Posts`, or it serves one write
of one operation. -/
theorem step_write {W : Option User → Option User → Prop} (hcode : OnCode S W w)
    (hs : step S w action = some w') :
    (w'.env.firebase.firestore = w.env.firebase.firestore ∧ writes w' = writes w) ∨
    ∃ i j choice op r callback write, action = .serve i j choice ∧ w.ops i = some op ∧
      op.tasks[j]? = some (.waiting r callback) ∧ writes w' = writes w ++ [write] ∧
      Applies S w.env.firebase.firestore op r choice write w'.env.firebase.firestore := by
  rcases Lib.World.step_cases hs with ⟨i, device, call, env, rfl, hi, ha, rfl⟩ |
    ⟨i, j, choice, op, r, callback, env, a, rfl, hi, ht, hr, rfl⟩ |
    ⟨i, j, op, code, rfl, hi, ht, rfl⟩ | ⟨a, env, rfl, ha, rfl⟩
  · refine .inl ⟨?_, rfl⟩
    rw [Lib.World.env_resume, (firebase_exec _ _ _).1, (accept_eq ha).1]
  · obtain ⟨firebase, hfb, rfl⟩ := serve_eq_some hr
    have hlog :
        writes (w.answer i j op { w.env with firebase := firebase } r choice a (callback a)) =
        writes w ++ (write? ⟨i, op.call, ⟨r, choice, a⟩⟩).toList := by
      cases hw : write? ⟨i, op.call, ⟨r, choice, a⟩⟩ <;> simp [writes, hw]
    rcases serve_write i (hcode.waiting hi ht) hfb with ⟨hfs, hnone⟩ | ⟨write, hsome, happ⟩
    · exact .inl ⟨hfs, by rw [hlog, hnone, Option.toList_none, List.append_nil]⟩
    · exact .inr ⟨i, j, choice, op, r, callback, write, rfl, hi, ht, by rw [hlog, hsome]; rfl,
        happ⟩
  · refine .inl ⟨?_, rfl⟩
    rw [Lib.World.env_resume, (firebase_exec _ _ _).1]
  · refine .inl ⟨?_, rfl⟩
    cases a with
    | snapshot device => obtain rfl := Option.some.inj ha; rfl
    | signIn device user => obtain rfl := Option.some.inj ha; rfl
    | signOut device => obtain rfl := Option.some.inj ha; rfl
    | thumbnail name =>
        obtain ⟨firebase, hm, rfl⟩ := Option.map_eq_some_iff.mp ha
        obtain ⟨o, -, rfl⟩ := Option.map_eq_some_iff.mp hm
        rfl

/-- Writes are never taken back. -/
theorem writes_subset {W : Option User → Option User → Prop} (hcode : OnCode S W w)
    (hs : step S w action = some w') : ∀ write ∈ writes w, write ∈ writes w' := by
  intro write h
  rcases step_write hcode hs with ⟨-, heq⟩ | ⟨_, _, _, _, _, _, _, -, -, -, heq, -⟩
  · rwa [heq]
  · rw [heq]
    exact List.mem_append_left _ h

/-- A write leaves the other documents alone. -/
theorem Applies.frame {fs fs' : Firestore} {op : Op} {r : Req} {choice : Choice}
    {write : Write} {d : String}
    (h : Applies S fs op r choice write fs') (hd : d ≠ write.target) :
    fs'.get ["Posts", d] = fs.get ["Posts", d] := by
  cases h <;> simp_all [Write.target]

/-- After a write its document exists, unless the write deletes it. -/
theorem Applies.exists_target {fs fs' : Firestore} {op : Op} {r : Req} {choice : Choice}
    {write : Write}
    (h : Applies S fs op r choice write fs') :
    (fs'.get ["Posts", write.target]).isSome ∨ ∃ d, write = .deleted d := by
  cases h with
  | deleted hcall hid => exact .inr ⟨_, rfl⟩
  | _ => exact .inl (by simp [Write.target])

/-- Used paths stay used. -/
theorem Applies.used_subset {fs fs' : Firestore} {op : Op} {r : Req} {choice : Choice}
    {write : Write}
    (h : Applies S fs op r choice write fs') : ∀ p ∈ fs.used, p ∈ fs'.used := by
  cases h <;> exact fun p hp => List.mem_cons_of_mem _ hp

theorem used_subset {W : Option User → Option User → Prop} (hcode : OnCode S W w)
    (hs : step S w action = some w') :
    ∀ p ∈ w.env.firebase.firestore.used, p ∈ w'.env.firebase.firestore.used := by
  rcases step_write hcode hs with ⟨heq, -⟩ | ⟨_, _, _, _, _, _, _, -, -, -, -, happ⟩
  · rw [heq]
    exact fun _ hp => hp
  · exact happ.used_subset

/-- A post of the feed is decoded from a document that exists. -/
theorem mem_feed {fs : Firestore} {p : Post} (h : p ∈ feed fs) :
    ∃ d data, fs.get ["Posts", d] = some data ∧ Post.initDocument d data = some p := by
  obtain ⟨⟨d, data⟩, hmem, hp⟩ := List.mem_filterMap.mp h
  exact ⟨d, data, Firestore.mem_documents.mp (List.mem_filter.mp hmem).1, hp⟩

end FirebaseApps.SociallyUIKit
