import FirebaseApps.SociallyUIKit.Edits
import FirebaseApps.SociallyUIKit.Images

/-!
# Socially-UIKit: is a resolved thumbnail final?

The field `path` marks a document whose thumbnail is still to be looked up: `reloadData`
calls `checkImageURL` for every post that has one.  `checkImageURL` is meant to clear
the mark when it writes the image URL, but deletes a field with a misspelt name, so the
mark stays, and every refresh looks the thumbnail up and writes it again.

Thumbnails are final along a run if and only if none is linked in it (`always_final_iff`).
-/

namespace FirebaseApps.SociallyUIKit

open Lib (Always StepsMeet)

variable {S : StorageService} {fb : Firebase} {w w' : World} {action : Action} {d : String}

/-! ## Runs without deletions -/

/-- One step of the app in which nobody makes a deletion. -/
def editingStep (S : StorageService) (w : World) : Action → Option World
  | .start _ _ (.deletePost _) => none
  | action => step S w action

theorem step_of_editing (hs : editingStep S w action = some w') : step S w action = some w' := by
  unfold editingStep at hs
  split at hs
  · cases hs
  · exact hs

/-- No operation is a deletion. -/
def NoDeletes (w : World) : Prop := ∀ i op post, w.ops i = some op → op.call ≠ .deletePost post

theorem NoDeletes.step (h : NoDeletes w) (hs : editingStep S w action = some w') :
    NoDeletes w' := by
  intro i op' post hop' hcall
  rcases Lib.World.op_of_step (step_of_editing hs) hop' with ⟨_, rfl, -⟩ | ⟨op, hop, hfol⟩
  · rw [hcall] at hs
    cases hs
  · exact h i op post hop (hfol.call ▸ hcall)

/-! ## `reloadData` -/

/-- `reloadData()` once its query is answered: the calls it makes for these posts. -/
def FeedViewController.reloadData (posts : List Post) : List Call :=
  posts.filterMap fun post => post.path.map fun path => .checkImageURL post path

/-- The call is a thumbnail lookup. -/
def Call.isLookup : Call → Bool
  | .checkImageURL .. => true
  | _ => false

/-- A world, and the calls that `reloadData` runs are still about to make. -/
structure Refreshing where
  world : World
  pending : List (Device × Call)

/-- What goes on when there are only `reloadData` runs. -/
inductive Refresh
  /-- The query of a `reloadData` run is answered on a device. -/
  | reload (device : Device)
  /-- One of its calls is made, as operation `i`. -/
  | lookup (n i : ℕ)
  /-- A request of a lookup is served. -/
  | serve (i j : ℕ) (choice : Choice)
  /-- A callback of a lookup runs. -/
  | deliver (i j : ℕ)

/-- The operation is a thumbnail lookup. -/
def LookingUp (w : World) (i : ℕ) : Bool := (w.ops i).any fun op => op.call.isLookup

def Refreshing.step (S : StorageService) (s : Refreshing) : Refresh → Option Refreshing
  | .reload device =>
      (SociallyUIKit.step S s.world (.act (.snapshot device))).map fun w =>
        ⟨w, s.pending ++ (FeedViewController.reloadData
          (feed s.world.env.firebase.firestore)).map fun call => (device, call)⟩
  | .lookup n i =>
      s.pending[n]?.bind fun call =>
        (SociallyUIKit.step S s.world (.start i call.1 call.2)).map fun w =>
          ⟨w, s.pending.eraseIdx n⟩
  | .serve i j choice =>
      if LookingUp s.world i then
        (SociallyUIKit.step S s.world (.serve i j choice)).map fun w => ⟨w, s.pending⟩
      else none
  | .deliver i j =>
      if LookingUp s.world i then
        (SociallyUIKit.step S s.world (.deliver i j)).map fun w => ⟨w, s.pending⟩
      else none

/-! ## Final thumbnails -/

/-- Every document of `Posts` has its image URL. -/
def AllResolved (w : World) : Prop :=
  ∀ d doc, document w d = some doc → (doc "imageURL").isSome

/-- No thumbnail lookup is in flight. -/
def NoLookup (w : World) : Prop :=
  ∀ i op, w.ops i = some op → op.call.isLookup → op.tasks = []

/-- Any number of `reloadData` runs starts no lookup and writes nothing. -/
def Quiet (S : StorageService) (w : World) : Prop :=
  ∀ as s, Lib.run (Refreshing.step S) ⟨w, []⟩ as = some s →
    s.world.ops = w.ops ∧ s.pending = [] ∧ writes s.world = writes w

/-- A resolved thumbnail is final. -/
structure Final (S : StorageService) (w : World) : Prop where
  /-- A linked document has its image URL and no path. -/
  linked : ∀ d url, .linked d url ∈ writes w →
    ∃ doc, document w d = some doc ∧ (doc "imageURL").isSome ∧ doc "path" = none
  quiet : AllResolved w → NoLookup w → Quiet S w

/-! ## The mark stays -/

/-- The document exists and has a path. -/
def HasPath (w : World) (d : String) : Prop :=
  ∃ doc, document w d = some doc ∧ (doc "path").isSome

section applies
variable {fs fs' : Firestore} {op : Op} {r : Req} {choice : Choice} {write : Write}

/-- A deletion is written by `deletePost`. -/
theorem Applies.call_of_deleted (h : Applies S fs op r choice (.deleted d) fs') :
    ∃ post, op.call = .deletePost post := by
  cases h with
  | deleted hcall hid => exact ⟨_, hcall⟩

/-- A thumbnail is linked by a lookup for a post about that document. -/
theorem Applies.call_of_linked {url : String} (h : Applies S fs op r choice (.linked d url) fs') :
    ∃ post path, op.call = .checkImageURL post path ∧ post.id = some d := by
  cases h with
  | linked hcall hid => exact ⟨_, _, hcall, hid⟩

/-- No write but a deletion touches the path of a document. -/
theorem Applies.path {doc : Document} (h : Applies S fs op r choice write fs')
    (hdel : ∀ d, write ≠ .deleted d) (hdoc : fs.get ["Posts", d] = some doc)
    (hpath : (doc "path").isSome) :
    ∃ doc', fs'.get ["Posts", d] = some doc' ∧ ( doc' "path").isSome := by
  by_cases hd : d = write.target
  · subst hd
    rw [h.change, hdoc]
    cases h with
    | created user hcall hhistory hfresh => exact ⟨_, rfl, rfl⟩
    | described hcall hid => exact ⟨_, rfl, hpath⟩
    | linked hcall hid => exact ⟨_, rfl, hpath⟩
    | deleted hcall hid => exact absurd rfl (hdel _)
  · exact ⟨doc, by rwa [h.frame hd], hpath⟩

/-- A write that gives a document an image URL links it. -/
theorem Applies.imageURL {doc : Document} (h : Applies S fs op r choice write fs')
    (hdoc : fs'.get ["Posts", d] = some doc) (hurl : (doc "imageURL").isSome) :
    (∃ url, write = .linked d url) ∨ ∃ old, fs.get ["Posts", d] = some old ∧
      (old "imageURL").isSome ∧ doc "path" = old "path" := by
  by_cases hd : d = write.target
  · subst hd
    rw [h.change] at hdoc
    cases h with
    | created user hcall hhistory hfresh =>
        obtain rfl := Option.some.inj hdoc
        cases hurl
    | @described post description d' hcall hid =>
        obtain rfl := Option.some.inj hdoc
        -- the write names neither field
        change (((fs.get ["Posts", d']).getD .empty) "imageURL").isSome at hurl
        cases hold : fs.get ["Posts", d'] with
        | none =>
            rw [hold] at hurl
            cases hurl
        | some old =>
            rw [hold] at hurl
            exact .inr ⟨old, hold, hurl, congrArg (fun o => o.getD .empty "path") hold⟩
    | linked hcall hid => exact .inl ⟨_, rfl⟩
    | deleted hcall hid => cases hdoc
  · exact .inr ⟨doc, by rwa [← h.frame hd], hurl, rfl⟩

end applies

theorem HasPath.step (h : HasPath w d) (hcode : OnCode S (fun _ _ => True) w)
    (hno : NoDeletes w) (hs : SociallyUIKit.step S w action = some w') : HasPath w' d := by
  obtain ⟨doc, hdoc, hpath⟩ := h
  rcases step_write hcode hs with ⟨heq, -⟩ | ⟨i, _, _, op, _, _, write, -, hop, -, -, happ⟩
  · exact ⟨doc, by rwa [document, heq], hpath⟩
  · refine happ.path (fun d hdel => ?_) hdoc hpath
    subst hdel
    obtain ⟨post, hcall⟩ := happ.call_of_deleted
    exact hno i op post hop hcall

/-- The invariant behind the condition: whatever has been linked, or is held with a path
to look up, has a path; and a document without one that has an image URL had it before
the run. -/
structure Marked (S : StorageService) (fb : Firebase) (w : World) : Prop where
  traced : Traced S fb w
  noDeletes : NoDeletes w
  posts : Held (fun post => post.path.isSome → ∀ d, post.id = some d → HasPath w d) w
  linked : ∀ d url, .linked d url ∈ writes w → HasPath w d
  resolved : ∀ d doc, document w d = some doc → (doc "imageURL").isSome →
    doc "path" = none ∨ ∃ url, .linked d url ∈ writes w

theorem marked_initial (S : StorageService) (fb : Firebase)
    (hfinal : ∀ d doc, fb.firestore.get ["Posts", d] = some doc → (doc "imageURL").isSome →
      doc "path" = none) : Marked S fb (initial fb) where
  traced := traced_initial S fb
  noDeletes i op post h := by cases h
  posts := held_initial _ fb
  linked d url h := by cases h
  resolved d doc hdoc hurl := .inl (hfinal d doc hdoc hurl)

/-- A document that is linked has a path. -/
theorem Marked.linked_step (h : Marked S fb w) (hs : SociallyUIKit.step S w action = some w')
    (url : String) (hmem : .linked d url ∈ writes w') : HasPath w' d := by
  have hkeep : HasPath w d → HasPath w' d := fun hd => hd.step h.traced.code h.noDeletes hs
  rcases step_write h.traced.code hs with ⟨-, heq⟩ |
    ⟨i, _, _, op, _, _, write, -, hop, -, heq, happ⟩
  · exact hkeep (h.linked d url (heq ▸ hmem))
  · rw [heq, List.mem_append, List.mem_singleton] at hmem
    rcases hmem with hmem | rfl
    · exact hkeep (h.linked d url hmem)
    · -- the lookup was started for a post with a path
      obtain ⟨post, path, hcall, hid⟩ := happ.call_of_linked
      have hpath := h.traced.checked i op post path hop hcall
      exact hkeep (h.posts.called i op post hop (by rw [hcall]; rfl) (by simp [hpath]) d hid)

/-- A document that has an image URL and a path has been linked. -/
theorem Marked.resolved_step (h : Marked S fb w) (hs : SociallyUIKit.step S w action = some w')
    (doc : Document) (hdoc : document w' d = some doc) (hurl : (doc "imageURL").isSome) :
    doc "path" = none ∨ ∃ url, .linked d url ∈ writes w' := by
  rcases step_write h.traced.code hs with ⟨hfs, heq⟩ |
    ⟨_, _, _, op, _, _, write, -, -, -, heq, happ⟩
  · rw [heq]
    exact h.resolved d doc (by rwa [document, ← hfs]) hurl
  · rw [heq]
    rcases happ.imageURL hdoc hurl with ⟨url, rfl⟩ | ⟨old, hold, hsome, hpath⟩
    · exact .inr ⟨url, List.mem_append_right _ List.mem_cons_self⟩
    · rcases h.resolved d old hold hsome with hnone | ⟨url, hmem⟩
      · exact .inl (hpath.trans hnone)
      · exact .inr ⟨url, List.mem_append_left _ hmem⟩

/-- **The invariant is kept by every step.** -/
theorem Marked.step (h : Marked S fb w) (hs : editingStep S w action = some w') :
    Marked S fb w' where
  traced := h.traced.step (step_of_editing hs)
  noDeletes := h.noDeletes.step hs
  posts := by
    have hs' := step_of_editing hs
    refine h.posts.step h.traced.code hs' ?_ ?_ ?_
    · exact fun post hpost hpath d hid =>
        (hpost hpath d hid).step h.traced.code h.noDeletes hs'
    · intro post hpost hpath d hid
      obtain ⟨d', doc, hdoc, hinit⟩ := mem_feed hpost
      obtain rfl := Option.some.inj hinit
      obtain rfl := Option.some.inj hid
      have hfield : (doc "path").isSome := by
        obtain ⟨path, hpath⟩ := Option.isSome_iff_exists.mp hpath
        obtain ⟨v, hv, -⟩ := Option.bind_eq_some_iff.mp hpath
        simp [hv]
      exact HasPath.step ⟨doc, hdoc, hfield⟩ h.traced.code h.noDeletes hs'
    · intro i op post newDescription postId data edited _ _ _ _ _ hedit hpath
      obtain ⟨_, _, _, -, -, -, rfl⟩ := PostService.updatedPost_eq_some hedit
      cases hpath
  linked d url hmem := h.linked_step (step_of_editing hs) url hmem
  resolved d doc hdoc hurl := h.resolved_step (step_of_editing hs) doc hdoc hurl

/-! ## The condition -/

/-- The request is the write of an operation. -/
def isSetData : Req → Bool
  | .setData .. => true
  | _ => false

/-- The action applies the write of a thumbnail lookup. -/
def linksThumbnail (w : World) : Action → Bool
  | .serve i j .success => (w.ops i).any fun op =>
      op.call.isLookup && (op.tasks[j]?.bind Lib.Task.request?).any isSetData
  | _ => false

/-- The action is the write of a lookup when it links a thumbnail. -/
theorem linked_of_linksThumbnail (hcode : OnCode S (fun _ _ => True) w)
    (hs : step S w action = some w') (hlink : linksThumbnail w action) :
    ∃ d url, .linked d url ∈ writes w' := by
  unfold linksThumbnail at hlink
  split at hlink
  next i j =>
    simp only [Option.any_eq_true, Bool.and_eq_true, Option.bind_eq_some_iff] at hlink
    obtain ⟨op, hop, hlookup, r, ⟨task, ht, hr⟩, hset⟩ := hlink
    cases task with
    | ready code => cases hr
    | waiting r' callback =>
        obtain rfl := Option.some.inj hr
        obtain ⟨env, a, hserve, rfl⟩ := Lib.World.step_serve hs hop ht
        have hwait := hcode.waiting hop ht
        obtain ⟨client, call, origin, history, outs, tasks⟩ := op
        cases hwait with
        | @link post path d hid =>
            let served : Entry := ⟨i, .checkImageURL post path, ⟨link S d path, .success, a⟩⟩
            exact ⟨d, S.downloadURL (thumbPath path), List.mem_filterMap.mpr
              ⟨served, List.mem_append_right _ List.mem_cons_self, rfl⟩⟩
        | lookup => cases hset
        | _ => cases hlookup
  next => cases hlink

/-- A thumbnail is linked by such an action only. -/
theorem linksThumbnail_of_linked (hcode : OnCode S (fun _ _ => True) w)
    (hs : step S w action = some w') {url : String} (hmem : .linked d url ∈ writes w') :
    .linked d url ∈ writes w ∨ linksThumbnail w action := by
  rcases step_write hcode hs with ⟨-, heq⟩ |
    ⟨i, j, choice, op, r, callback, write, rfl, hop, ht, heq, happ⟩
  · exact .inl (heq ▸ hmem)
  · rw [heq, List.mem_append, List.mem_singleton] at hmem
    rcases hmem with hmem | rfl
    · exact .inl hmem
    · right
      generalize w'.env.firebase.firestore = fs' at happ
      cases happ with
      | linked hcall hid => simp [linksThumbnail, hop, ht, hcall, Call.isLookup,
          Lib.Task.request?, isSetData]

/-! ## Quiet refreshes -/

/-- Posts without a path are not looked up. -/
theorem reloadData_eq_nil {fs : Firestore}
    (h : ∀ d doc, fs.get ["Posts", d] = some doc → doc "path" = none) :
    FeedViewController.reloadData (feed fs) = [] := by
  refine List.filterMap_eq_nil_iff.mpr fun post hpost => ?_
  obtain ⟨d, doc, hdoc, hinit⟩ := mem_feed hpost
  obtain rfl := Option.some.inj hinit
  simp [Document.string, h d doc hdoc]

/-- Without lookups under way, serving or delivering one is not possible. -/
theorem not_lookingUp_step {i j : ℕ} (hno : NoLookup w) (hi : LookingUp w i) :
    (∀ choice, step S w (.serve i j choice) = none) ∧ step S w (.deliver i j) = none := by
  simp only [LookingUp, Option.any_eq_true] at hi
  obtain ⟨op, hop, hlookup⟩ := hi
  have htasks := hno i op hop hlookup
  simp [step, Lib.World.step, hop, htasks]

/-- A refresh step of a quiet world only reads the posts. -/
theorem Refreshing.step_quiet {s : Refreshing} {a : Refresh}
    (h : ∀ d doc, document w d = some doc → doc "path" = none) (hno : NoLookup w)
    (hs : Refreshing.step S ⟨w, []⟩ a = some s) : ∃ device,
      s = ⟨{ w with env := w.env.hold device (feed w.env.firebase.firestore) }, []⟩ := by
  cases a with
  | reload device =>
      simp only [Refreshing.step, Option.map_eq_some_iff] at hs
      obtain ⟨w', hw', rfl⟩ := hs
      obtain rfl := Option.some.inj hw'
      exact ⟨device, by rw [reloadData_eq_nil h]; rfl⟩
  | lookup n i => cases hs
  | serve i j choice =>
      simp only [Refreshing.step] at hs
      split at hs
      next hi => simp [(not_lookingUp_step (S := S) (j := j) hno hi).1] at hs
      next => cases hs
  | deliver i j =>
      simp only [Refreshing.step] at hs
      split at hs
      next hi => simp [(not_lookingUp_step (S := S) (j := j) hno hi).2] at hs
      next => cases hs

/-- **Refreshes of unmarked documents stay quiet.** -/
theorem quiet_of_unmarked (h : ∀ d doc, document w d = some doc → doc "path" = none)
    (hno : NoLookup w) : Quiet S w := by
  intro as s hrun
  have hstep : ∀ s a s', (∃ env, s = ⟨{ w with env := env }, []⟩ ∧
        env.firebase = w.env.firebase) → Refreshing.step S s a = some s' →
      ∃ env, s' = ⟨{ w with env := env }, []⟩ ∧ env.firebase = w.env.firebase := by
    rintro _ a s' ⟨env, rfl, hfb⟩ hs
    obtain ⟨device, rfl⟩ := Refreshing.step_quiet (w := { w with env := env })
      (fun d doc hdoc => h d doc (by rwa [document, ← hfb])) hno hs
    exact ⟨_, rfl, hfb⟩
  have hinv : ∃ env, s = ⟨{ w with env := env }, []⟩ ∧ env.firebase = w.env.firebase :=
    Lib.run_invariant hstep ⟨w.env, rfl, rfl⟩ hrun
  obtain ⟨env, rfl, -⟩ := hinv
  exact ⟨rfl, rfl, rfl⟩

/-! ## When thumbnails are final -/

/-- A step keeps thumbnails final if and only if it links none. -/
theorem final_step_iff (h : Marked S fb w) (hp : Final S w)
    (hs : editingStep S w action = some w') : Final S w' ↔ linksThumbnail w action = false := by
  have hs' := step_of_editing hs
  have hmarked := h.step hs
  have hnone : ∀ {w}, Marked S fb w → Final S w → ∀ d url, .linked d url ∉ writes w := by
    intro w hm hf d url hmem
    obtain ⟨doc, hdoc, -, hnil⟩ := hf.linked d url hmem
    obtain ⟨doc', hdoc', hsome⟩ := hm.linked d url hmem
    obtain rfl : doc = doc' := Option.some.inj (hdoc.symm.trans hdoc')
    simp [hnil] at hsome
  constructor
  · intro hp'
    by_contra hlink
    obtain ⟨d, url, hmem⟩ := linked_of_linksThumbnail h.traced.code hs' (by simpa using hlink)
    exact hnone hmarked hp' d url hmem
  · intro hlink
    have hnone' : ∀ d url, .linked d url ∉ writes w' := by
      intro d url hmem
      rcases linksThumbnail_of_linked h.traced.code hs' hmem with hmem | htrue
      · exact hnone h hp d url hmem
      · simp [hlink] at htrue
    refine ⟨fun d url hmem => absurd hmem (hnone' d url), fun hall hno => ?_⟩
    refine quiet_of_unmarked (fun d doc hdoc => ?_) hno
    rcases hmarked.resolved d doc hdoc (hall d doc hdoc) with hnil | ⟨url, hmem⟩
    · exact hnil
    · exact absurd hmem (hnone' d url)

/-- **Thumbnails are final exactly when none is linked**: along every run without
deletions, on a backend whose resolved documents have no path. -/
theorem always_final_iff (S : StorageService) (fb : Firebase)
    (hfinal : ∀ d doc, fb.firestore.get ["Posts", d] = some doc → (doc "imageURL").isSome →
      doc "path" = none) (as : List Action) :
    Always (editingStep S) (Final S) (initial fb) as ↔
      StepsMeet (editingStep S) (fun w action _ => linksThumbnail w action = false) (initial fb)
        as := by
  have hstart := marked_initial S fb hfinal
  refine Lib.always_iff_stepsMeet (I := Marked S fb) (fun w action w' h hs => h.step hs)
    (fun w action w' h hp hs => final_step_iff h hp hs) hstart ?_
  refine ⟨fun d url hmem => (by cases hmem), fun hall hno => ?_⟩
  exact quiet_of_unmarked (fun d doc hdoc => hfinal d doc hdoc (hall d doc hdoc)) hno

/-- Device `0` publishes a post and edits it; the lookup of its thumbnail fails. -/
def unlinkedRun : List Action :=
  let shown : Post :=
    { id := some "d", userName := some "Unknown", description := some "hello",
      path := some "7A21" }
  [.start 0 0 (.addData .sample "hello" 0 [0xFF]), .serve 0 0 .success, .deliver 0 0,
    .serve 0 0 (.documentID "d"), .act (.snapshot 0), .start 1 0 (.checkImageURL shown "7A21"),
    .start 2 0 (.updatePost shown "bye"), .serve 2 0 .success,
    .serve 1 0 (.failure ⟨"storage", -13010, "not found"⟩), .deliver 1 0]

theorem final_unlinkedRun :
    Always (editingStep .plain) (Final .plain) (initial .empty) unlinkedRun :=
  (always_final_iff .plain .empty (fun d doc hdoc => by cases hdoc) unlinkedRun).mpr (by decide)

/-- The mark stays when a thumbnail is linked: after `linkedRun` the document still has
its path. -/
theorem pathStays : ¬ ∀ (S : StorageService) (fb : Firebase) (as : List Action),
    (∀ d, New fb d) → Always (editingStep S) (Final S) (initial fb) as := by
  intro h
  obtain ⟨w, doc, hw, hlinked, hdoc, hpath⟩ : ∃ w doc,
      Lib.run (editingStep .plain) (initial .empty) linkedRun = some w ∧
      .linked "d" (StorageService.plain.downloadURL (thumbPath "7A21")) ∈ writes w ∧
      document w "d" = some doc ∧ (doc "path").isSome :=
    ⟨_, _, rfl, by decide, rfl, rfl⟩
  obtain ⟨doc', hdoc', -, hnone⟩ :=
    ((h .plain .empty linkedRun fun _ => rfl).last hw).linked "d" _ hlinked
  obtain rfl : doc = doc' := Option.some.inj (hdoc.symm.trans hdoc')
  simp [hnone] at hpath

end FirebaseApps.SociallyUIKit
