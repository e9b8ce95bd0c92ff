import FirebaseApps.SociallyUIKit.System

/-!
# Socially-UIKit: where posts come from

A `Post` value is decoded from a document, in a feed snapshot or after an edit, and
then used at any later time.  `Held K` says that every post a device holds, and
every post an operation was called with, satisfies `K`; `Held.step` is the one
argument that follows posts through a step, for any `K` that is kept by the step
and holds of freshly decoded posts.
-/

namespace FirebaseApps.SociallyUIKit

open Lib (Task)

variable {S : StorageService} {fb : Firebase} {w w' : World} {action : Action}

/-- The operations of a reachable world are on their code. -/
abbrev OnCode (S : StorageService) (W : Option User → Option User → Prop) (w : World) : Prop :=
  Lib.World.OnCode (host S) (Firebase.Answers S) W w

theorem answers_of_serve {env env' : Env} {device : Device} {r : Req} {choice : Choice}
    {a : Ans r} (h : (host S).serve env device r choice = some (env', a)) :
    Firebase.Answers S r choice a := by
  obtain ⟨firebase, hs, -⟩ := serve_eq_some h
  exact .of_serve hs

theorem onCode_step {W : Option User → Option User → Prop} (h : OnCode S W w)
    (hW : Lib.World.Sees (host S) W w action) (hs : step S w action = some w') :
    OnCode S W w' :=
  Lib.World.OnCode.step h (fun _ _ _ _ _ _ => answers_of_serve) hW hs

theorem onCode_step_any (h : OnCode S (fun _ _ => True) w) (hs : step S w action = some w') :
    OnCode S (fun _ _ => True) w' :=
  onCode_step h (Lib.World.sees_of_forall (fun _ _ => trivial) w action) hs

/-- The place of an operation in its code, and the contract of that code. -/
theorem OnCode.at_meets {W : Option User → Option User → Prop} (h : OnCode S W w) {i : ℕ}
    {op : Op} (hop : w.ops i = some op) :
    (op.call.code S).At (Firebase.Answers S) (W op.origin) op.history op.outs op.tasks ∧
      (op.call.code S).Meets (Firebase.Answers S) (W op.origin)
        (contract S (W op.origin) op.call) [] :=
  ⟨h i op hop (op.call.linear_code S), meets_code S _ _⟩

/-- The request an operation waits for, by its call. -/
theorem OnCode.waiting {W : Option User → Option User → Prop} (h : OnCode S W w) {i j : ℕ}
    {op : Op} {r : Req} {callback : Ans r → Code} (hop : w.ops i = some op)
    (ht : op.tasks[j]? = some (.waiting r callback)) :
    Waiting S (W op.origin) op.call op.history r := by
  obtain ⟨hat, hmeets⟩ := h.at_meets hop
  exact Lib.Code.At.waiting hmeets hat (List.mem_of_getElem? ht)

/-- A served request of an operation, by its call. -/
theorem OnCode.served {W : Option User → Option User → Prop} (h : OnCode S W w) {i : ℕ}
    {op : Op} {before after : List Event} {e : Event} (hop : w.ops i = some op)
    (he : op.history = before ++ e :: after) :
    Waiting S (W op.origin) op.call before e.req ∧
      Firebase.Answers S e.req e.choice e.ans := by
  obtain ⟨hat, hmeets⟩ := h.at_meets hop
  exact Lib.Code.At.served hmeets hat he

/-- A successful edit was built from a document that its operation has read. -/
theorem OnCode.edited {W : Option User → Option User → Prop} (h : OnCode S W w) {i : ℕ}
    {op : Op} {edited : Post} (hop : w.ops i = some op)
    (ho : .updated (.ok edited) ∈ op.outs) :
    ∃ post newDescription postId data, op.call = .updatePost post newDescription ∧
      post.id = some postId ∧
      ok (.getDocument ["Posts", postId]) (some ⟨postId, some data⟩, none) ∈ op.history ∧
      PostService.updatedPost ⟨postId, some data⟩ = some edited := by
  obtain ⟨hat, hmeets⟩ := h.at_meets hop
  obtain ⟨before, hpre, hreport⟩ := Lib.Code.At.reported hmeets hat ho
  obtain ⟨client, call, origin, history, outs, tasks⟩ := op
  cases hreport with
  | updated hid hedit => exact ⟨_, _, _, _, rfl, hid, hpre.subset (by simp), hedit⟩

/-- No variable is read when a call is made. -/
theorem saw_start {W : Option User → Prop} (device : Device) (call : Call) (env : Env) :
    (host S).Saw device W (call.code S) env := by
  refine (meets_code S (fun _ => True) call).saw
    (fun env out => congrArg (fun fb => Firebase.currentUser fb device) (firebase_emit env _ out).1)
    fun hread => ?_
  cases call <;> cases hread

/-- A callback reads the signed-in user only after the upload of `addData`. -/
theorem OnCode.saw_ready {W : Option User → Prop} (h : OnCode S (fun _ _ => True) w) {i j : ℕ}
    {op : Op} {code : Code} (hop : w.ops i = some op)
    (ht : op.tasks[j]? = some (.ready code))
    (hview : Reading op.call op.history → W (w.env.firebase.currentUser op.client)) :
    (host S).Saw op.client W code w.env := by
  obtain ⟨hat, hmeets⟩ := h.at_meets hop
  refine (Lib.Code.At.ready hmeets hat (List.mem_of_getElem? ht)).saw
    (fun env out => congrArg (fun fb => Firebase.currentUser fb op.client)
      (firebase_emit env _ out).1) hview

/-! ## Posts in use -/

/-- The post a call was made with. -/
def Call.post? : Call → Option Post
  | .addData .. => none
  | .checkImageURL post _ | .updatePost post _ | .deletePost post => some post

/-- Every post that a device holds, or that a call was made with, satisfies `K`. -/
structure Held (K : Post → Prop) (w : World) : Prop where
  held : ∀ device, ∀ post ∈ w.env.posts device, K post
  called : ∀ i op post, w.ops i = some op → op.call.post? = some post → K post

theorem held_initial (K : Post → Prop) (fb : Firebase) : Held K (initial fb) where
  held _ _ h := by cases h
  called _ _ _ h := by cases h

/-- A call is made with a post its device holds. -/
theorem accept_post {env env' : Env} {device : Device} {call : Call} {post : Post}
    (h : env.accept device call = some env') (hp : call.post? = some post) :
    post ∈ env.posts device := by
  cases call with
  | addData path description date data => cases hp
  | checkImageURL p path =>
      obtain rfl := Option.some.inj hp
      simp only [Env.accept] at h
      split at h
      next hmem => exact hmem.1
      next => cases h
  | updatePost p newDescription =>
      obtain rfl := Option.some.inj hp
      simp only [Env.accept] at h
      split at h
      next hmem => exact hmem
      next => cases h
  | deletePost p =>
      obtain rfl := Option.some.inj hp
      simp only [Env.accept] at h
      split at h
      next hmem => exact hmem
      next => cases h

/-- Making a call changes at most the UUIDs drawn. -/
theorem accept_eq {env env' : Env} {device : Device} {call : Call}
    (h : env.accept device call = some env') :
    env'.firebase = env.firebase ∧ env'.posts = env.posts := by
  cases call <;> simp only [Env.accept] at h <;> split at h <;> cases h <;> exact ⟨rfl, rfl⟩

/-- **Posts through a step.**  When `K` is kept as `K'`, and posts decoded in the step
satisfy `K'`, all posts in use satisfy `K'` after it. -/
theorem Held.step {K K' : Post → Prop} (h : Held K w) (hcode : OnCode S (fun _ _ => True) w)
    (hs : SociallyUIKit.step S w action = some w') (hmono : ∀ post, K post → K' post)
    (hfeed : ∀ post ∈ feed w.env.firebase.firestore, K' post)
    (hedit : ∀ i op post newDescription postId data edited, w.ops i = some op →
      op.call = .updatePost post newDescription → K post → post.id = some postId →
      ok (.getDocument ["Posts", postId]) (some ⟨postId, some data⟩, none) ∈ op.history →
      PostService.updatedPost ⟨postId, some data⟩ = some edited → K' edited) : Held K' w' := by
  have hcode' := onCode_step_any hcode hs
  rcases Lib.World.step_cases hs with ⟨i, device, call, env, rfl, hi, ha, rfl⟩ |
    ⟨i, j, choice, op, r, callback, env, a, rfl, hi, ht, hr, rfl⟩ |
    ⟨i, j, op, code, rfl, hi, ht, rfl⟩ | ⟨a, env, rfl, ha, rfl⟩
  · obtain ⟨-, hposts⟩ := accept_eq ha
    constructor
    · intro d post hpost
      rcases mem_posts_exec hpost with hpost | hout
      · exact hmono post (h.held d post (hposts ▸ hpost))
      · -- no call reports an edit before anything was served
        obtain ⟨_, _, _, _, _, _, hmem, _⟩ :=
          hcode'.edited (Function.update_self i _ _) (List.mem_append_right _ hout)
        cases hmem
    · intro k op post hop hp
      by_cases hk : k = i
      · subst hk
        obtain rfl := by simpa using hop
        exact hmono post (h.held device post (accept_post ha hp))
      · exact hmono post (h.called k op post (by simpa [hk] using hop) hp)
  · obtain ⟨firebase, -, rfl⟩ := serve_eq_some hr
    constructor
    · exact fun d post hpost => hmono post (h.held d post hpost)
    · intro k op' post hop hp
      by_cases hk : k = i
      · subst hk
        obtain rfl := by simpa using hop
        exact hmono post (h.called k op post hi hp)
      · exact hmono post (h.called k op' post (by simpa [hk] using hop) hp)
  · constructor
    · intro d post hpost
      rcases mem_posts_exec hpost with hpost | hout
      · exact hmono post (h.held d post hpost)
      · obtain ⟨p, newDescription, postId, data, hcall, hid, hmem, hed⟩ :=
          hcode'.edited (Function.update_self i _ _) (List.mem_append_right _ hout)
        exact hedit i op p newDescription postId data post hi hcall
          (h.called i op p hi (by rw [hcall]; rfl)) hid hmem hed
    · intro k op' post hop hp
      by_cases hk : k = i
      · subst hk
        obtain rfl := by simpa using hop
        exact hmono post (h.called k op post hi hp)
      · exact hmono post (h.called k op' post (by simpa [hk] using hop) hp)
  · refine ⟨fun d post hpost => ?_, fun k op post hop hp => hmono post (h.called k op post hop hp)⟩
    cases a with
    | snapshot device =>
        obtain rfl := Option.some.inj ha
        rcases mem_posts_hold.mp hpost with hpost | ⟨-, hpost⟩
        · exact hmono post (h.held d post hpost)
        · exact hfeed post hpost
    | signIn device user =>
        obtain rfl := Option.some.inj ha
        exact hmono post (h.held d post hpost)
    | signOut device =>
        obtain rfl := Option.some.inj ha
        exact hmono post (h.held d post hpost)
    | thumbnail name =>
        obtain ⟨firebase, -, rfl⟩ := Option.map_eq_some_iff.mp ha
        exact hmono post (h.held d post hpost)

end FirebaseApps.SociallyUIKit
