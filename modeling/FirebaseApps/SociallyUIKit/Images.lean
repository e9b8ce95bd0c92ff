import FirebaseApps.SociallyUIKit.Publications

/-!
# Socially-UIKit: every post is backed by its own image

An image is uploaded under a fresh UUID before its document is written, and no
operation writes or deletes an object under such a name again: thumbnails are stored
under `thumbs/`, and the images that are deleted are thumbnails, because every image
URL a post can have is the URL of a thumbnail.  So a document with a path has its image, and
has the path for itself (`backed_reachable`).
-/

namespace FirebaseApps.SociallyUIKit

variable {S : StorageService} {fb : Firebase} {w w' : World} {action : Action}

/-- The object that `addData` uploads. -/
def imageObject (data : Data) : Object := ⟨data, some (detectMimeType data)⟩

/-- Every image whose upload has succeeded is in Storage. -/
def Stored (w : World) : Prop :=
  ∀ i op path description date data, w.ops i = some op →
    op.call = .addData path description date data → ok (upload path data) none ∈ op.history →
    w.env.firebase.objects path.uuidString = some (imageObject data)

/-- Every image URL that a deletion was called with is the URL of a thumbnail. -/
def DeletesThumbnails (S : StorageService) (w : World) : Prop :=
  ∀ i op post imageURL, w.ops i = some op → op.call = .deletePost post →
    post.imageURL = some imageURL → ∃ path, imageURL = S.downloadURL (thumbPath path)

/-- A request leaves the object of a UUID alone, or is the upload of that UUID. -/
theorem objects_serve {W : Option User → Prop} {op : Op} {r : Req} {choice : Choice}
    {fb fb' : Firebase} {a : Ans r} (u : UUID) (hw : Waiting S W op.call op.history r)
    (hthumb : ∀ post imageURL, op.call = .deletePost post → post.imageURL = some imageURL →
      ∃ path, imageURL = S.downloadURL (thumbPath path))
    (hr : fb.serve S op.client r choice = some (fb', a)) :
    fb'.objects u.uuidString = fb.objects u.uuidString ∨
    (op.call.path? = some u ∧ op.history = []) := by
  rcases Firebase.objects_serve hr u.uuidString with heq | ⟨data, contentType, rfl⟩ | rfl
  · exact .inl heq
  · obtain ⟨client, call, origin, history, outs, tasks⟩ := op
    generalize hreq : Req.putData u.uuidString data contentType = r at hw
    cases hw with
    | upload =>
        have hname := (Req.putData.inj hreq).1
        exact .inr ⟨congrArg some (UUID.ext_uuidString hname.symm), rfl⟩
    | _ => cases hreq
  · obtain ⟨client, call, origin, history, outs, tasks⟩ := op
    generalize hreq : Req.deleteObject u.uuidString = r at hw
    cases hw with
    | @deleteImage post postId imageURL hid hurl =>
        obtain ⟨path, rfl⟩ := hthumb post imageURL rfl hurl
        rw [S.reference_downloadURL] at hreq
        exact absurd (Req.deleteObject.inj hreq).symm (thumbPath_ne_uuidString path u)
    | _ => cases hreq

/-- When `Posts` starts out empty, all image URLs are URLs of thumbnails. -/
theorem Traced.deletesThumbnails (h : Traced S fb w) (hempty : ∀ d, New fb d) :
    DeletesThumbnails S w := by
  intro i op post imageURL hop hcall hurl
  obtain ⟨d, -, hpost⟩ := h.posts.called i op post hop (by rw [hcall]; rfl)
  obtain ⟨k, o, -, heq⟩ := (hpost (hempty d)).imageURL (.string imageURL) (by simp [hurl])
  exact ⟨o.path.uuidString, Value.string.inj heq⟩

/-- A step leaves the object of a UUID alone, or serves the upload of that UUID. -/
theorem objects_step (h : Traced S fb w) (hempty : ∀ d, New fb d)
    (hs : step S w action = some w') (u : UUID) :
    w'.env.firebase.objects u.uuidString = w.env.firebase.objects u.uuidString ∨
    ∃ i op, w.ops i = some op ∧ op.call.path? = some u ∧ op.history = [] := by
  rcases Lib.World.step_cases hs with ⟨i, device, call, env, rfl, hi, ha, rfl⟩ |
    ⟨i, j, choice, op, r, callback, env, a, rfl, hi, ht, hr, rfl⟩ |
    ⟨i, j, op, code, rfl, hi, ht, rfl⟩ | ⟨a, env, rfl, ha, rfl⟩
  · rw [Lib.World.env_resume, (firebase_exec _ _ _).1, (accept_eq ha).1]
    exact .inl rfl
  · obtain ⟨firebase, hfb, rfl⟩ := serve_eq_some hr
    rcases objects_serve u (h.code.waiting hi ht)
      (fun post imageURL => h.deletesThumbnails hempty i op post imageURL hi) hfb with heq | hup
    · exact .inl heq
    · exact .inr ⟨i, op, hi, hup⟩
  · rw [Lib.World.env_resume, (firebase_exec _ _ _).1]
    exact .inl rfl
  · left
    cases a with
    | snapshot device => obtain rfl := Option.some.inj ha; rfl
    | signIn device user => obtain rfl := Option.some.inj ha; rfl
    | signOut device => obtain rfl := Option.some.inj ha; rfl
    | thumbnail name =>
        obtain ⟨firebase, hm, rfl⟩ := Option.map_eq_some_iff.mp ha
        obtain ⟨o, -, rfl⟩ := Option.map_eq_some_iff.mp hm
        simp [(thumbPath_ne_uuidString name u).symm]

/-- **Images stay where they were put.** -/
theorem Stored.step (h : Stored w) (ht : Traced S fb w) (hempty : ∀ d, New fb d)
    (hs : SociallyUIKit.step S w action = some w') : Stored w' := by
  intro i op' path description date data hop' hcall' hup
  obtain ⟨op, hop, hfol, hup | ⟨j, -, hr⟩⟩ := Lib.World.event_of_step hs hop' hup
  · have hcall : op.call = .addData path description date data := hfol.call ▸ hcall'
    have hstored := h i op path description date data hop hcall hup
    rcases objects_step ht hempty hs path with heq | ⟨k, op₂, hop₂, hpath, hnil⟩
    · rwa [heq]
    · -- the upload of this UUID is the one that is already over
      obtain rfl : i = k :=
        ht.paths.inj i k op op₂ path hop hop₂ (by rw [hcall]; rfl) hpath
      obtain rfl : op = op₂ := Option.some.inj (hop.symm.trans hop₂)
      simp [hnil] at hup
  · obtain ⟨firebase, hfb, henv⟩ := serve_eq_some hr
    cases Firebase.settled_of_serve hfb
    rw [henv]
    simp [imageObject]

/-- A document with a path is backed by its own image. -/
structure Backed (S : StorageService) (w : World) (d : String) (doc : Document) (o : Publication) :
    Prop where
  /-- Storage holds at the path what the call that added the document was given. -/
  image : w.env.firebase.objects o.path.uuidString = some (imageObject o.data)
  /-- No other document has the path. -/
  only : ∀ d' doc', document w d' = some doc' → doc' "path" = doc "path" → d' = d
  /-- An image URL is the URL of the thumbnail. -/
  imageURL : ∀ v, doc "imageURL" = some v → v = .string (o.thumbnailURL S)

/-- **Every post is backed by its own image**, in every state reached from empty
`Posts`. -/
theorem backed_reachable (S : StorageService) (fb : Firebase) (hempty : ∀ d, New fb d)
    (h : Reachable S fb w) :
    ∀ d doc v, document w d = some doc → doc "path" = some v →
      ∃ i o, Added w i o d ∧ v = .string o.path.uuidString ∧ Backed S w d doc o := by
  have hinv : Traced S fb w ∧ Stored w :=
    Lib.Reachable.invariant (P := fun w => Traced S fb w ∧ Stored w) h
      ⟨traced_initial S fb, fun i op _ _ _ _ hop => by cases hop⟩
      fun _ _ _ ht hs => ⟨ht.1.step hs, ht.2.step ht.1 hempty hs⟩
  obtain ⟨htraced, hstored⟩ := hinv
  intro d doc v hdoc hv
  have hsound := htraced.docs d doc (hempty d) hdoc
  obtain ⟨i, o, hadd, rfl⟩ := hsound.path v hv
  refine ⟨i, o, hadd, rfl, ?_, ?_, ?_⟩
  · obtain ⟨op, hop, hcall, hhistory⟩ := hadd
    exact hstored i op _ _ _ _ hop hcall (by rw [hhistory]; exact List.mem_cons_self)
  · intro d' doc' hdoc' hpath
    obtain ⟨j, o', hadd', heq⟩ :=
      (htraced.docs d' doc' (hempty d') hdoc').path _ (hpath.trans hv)
    exact Added.path_inj htraced.paths hadd' hadd (UUID.ext_uuidString (Value.string.inj heq).symm)
  · intro u hu
    obtain ⟨j, o', hadd', rfl⟩ := hsound.imageURL u hu
    rw [hadd.thumbnailURL_eq htraced.ids hadd']

/-- Device `0` publishes a post, and its thumbnail is made and linked. -/
def linkedRun : List Action :=
  let path : UUID := .sample
  let shown : Post :=
    { id := some "d", userName := some "Unknown", description := some "hello",
      path := some "7A21" }
  [.start 0 0 (.addData path "hello" 0 [0xFF]), .serve 0 0 .success, .deliver 0 0,
    .serve 0 0 (.documentID "d"), .act (.thumbnail "7A21"), .act (.snapshot 0),
    .start 1 0 (.checkImageURL shown "7A21"), .serve 1 0 .success, .deliver 1 0,
    .serve 1 0 .success]

theorem backed_linkedRun : ∃ w doc v, Lib.run (step .plain) (initial .empty) linkedRun = some w ∧
    document w "d" = some doc ∧ doc "path" = some v ∧ (doc "imageURL").isSome ∧
    ∃ i o, Added w i o "d" ∧ v = .string o.path.uuidString ∧ Backed .plain w "d" doc o :=
  ⟨_, _, .string "7A21", rfl, rfl, rfl, rfl,
    backed_reachable .plain .empty (fun _ => rfl) ⟨linkedRun, rfl⟩ "d" _ _ rfl rfl⟩

end FirebaseApps.SociallyUIKit
