import FirebaseApps.SociallyUIKit.Deletion
import FirebaseApps.SociallyUIKit.ReadBack

/-!
# Socially-UIKit: the detail screens

A row of the feed opens a `PostDetailViewController` on its post.  Save edits the post that
the screen has at that moment, and a report of success replaces it; the trash button deletes
it, and a report of success pops the navigation stack from a block on the main queue.  Nothing
else changes a screen that is open, however the collection goes on (`showing_reachable`), and
the stack is popped only once the query of the feed has lost the document (`gone_of_popped`).

The screens are laid over the app: their taps are calls of the app, and its callbacks report
to the screen that has made the call.  Where the source needs a screen to be in front before
the user can tap it, any screen can be tapped here, which only adds runs.  Layout, the
alert of the edit button and console output are left out.
-/

namespace FirebaseApps.SociallyUIKit.Detail

/-! ## The screen -/

/-- `PostDetailViewController`. -/
structure PostDetailViewController (URL : Type) where
  device : Device
  /-- The post that the row has passed to `init(post:)`. -/
  opened : Post
  post : Post
  descriptionLabelText : Option String
  nameLabelText : Option String
  /-- The date that `dateLabel` shows; `none` is the moment at which it was set. -/
  dateLabelDate : Option Date
  /-- What `imageView` was last told to load. -/
  imageURL : Option URL
  /-- The blocks on the main queue that pop the stack. -/
  pops : ℕ
  /-- One of them has. -/
  popped : Bool
  configured : descriptionLabelText = post.description ∧ nameLabelText = post.userName ∧
    dateLabelDate = post.datePublished

variable {URL : Type} (string : String → Option URL)

namespace PostDetailViewController

/-- `self.post = post` and `configureWithPost()`.  Without an image URL, or with one that is
none, the image view is left as it is. -/
def configureWithPost (self : PostDetailViewController URL) (post : Post) :
    PostDetailViewController URL :=
  { self with
    post := post
    descriptionLabelText := post.description
    nameLabelText := post.userName
    dateLabelDate := post.datePublished
    imageURL := (post.imageURL.bind string).or self.imageURL
    configured := ⟨rfl, rfl, rfl⟩ }

/-- `init(post:)` and `viewDidLoad()`. -/
def new (device : Device) (post : Post) : PostDetailViewController URL :=
  { device := device, opened := post, post := post, descriptionLabelText := post.description,
    nameLabelText := post.userName, dateLabelDate := post.datePublished,
    imageURL := post.imageURL.bind string, pops := 0, popped := false,
    configured := ⟨rfl, rfl, rfl⟩ }

/-- The completions that the screen passes to `PostService`. -/
def report (self : PostDetailViewController URL) : Out → PostDetailViewController URL
  | .updated (.ok updatedPost) => self.configureWithPost string updatedPost
  | .deleted (.ok ()) => { self with pops := self.pops + 1 }
  | _ => self

end PostDetailViewController

/-! ## The app with its screens -/

/-- The app, its detail screens by number, the screen that has made each call, and the screens
on the navigation stack of each device, topmost first. -/
structure State (URL : Type) where
  world : World
  screens : ℕ → Option (PostDetailViewController URL)
  owner : ℕ → Option ℕ
  stack : Device → List ℕ

/-- What happens. -/
inductive Input
  /-- The app does a step that is not a tap on a detail screen. -/
  | app (action : Action)
  /-- A row of the feed opens a screen. -/
  | tapRow (k : ℕ) (device : Device) (post : Post)
  /-- The Save action of a screen. -/
  | save (i k : ℕ) (newDescription : String)
  /-- The trash button of a screen. -/
  | trash (i k : ℕ)
  /-- The back button of a device. -/
  | back (device : Device)
  /-- The main queue runs a block of a screen. -/
  | runBlock (k : ℕ)

/-- The calls of the detail screens. -/
def isDetailCall : Call → Bool
  | .updatePost .. | .deletePost _ => true
  | .addData .. | .checkImageURL .. => false

/-- The step is a tap on a detail screen. -/
def isDetailTap : Action → Bool
  | .start _ _ call => isDetailCall call
  | _ => false

/-- What an operation reports in a step. -/
def newOuts (w w' : World) (i : ℕ) : List Out :=
  ((w'.ops i).elim [] Lib.Op.outs).drop ((w.ops i).elim [] Lib.Op.outs).length

namespace State

/-- The app with no screen open. -/
def initial (firebase : Firebase) : State URL :=
  ⟨SociallyUIKit.initial firebase, fun _ => none, fun _ => none, fun _ => []⟩

/-- Change a screen. -/
def modify (s : State URL) (k : ℕ)
    (f : PostDetailViewController URL → PostDetailViewController URL) : State URL :=
  { s with screens := fun n => (s.screens n).map (if n = k then f else id) }

/-- `pushViewController(_:animated:)`. -/
def push (s : State URL) (device : Device) (k : ℕ) : State URL :=
  { s with stack := Function.update s.stack device (k :: s.stack device) }

/-- The topmost screen leaves the stack. -/
def pop (s : State URL) (device : Device) : State URL :=
  { s with stack := Function.update s.stack device (s.stack device).tail }

/-- What a step of the app that leads to `world` reports to a screen. -/
def heard (s : State URL) (world : World) (n : ℕ) : Action → List Out
  | .deliver i _ => if s.owner i = some n then newOuts s.world world i else []
  | _ => []

/-- The app has gone on to `world`; a callback that has run reports to its screen. -/
def after (s : State URL) (world : World) (action : Action) : State URL :=
  { s with
    world := world
    screens := fun n => (s.screens n).map fun screen =>
      (s.heard world n action).foldl (PostDetailViewController.report string) screen }

/-- A screen makes a call about its post. -/
def tap (S : StorageService) (s : State URL) (i k : ℕ) (call : Post → Call) :
    Option (State URL) :=
  (s.screens k).bind fun screen =>
    (SociallyUIKit.step S s.world (.start i screen.device (call screen.post))).map fun world =>
      { s with world := world, owner := Function.update s.owner i (some k) }

/-- `self?.navigationController?.popViewController(animated: true)`, for a screen that is on a
stack or not. -/
def runBlock (s : State URL) (k : ℕ) (screen : PostDetailViewController URL) : State URL :=
  if k ∈ s.stack screen.device then
    (s.modify k fun screen => { screen with pops := screen.pops - 1, popped := true }).pop
      screen.device
  else s.modify k fun screen => { screen with pops := screen.pops - 1 }

/-- One step of the app with its screens. -/
def step (S : StorageService) (s : State URL) : Input → Option (State URL)
  | .app action =>
      if isDetailTap action then none
      else (SociallyUIKit.step S s.world action).map fun world => s.after string world action
  | .tapRow k device post =>
      if s.screens k = none ∧ post ∈ s.world.env.posts device then
        some ({ s with
          screens := Function.update s.screens k (some (.new string device post)) }.push device k)
      else none
  | .save i k newDescription => s.tap S i k fun post => .updatePost post newDescription
  | .trash i k => s.tap S i k .deletePost
  | .back device => some (s.pop device)
  | .runBlock k =>
      (s.screens k).bind fun screen => if 0 < screen.pops then some (s.runBlock k screen) else none

end State

/-- The states of the app with its screens, starting on this backend. -/
def Reachable (S : StorageService) (firebase : Firebase) (s : State URL) : Prop :=
  Lib.Reachable (State.step string S) (.initial firebase) s

variable {string} {S : StorageService} {fb : Firebase} {s s' : State URL} {input : Input}
  {i k : ℕ} {screen screen' : PostDetailViewController URL}

/-! ## What a step does -/

/-- A block that pops the stack has been put on the main queue. -/
def PostDetailViewController.Popping (self : PostDetailViewController URL) : Prop :=
  0 < self.pops ∨ self.popped = true

/-- The screen shows what it has shown, and has not been told to pop. -/
structure Unchanged (screen screen' : PostDetailViewController URL) : Prop where
  opened : screen'.opened = screen.opened
  post : screen'.post = screen.post
  imageURL : screen'.imageURL = screen.imageURL
  popping : screen'.Popping → screen.Popping

theorem Unchanged.refl (screen : PostDetailViewController URL) : Unchanged screen screen :=
  ⟨rfl, rfl, rfl, id⟩

/-- The screens show what they have shown. -/
structure Quiet (s s' : State URL) : Prop where
  world : s'.world = s.world
  owner : s'.owner = s.owner
  screens : ∃ f : ℕ → PostDetailViewController URL → PostDetailViewController URL,
    (∀ n, s'.screens n = (s.screens n).map (f n)) ∧
      ∀ n screen, s.screens n = some screen → Unchanged screen (f n screen)

theorem Quiet.refl (s : State URL) : Quiet s s where
  world := rfl
  owner := rfl
  screens := ⟨fun _ => id, fun _ => by simp, fun _ screen _ => .refl screen⟩

theorem Quiet.pop (h : Quiet s s') (device : Device) : Quiet s (s'.pop device) :=
  ⟨h.world, h.owner, h.screens⟩

theorem quiet_modify {f : PostDetailViewController URL → PostDetailViewController URL}
    (h : ∀ screen, s.screens k = some screen → Unchanged screen (f screen)) :
    Quiet s (s.modify k f) where
  world := rfl
  owner := rfl
  screens := by
    refine ⟨fun n => if n = k then f else id, fun _ => rfl, fun n screen hn => ?_⟩
    by_cases hnk : n = k
    · subst hnk
      simpa using h screen hn
    · simpa [hnk] using Unchanged.refl screen

theorem quiet_runBlock (hscreen : s.screens k = some screen) (hpops : 0 < screen.pops) :
    Quiet s (s.runBlock k screen) := by
  unfold State.runBlock
  split
  · refine (quiet_modify fun screen' hscreen' => ?_).pop _
    obtain rfl := Option.some.inj (hscreen.symm.trans hscreen')
    exact ⟨rfl, rfl, rfl, fun _ => .inl hpops⟩
  · refine quiet_modify fun screen' hscreen' => ?_
    obtain rfl := Option.some.inj (hscreen.symm.trans hscreen')
    exact ⟨rfl, rfl, rfl, fun _ => .inl hpops⟩

/-- A tap is a call of the app about the post of the screen. -/
theorem tap_eq_some (call : Post → Call) (h : s.tap S i k call = some s') :
    ∃ screen world, s.screens k = some screen ∧
      SociallyUIKit.step S s.world (.start i screen.device (call screen.post)) = some world ∧
      s' = { s with world := world, owner := Function.update s.owner i (some k) } := by
  obtain ⟨screen, hscreen, h⟩ := Option.bind_eq_some_iff.mp h
  obtain ⟨world, hworld, rfl⟩ := Option.map_eq_some_iff.mp h
  exact ⟨screen, world, hscreen, hworld, rfl⟩

/-- **What a step does**: the app goes on, a screen is opened, a screen makes a call about its
own post, or all screens show what they have shown. -/
theorem step_cases (hs : s.step string S input = some s') :
    (∃ action world, isDetailTap action = false ∧
      SociallyUIKit.step S s.world action = some world ∧ s' = s.after string world action) ∨
    (∃ k device post, s.screens k = none ∧ s'.world = s.world ∧ s'.owner = s.owner ∧
      s'.screens = Function.update s.screens k (some (.new string device post))) ∨
    (∃ i k screen call world, s.screens k = some screen ∧ call.post? = some screen.post ∧
      SociallyUIKit.step S s.world (.start i screen.device call) = some world ∧
      s' = { s with world := world, owner := Function.update s.owner i (some k) }) ∨
    Quiet s s' := by
  cases input with
  | app action =>
      obtain ⟨hno, hs⟩ := Option.ite_none_left_eq_some.mp hs
      obtain ⟨world, hworld, rfl⟩ := Option.map_eq_some_iff.mp hs
      exact .inl ⟨action, world, by simpa using hno, hworld, rfl⟩
  | tapRow k device post =>
      obtain ⟨⟨hnone, -⟩, hs⟩ := Option.ite_none_right_eq_some.mp hs
      obtain rfl := Option.some.inj hs
      exact .inr (.inl ⟨k, device, post, hnone, rfl, rfl, rfl⟩)
  | save i k newDescription =>
      obtain ⟨screen, world, hscreen, hworld, rfl⟩ :=
        tap_eq_some (fun post => .updatePost post newDescription) hs
      exact .inr (.inr (.inl ⟨i, k, screen, _, world, hscreen, rfl, hworld, rfl⟩))
  | trash i k =>
      obtain ⟨screen, world, hscreen, hworld, rfl⟩ := tap_eq_some .deletePost hs
      exact .inr (.inr (.inl ⟨i, k, screen, _, world, hscreen, rfl, hworld, rfl⟩))
  | back device =>
      obtain rfl := Option.some.inj hs
      exact .inr (.inr (.inr ((Quiet.refl s).pop device)))
  | runBlock k =>
      obtain ⟨screen, hscreen, hs⟩ := Option.bind_eq_some_iff.mp hs
      obtain ⟨hpops, hs⟩ := Option.ite_none_right_eq_some.mp hs
      obtain rfl := Option.some.inj hs
      exact .inr (.inr (.inr (quiet_runBlock hscreen hpops)))

/-- **The app under the screens is the app.** -/
theorem world_reachable (h : Reachable string S fb s) : SociallyUIKit.Reachable S fb s.world := by
  refine Lib.Reachable.project State.world (fun s input s' hs => ?_) h
  rcases step_cases hs with ⟨action, world, -, hworld, rfl⟩ | ⟨k, device, post, -, heq, -⟩ |
    ⟨i, k, screen, call, world, -, -, hworld, rfl⟩ | hquiet
  · exact .inr ⟨action, hworld⟩
  · exact .inl heq
  · exact .inr ⟨_, hworld⟩
  · exact .inl hquiet.world

/-! ## What is reported -/

variable {w : World} {op : Op}

/-- Only an edit reports an edited post. -/
theorem updatePost_of_updated (h : SociallyUIKit.Reachable S fb w) (hop : w.ops i = some op)
    {edited : Post} (hout : .updated (.ok edited) ∈ op.outs) :
    ∃ post newDescription, op.call = .updatePost post newDescription := by
  obtain ⟨hat, hmeets⟩ := (readBack_reachable h).code.at_meets hop
  obtain ⟨served, -, hreport⟩ := Lib.Code.At.reported hmeets hat hout
  generalize hcall : op.call = call at hreport
  cases hreport with
  | updated => exact ⟨_, _, rfl⟩

/-- The two requests of a deletion that has succeeded. -/
def deletion (S : StorageService) (d imageURL : String) : List Event :=
  [ok (.deleteDocument ["Posts", d]) none, ok (.deleteObject (S.reference imageURL)) none]

/-- **A deletion that reports success** has deleted the document and the image. -/
theorem deletePost_of_deleted (h : SociallyUIKit.Reachable S fb w) (hop : w.ops i = some op)
    (hout : .deleted (.ok ()) ∈ op.outs) :
    ∃ post d imageURL, op.call = .deletePost post ∧ post.id = some d ∧
      post.imageURL = some imageURL ∧ op.history = deletion S d imageURL := by
  obtain ⟨hat, hmeets⟩ := (readBack_reachable h).code.at_meets hop
  obtain ⟨served, -, hreport⟩ := Lib.Code.At.reported hmeets hat hout
  generalize hcall : op.call = call at hat hreport
  cases hreport with
  | @deleted post =>
    have hover : op.tasks = [] ∨ op.outs ≠ [] := .inr (List.ne_nil_of_mem hout)
    simp only [Call.code, PostService.deletePost] at hat
    split at hat
    next =>
      rw [hat.2.1] at hout
      cases hout
    next d hid =>
      obtain ⟨choice, error, rest, hans, hhistory, hdeleted⟩ := hat.request_over hover
      rcases hans.deleteDocument with ⟨rfl, rfl⟩ | ⟨e, rfl, rfl⟩
      · dsimp only at hdeleted
        split at hdeleted
        next imageURL hurl =>
          obtain ⟨choice, error, rest, hans, rfl, himage⟩ := hdeleted.request_over hover
          rcases hans.deleteObject with ⟨rfl, rfl⟩ | ⟨e, rfl, rfl⟩
          · obtain ⟨rfl, -, -⟩ := Lib.Code.At.call_done himage
            exact ⟨post, d, imageURL, rfl, hid, hurl, hhistory⟩
          · rw [(Lib.Code.At.call_done himage).2.1] at hout
            cases List.mem_singleton.mp hout
        next =>
          rw [hdeleted.2.1] at hout
          cases hout
      · rw [hdeleted.call_done.2.1] at hout
        cases List.mem_singleton.mp hout

/-! ## What the screens have -/

/-- A call of the screen `k`, about the document `id`. -/
structure Called (s : State URL) (k : ℕ) (id : Option String) (i : ℕ) (op : Op) (post : Post) :
    Prop where
  owner : s.owner i = some k
  made : s.world.ops i = some op
  about : op.call.post? = some post
  sameDocument : post.id = id

/-- What a screen has of its document. -/
structure Own (string : String → Option URL) (s : State URL) (k : ℕ)
    (screen : PostDetailViewController URL) : Prop where
  sameDocument : screen.post.id = screen.opened.id
  image : ∀ imageURL url, screen.post.imageURL = some imageURL → string imageURL = some url →
    screen.imageURL = some url
  /-- Its post is the one it was opened with, or one of its own calls has reported it. -/
  post : screen.post = screen.opened ∨ ∃ i op post, Called s k screen.opened.id i op post ∧
    .updated (.ok screen.post) ∈ op.outs
  /-- It is told to pop by one of its own calls. -/
  popping : screen.Popping → ∃ i op post, Called s k screen.opened.id i op post ∧
    .deleted (.ok ()) ∈ op.outs

/-- Calls and screens stay, and calls stay with their screens. -/
structure Later (s s' : State URL) : Prop where
  owner : ∀ i k, s.owner i = some k → s'.owner i = some k
  ops : ∀ i op, s.world.ops i = some op → ∃ op', s'.world.ops i = some op' ∧
    op'.call = op.call ∧ op.outs ⊆ op'.outs
  screens : ∀ k screen, s.screens k = some screen → ∃ screen', s'.screens k = some screen' ∧
    screen'.opened = screen.opened

theorem Later.of_same (hworld : s'.world = s.world) (howner : s'.owner = s.owner)
    (hscreens : ∀ k screen, s.screens k = some screen → ∃ screen', s'.screens k = some screen' ∧
      screen'.opened = screen.opened) : Later s s' where
  owner i k hi := by rw [howner]; exact hi
  ops i op hop := ⟨op, by rw [hworld]; exact hop, rfl, List.Subset.refl _⟩
  screens := hscreens

theorem Called.later {id : Option String} {op : Op} {post : Post} (h : Called s k id i op post)
    (hlater : Later s s') : ∃ op', Called s' k id i op' post ∧ op.outs ⊆ op'.outs := by
  obtain ⟨op', hmade, hcall, houts⟩ := hlater.ops i op h.made
  refine ⟨op', ⟨hlater.owner i k h.owner, hmade, ?_, h.sameDocument⟩, houts⟩
  rw [hcall]
  exact h.about

theorem Own.later (h : Own string s k screen) (hlater : Later s s')
    (hsame : Unchanged screen screen') : Own string s' k screen' where
  sameDocument := by rw [hsame.post, hsame.opened, h.sameDocument]
  image := by rw [hsame.post, hsame.imageURL]; exact h.image
  post := by
    rw [hsame.post, hsame.opened]
    refine h.post.imp_right fun ⟨i, op, post, hcalled, hout⟩ => ?_
    obtain ⟨op', hcalled', houts⟩ := hcalled.later hlater
    exact ⟨i, op', post, hcalled', houts hout⟩
  popping hpopping := by
    rw [hsame.opened]
    obtain ⟨i, op, post, hcalled, hout⟩ := h.popping (hsame.popping hpopping)
    obtain ⟨op', hcalled', houts⟩ := hcalled.later hlater
    exact ⟨i, op', post, hcalled', houts hout⟩

theorem own_new (s : State URL) (k : ℕ) (device : Device) (post : Post) :
    Own string s k (.new string device post) where
  sameDocument := rfl
  image imageURL url hpost hurl := by
    have hpost : post.imageURL = some imageURL := hpost
    simp [PostDetailViewController.new, hpost, hurl]
  post := .inl rfl
  popping hpopping := by
    simp [PostDetailViewController.Popping, PostDetailViewController.new] at hpopping

/-- **A report to the screen that has made the call.** -/
theorem Own.report (h : Own string s k screen) (hreach : SociallyUIKit.Reachable S fb s.world)
    {op : Op} {post : Post} (hcalled : Called s k screen.opened.id i op post) {out : Out}
    (hout : out ∈ op.outs) :
    Own string s k (screen.report string out) ∧
      (screen.report string out).opened = screen.opened := by
  rcases out with _ | (_ | edited) | (_ | _)
  · exact ⟨h, rfl⟩
  · exact ⟨h, rfl⟩
  · refine ⟨⟨?_, fun imageURL url hpost hurl => ?_, .inr ⟨i, op, post, hcalled, hout⟩, h.popping⟩,
      rfl⟩
    · -- the edit has read back the document that it has written
      obtain ⟨post', newDescription, hcall⟩ := updatePost_of_updated hreach hcalled.made hout
      obtain ⟨d, -, -, -, -, hid, hedited, -⟩ :=
        linearized_of_updated hreach hcalled.made hcall hout
      have hpost := hcalled.about
      rw [hcall] at hpost
      obtain rfl := Option.some.inj hpost
      exact hedited.trans (hid.symm.trans hcalled.sameDocument)
    · have hpost : edited.imageURL = some imageURL := hpost
      simp [PostDetailViewController.report, PostDetailViewController.configureWithPost, hpost,
        hurl]
  · exact ⟨h, rfl⟩
  · exact ⟨⟨h.sameDocument, h.image, h.post, fun _ => ⟨i, op, post, hcalled, hout⟩⟩, rfl⟩

/-- So are all reports of a callback. -/
theorem Own.reports (hreach : SociallyUIKit.Reachable S fb s.world) {op : Op} {post : Post}
    {outs : List Out} (h : Own string s k screen) (hcalled : Called s k screen.opened.id i op post)
    (houts : outs ⊆ op.outs) :
    Own string s k (outs.foldl (PostDetailViewController.report string) screen) ∧
      (outs.foldl (PostDetailViewController.report string) screen).opened = screen.opened := by
  induction outs generalizing screen with
  | nil => exact ⟨h, rfl⟩
  | cons out outs ih =>
      obtain ⟨hout, houts⟩ := List.cons_subset.mp houts
      obtain ⟨hown, hopened⟩ := h.report hreach hcalled hout
      obtain ⟨hown', hopened'⟩ := ih hown (hopened ▸ hcalled) houts
      exact ⟨hown', hopened'.trans hopened⟩

/-- What is known of the app with its screens. -/
structure Inv (string : String → Option URL) (S : StorageService) (fb : Firebase) (s : State URL) :
    Prop where
  world : SociallyUIKit.Reachable S fb s.world
  called : ∀ i k, s.owner i = some k → ∃ screen op post, s.screens k = some screen ∧
    Called s k screen.opened.id i op post
  own : ∀ k screen, s.screens k = some screen → Own string s k screen

theorem inv_initial (string : String → Option URL) (S : StorageService) (fb : Firebase) :
    Inv string S fb (.initial fb) where
  world := ⟨[], rfl⟩
  called i k h := by cases h
  own k screen h := by cases h

/-- The calls of the screens after a step that makes none. -/
theorem Inv.called_later (h : Inv string S fb s) (hlater : Later s s')
    (howner : s'.owner = s.owner) (hi : s'.owner i = some k) :
    ∃ screen op post, s'.screens k = some screen ∧ Called s' k screen.opened.id i op post := by
  rw [howner] at hi
  obtain ⟨screen, op, post, hscreen, hcalled⟩ := h.called i k hi
  obtain ⟨op', hcalled', -⟩ := hcalled.later hlater
  obtain ⟨screen', hscreen', hopened⟩ := hlater.screens k screen hscreen
  exact ⟨screen', op', post, hscreen', hopened ▸ hcalled'⟩

/-- A screen hears only what its own calls report. -/
theorem heard_cases (s : State URL) (world : World) (n : ℕ) (action : Action) :
    s.heard world n action = [] ∨ ∃ i, s.owner i = some n ∧
      ∀ op, world.ops i = some op → s.heard world n action ⊆ op.outs := by
  cases action with
  | deliver i j =>
      by_cases hi : s.owner i = some n
      · refine .inr ⟨i, hi, fun op hop => ?_⟩
        simp only [State.heard, hi, if_true, newOuts, hop]
        exact List.drop_subset _ _
      · exact .inl (by simp [State.heard, hi])
  | _ => exact .inl rfl

/-- The app goes on. -/
theorem Inv.after (h : Inv string S fb s) {action : Action} {world : World}
    (hworld : SociallyUIKit.step S s.world action = some world) :
    Inv string S fb (s.after string world action) := by
  have hreach : SociallyUIKit.Reachable S fb world := Lib.Reachable.next h.world hworld
  have hlater : Later s { s with world := world } :=
    ⟨fun _ _ => id, fun i op hop => by
      obtain ⟨op', hop', -, hcall, houts⟩ := Lib.World.outs_step hworld hop
      exact ⟨op', hop', hcall, houts⟩, fun k screen hk => ⟨screen, hk, rfl⟩⟩
  have hown : ∀ k screen, s.screens k = some screen →
      let heard := (s.heard world k action).foldl (PostDetailViewController.report string) screen
      Own string { s with world := world } k heard ∧ heard.opened = screen.opened := by
    intro k screen hscreen
    have hscreen' := (h.own k screen hscreen).later hlater (.refl screen)
    rcases heard_cases s world k action with hnil | ⟨i, hi, houts⟩
    · rw [hnil]
      exact ⟨hscreen', rfl⟩
    · obtain ⟨screen', op, post, heq, hcalled⟩ := h.called i k hi
      obtain rfl := Option.some.inj (hscreen.symm.trans heq)
      obtain ⟨op', hcalled', -⟩ := hcalled.later hlater
      exact hscreen'.reports hreach hcalled' (houts op' hcalled'.made)
  have hlater' : Later s (s.after string world action) :=
    ⟨hlater.owner, hlater.ops, fun k screen hk =>
      ⟨_, by simp only [State.after, hk, Option.map_some], (hown k screen hk).2⟩⟩
  have hlast : Later { s with world := world } (s.after string world action) :=
    .of_same rfl rfl hlater'.screens
  refine ⟨hreach, fun i k hi => h.called_later hlater' rfl hi, fun k screen' hscreen' => ?_⟩
  obtain ⟨screen, hscreen, rfl⟩ := Option.map_eq_some_iff.mp hscreen'
  exact (hown k screen hscreen).1.later hlast (.refl _)

/-- A screen is opened. -/
theorem Inv.tapRow (h : Inv string S fb s) {device : Device} {post : Post}
    (hnone : s.screens k = none) (hworld : s'.world = s.world) (howner : s'.owner = s.owner)
    (hscreens : s'.screens = Function.update s.screens k (some (.new string device post))) :
    Inv string S fb s' := by
  have hlater : Later s s' := .of_same hworld howner fun n screen hn => by
    have hne : n ≠ k := by rintro rfl; cases hnone.symm.trans hn
    exact ⟨screen, by rw [hscreens, Function.update_of_ne hne]; exact hn, rfl⟩
  refine ⟨hworld ▸ h.world, fun i k hi => h.called_later hlater howner hi, fun n screen hn => ?_⟩
  rw [hscreens] at hn
  by_cases hne : n = k
  · subst hne
    rw [Function.update_self] at hn
    obtain rfl := Option.some.inj hn
    exact own_new s' n device post
  · rw [Function.update_of_ne hne] at hn
    exact (h.own n screen hn).later hlater (.refl screen)

/-- A screen makes a call. -/
theorem Inv.tap (h : Inv string S fb s) {call : Call} {world : World}
    (hscreen : s.screens k = some screen) (hpost : call.post? = some screen.post)
    (hworld : SociallyUIKit.step S s.world (.start i screen.device call) = some world) :
    Inv string S fb { s with world := world, owner := Function.update s.owner i (some k) } := by
  have hfresh : s.world.ops i = none := by
    rcases Lib.World.step_cases hworld with ⟨j, c, call', env, heq, hj, -⟩ |
      ⟨_, _, _, _, _, _, _, _, heq, -⟩ | ⟨_, _, _, _, heq, -⟩ | ⟨_, _, heq, -⟩
    · cases heq
      exact hj
    all_goals cases heq
  have howner : ∀ j n, s.owner j = some n → Function.update s.owner i (some k) j = some n := by
    intro j n hj
    have hne : j ≠ i := by
      rintro rfl
      obtain ⟨_, op, _, -, hcalled⟩ := h.called j n hj
      cases hfresh.symm.trans hcalled.made
    rw [Function.update_of_ne hne]
    exact hj
  have hlater : Later s { s with world := world, owner := Function.update s.owner i (some k) } := by
    refine ⟨howner, fun j op hop => ?_, fun n screen hn => ⟨screen, hn, rfl⟩⟩
    obtain ⟨op', hop', -, hcall, houts⟩ := Lib.World.outs_step hworld hop
    exact ⟨op', hop', hcall, houts⟩
  refine ⟨Lib.Reachable.next h.world hworld, fun j n hj => ?_, fun n screen hn =>
    (h.own n screen hn).later hlater (.refl screen)⟩
  by_cases hne : j = i
  · subst hne
    obtain rfl : k = n := by simpa using hj
    obtain ⟨env, -, rfl⟩ := Lib.World.step_start hworld
    exact ⟨screen, _, screen.post, hscreen, hj, Function.update_self _ _ _, hpost,
      (h.own k screen hscreen).sameDocument⟩
  · have hj : s.owner j = some n := by simpa [hne] using hj
    obtain ⟨screen', op, post, hscreen', hcalled⟩ := h.called j n hj
    obtain ⟨op', hcalled', -⟩ := hcalled.later hlater
    exact ⟨screen', op', post, hscreen', hcalled'⟩

theorem Inv.quiet (h : Inv string S fb s) (hquiet : Quiet s s') : Inv string S fb s' := by
  obtain ⟨f, hscreens, hsame⟩ := hquiet.screens
  have hlater : Later s s' := .of_same hquiet.world hquiet.owner fun k screen hk =>
    ⟨f k screen, by rw [hscreens, hk, Option.map_some], (hsame k screen hk).opened⟩
  refine ⟨hquiet.world ▸ h.world, fun i k hi => h.called_later hlater hquiet.owner hi,
    fun k screen' hk => ?_⟩
  rw [hscreens] at hk
  obtain ⟨screen, hscreen, rfl⟩ := Option.map_eq_some_iff.mp hk
  exact (h.own k screen hscreen).later hlater (hsame k screen hscreen)

theorem inv_reachable (h : Reachable string S fb s) : Inv string S fb s := by
  refine h.invariant (inv_initial string S fb) fun s input s' hinv hs => ?_
  rcases step_cases hs with ⟨action, world, -, hworld, rfl⟩ |
    ⟨k, device, post, hnone, hworld, howner, hscreens⟩ |
    ⟨i, k, screen, call, world, hscreen, hpost, hworld, rfl⟩ | hquiet
  · exact hinv.after hworld
  · exact hinv.tapRow hnone hworld howner hscreens
  · exact hinv.tap hscreen hpost hworld
  · exact hinv.quiet hquiet

/-! ## What the screens show -/

/-- What the screen `k` shows, where the reads of its edits are answered by the server while the
device has no later write to the document pending. -/
structure Showing (string : String → Option URL) (s : State URL) (k : ℕ)
    (screen : PostDetailViewController URL) : Prop where
  sameDocument : screen.post.id = screen.opened.id
  labels : screen.descriptionLabelText = screen.post.description ∧
    screen.nameLabelText = screen.post.userName ∧ screen.dateLabelDate = screen.post.datePublished
  image : ∀ imageURL url, screen.post.imageURL = some imageURL → string imageURL = some url →
    screen.imageURL = some url
  /-- Its post is as the row had it, or as one of its own edits has left it. -/
  source : screen.post = screen.opened ∨ ∃ i post newDescription, s.owner i = some k ∧
    post.id = screen.opened.id ∧ Linearized s.world i post newDescription screen.post
  calls : ∀ i, s.owner i = some k → ∃ op post, s.world.ops i = some op ∧
    op.call.post? = some post ∧ post.id = screen.opened.id

/-- **What a detail screen shows**, in every reachable state. -/
theorem showing_reachable (h : Reachable string S fb s) (hscreen : s.screens k = some screen) :
    Showing string s k screen := by
  have hinv := inv_reachable h
  have hown := hinv.own k screen hscreen
  refine ⟨hown.sameDocument, screen.configured, hown.image, ?_, fun i hi => ?_⟩
  · refine hown.post.imp_right fun ⟨i, op, post, hcalled, hout⟩ => ?_
    obtain ⟨post', newDescription, hcall⟩ := updatePost_of_updated hinv.world hcalled.made hout
    have habout := hcalled.about
    rw [hcall] at habout
    obtain rfl := Option.some.inj habout
    exact ⟨i, post', newDescription, hcalled.owner, hcalled.sameDocument,
      linearized_of_updated hinv.world hcalled.made hcall hout⟩
  · obtain ⟨screen', op, post, heq, hcalled⟩ := hinv.called i k hi
    obtain rfl := Option.some.inj (hscreen.symm.trans heq)
    exact ⟨op, post, hcalled.made, hcalled.about, hcalled.sameDocument⟩

/-- Two screens edit one post, and the second writes before the first reads. -/
def overtakenScreensRun : List Input :=
  (overtakenEditRun.take 10).map .app ++ [.tapRow 0 0 shownFirst, .tapRow 1 0 shownFirst,
    .save 2 0 "one", .save 3 1 "two"] ++ (overtakenEditRun.drop 12).map .app

/-- The first screen shows what the second has written. -/
theorem showing_overtaken : ∃ (s : State String) (screen : PostDetailViewController String),
    Lib.run (State.step some .plain) (.initial .empty) overtakenScreensRun = some s ∧
    s.screens 0 = some screen ∧ screen.descriptionLabelText = some "two" ∧
    Showing some s 0 screen := by
  have hrun : ∃ (s : State String) (screen : PostDetailViewController String),
      Lib.run (State.step some .plain) (.initial .empty) overtakenScreensRun = some s ∧
      s.screens 0 = some screen ∧ screen.descriptionLabelText = some "two" :=
    ⟨_, _, rfl, rfl, rfl⟩
  obtain ⟨s, screen, hs, hscreen, htext⟩ := hrun
  have hreach : Reachable some .plain .empty s := ⟨_, hs⟩
  exact ⟨s, screen, hs, hscreen, htext, showing_reachable hreach hscreen⟩

/-! ## Screens that pop -/

/-- The screen `k` has had its document and the image behind it deleted, and the query of the
feed no longer lists the document.  Other devices may show it until their next snapshot. -/
def Gone (S : StorageService) (s : State URL) (k : ℕ) (screen : PostDetailViewController URL) :
    Prop :=
  ∃ i op post d imageURL, s.owner i = some k ∧ s.world.ops i = some op ∧
    op.call = .deletePost post ∧ op.history = deletion S d imageURL ∧
    screen.opened.id = some d ∧ post.id = some d ∧ post.imageURL = some imageURL ∧
    d ∉ feedIDs (database s.world)

/-- **A screen pops the stack only when its document is gone.** -/
theorem gone_of_popped (h : Reachable string S fb s) (hscreen : s.screens k = some screen)
    (hpopped : screen.popped = true) : Gone S s k screen := by
  have hinv := inv_reachable h
  obtain ⟨i, op, post, hcalled, hout⟩ := (hinv.own k screen hscreen).popping (.inr hpopped)
  obtain ⟨post', d, imageURL, hcall, hid, hurl, hhistory⟩ :=
    deletePost_of_deleted hinv.world hcalled.made hout
  have habout := hcalled.about
  rw [hcall] at habout
  obtain rfl := Option.some.inj habout
  refine ⟨i, op, post', d, imageURL, hcalled.owner, hcalled.made, hcall, hhistory,
    hcalled.sameDocument.symm.trans hid, hid, hurl, unlisted_of_deleted hinv.world ?_⟩
  have hentry := (logged_reachable hinv.world).served i op (ok (.deleteDocument ["Posts", d]) none)
    hcalled.made (by rw [hhistory]; exact List.mem_cons_self)
  rw [hcall] at hentry
  exact List.mem_filterMap.mpr ⟨_, hentry, rfl⟩

/-- A screen is opened on the post of `shownRun`, and deletes it. -/
def trashRun : List Input :=
  shownRun.map .app ++ [.tapRow 0 0 shownPost, .trash 2 0, .app (.serve 2 0 .success),
    .app (.deliver 2 0), .app (.serve 2 0 .success), .app (.deliver 2 0), .runBlock 0]

theorem gone_trashRun : ∃ (s : State String) (screen : PostDetailViewController String),
    Lib.run (State.step some .plain) (.initial .empty) trashRun = some s ∧
    s.screens 0 = some screen ∧ s.stack 0 = [] ∧ Gone .plain s 0 screen := by
  have hrun : ∃ (s : State String) (screen : PostDetailViewController String),
      Lib.run (State.step some .plain) (.initial .empty) trashRun = some s ∧
      s.screens 0 = some screen ∧ s.stack 0 = [] ∧ screen.popped = true :=
    ⟨_, _, rfl, rfl, rfl, rfl⟩
  obtain ⟨s, screen, hs, hscreen, hstack, hpopped⟩ := hrun
  have hreach : Reachable some .plain .empty s := ⟨_, hs⟩
  exact ⟨s, screen, hs, hscreen, hstack, gone_of_popped hreach hscreen hpopped⟩

end FirebaseApps.SociallyUIKit.Detail
