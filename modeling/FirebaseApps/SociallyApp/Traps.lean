import FirebaseApps.AppleSignIn.Nonces
import FirebaseApps.Composing.LastPick

/-!
# SociallyApp: where does the app trap?

The Post action of `PostView` unwraps `data!`, which is there only after a load has given
one, and its button is enabled from the start.  `signInWithAppleCompletion` stops at a
missing nonce, which a request has always set before, and at a credential without an
identity token, which nothing excludes.  The app traps exactly when one of these is
reached (`neverTraps_iff`).
-/

namespace FirebaseApps.SociallyApp

/-! ## `PostView` -/

namespace PostView

variable {self : PostView} {event : Composing.Event Edit Out} {state : Option PostView}

/-- An event of the screen; `none` is the process that has trapped at `data!`. -/
def trapping : Option PostView → Composing.Event Edit Out → Option (Option PostView)
  | none, _ => none
  | some self, .edit event => (self.edit event).map some
  | some self, .tap =>
      if self.isUploading then none else some (self.postButton.map fun posted => posted.2.2)
  | some self, .emit out => some (some (self.emit out))

/-- The event is a Post tap. -/
def isTap : Composing.Event Edit Out → Bool
  | .tap => true
  | .edit _ | .emit _ => false

/-- Each tap comes after a load that has given data; `loaded` tells whether there was one
before. -/
def tapsLoaded (loaded : Bool) : List (Composing.Event Edit Out) → Bool
  | [] => true
  | event :: events =>
      (loaded || !isTap event) && tapsLoaded (loaded || (result? event).isSome) events

/-- **One event**: the screen goes on as usual, or a tap traps without data. -/
theorem trapping_cases (h : trapping (some self) event = some state) :
    (∃ self', state = some self' ∧ composer.next self event = some self' ∧
      (isTap event = true → self.data.isSome = true)) ∨
    (state = none ∧ isTap event = true ∧ self.data = none) := by
  cases event with
  | edit event =>
      obtain ⟨self', hedit, rfl⟩ := Option.map_eq_some_iff.mp h
      exact .inl ⟨self', rfl, hedit, fun htap => by cases htap⟩
  | tap =>
      obtain ⟨henabled, heq⟩ := Option.ite_none_left_eq_some.mp h
      obtain rfl := Option.some.inj heq
      cases hdata : self.data with
      | none => exact .inr ⟨by simp [postButton, hdata], rfl, rfl⟩
      | some data =>
          refine .inl ⟨{ self with isUploading := true }, by simp [postButton, hdata], ?_,
            fun _ => rfl⟩
          simp [Composing.Composer.next, composer, henabled, postButton, hdata]
  | emit out =>
      obtain rfl := Option.some.inj h
      exact .inl ⟨_, rfl, rfl, fun htap => by cases htap⟩

/-- An event keeps the data, or stores what its load gives. -/
theorem isSome_data_next {self' : PostView} (h : composer.next self event = some self') :
    self'.data.isSome = (self.data.isSome || (result? event).isSome) := by
  rw [data_next h]
  cases event with
  | edit event =>
      rcases event with text | items | ⟨pick, _ | _ | data⟩ <;> simp [result?, Composing.store]
  | tap | emit => simp [result?, Composing.store]

/-- **A run traps exactly when a tap comes too early.** -/
theorem isSome_of_run {events : List (Composing.Event Edit Out)}
    (h : Lib.run trapping (some self) events = some state) :
    state.isSome = tapsLoaded self.data.isSome events := by
  induction events generalizing self with
  | nil =>
      obtain rfl : some self = state := by simpa using h
      rfl
  | cons event events ih =>
      rw [Lib.run_cons, Option.bind_eq_some_iff] at h
      obtain ⟨next, hnext, hrun⟩ := h
      rcases trapping_cases hnext with ⟨self', rfl, hself, htap⟩ | ⟨rfl, htap, hdata⟩
      · have hloaded : (self.data.isSome || !isTap event) = true := by
          cases hevent : isTap event with
          | true => simp [htap hevent]
          | false => simp
        rw [ih hrun, isSome_data_next hself, tapsLoaded, hloaded, Bool.true_and]
      · -- a process that has trapped takes no more events
        cases events with
        | nil =>
            obtain rfl : none = state := by simpa using hrun
            simp [tapsLoaded, htap, hdata]
        | cons event events => cases hrun

end PostView
end FirebaseApps.SociallyApp

/-! ## Sign in with Apple -/

namespace FirebaseApps.AppleSignIn

variable {S : StorageService} {sha256 : String → String} {w w' : World} {action : Action}

/-- A callback of Apple answers a request. -/
def answersRequest : Action → Bool
  | .start _ _ (.completion none _) => false
  | _ => true

/-- A credential of Apple has an identity token. -/
def hasToken : Action → Bool
  | .start _ _ (.completion _ (.ok (.appleID none))) => false
  | _ => true

/-- With a nonce, the callback traps exactly for a credential without a token. -/
theorem crashed_completion (env : Env) {nonce : String} (hnonce : env.currentNonce = some nonce)
    (request : Option ℕ) (result : Except NSError ASAuthorizationCredential) (i : ℕ) :
    ((host S sha256 .sociallyApp).exec ()
        (Call.code sha256 .sociallyApp (.completion request result)) env).env.crashed =
      (env.crashed || !hasToken (.start i () (.completion request result))) := by
  rcases result with error | (identityToken | -)
  · simp [Call.code, AuthViewModel.signInWithAppleCompletion, Lib.Host.exec, hasToken]
  · cases identityToken with
    | none =>
        simp [Call.code, AuthViewModel.signInWithAppleCompletion, Lib.Host.exec, hasToken, host,
          hnonce, Env.emit]
    | some data =>
        cases htoken : utf8 data <;>
          simp [Call.code, AuthViewModel.signInWithAppleCompletion, Lib.Host.exec, hasToken, host,
            hnonce, htoken]
  · simp [Call.code, AuthViewModel.signInWithAppleCompletion, Lib.Host.exec, hasToken]

/-- **One step**: only a credential without a token makes SociallyApp trap. -/
theorem crashed_step (h : Nonces S sha256 .sociallyApp w) (hanswers : answersRequest action)
    (hs : step S sha256 .sociallyApp w action = some w') :
    w'.env.crashed = (w.env.crashed || !hasToken action) := by
  rcases Lib.World.step_cases hs with ⟨i, c, call, env, rfl, hi, ha, rfl⟩ |
    ⟨i, j, choice, op, r, callback, env, a, rfl, hi, ht, hr, rfl⟩ |
    ⟨i, j, op, code, rfl, hi, ht, rfl⟩ | ⟨a, env, rfl, ha, rfl⟩
  · cases call with
    | signIn nonce =>
        obtain ⟨-, hdraw⟩ := Option.ite_none_left_eq_some.mp ha
        obtain rfl := Option.some.inj hdraw
        rw [Lib.World.env_resume]
        refine (congrArg Env.crashed (exec_signIn S sha256 .sociallyApp nonce _).1).trans ?_
        simp [hasToken]
    | completion request result =>
        obtain ⟨hmade, hanswer⟩ := Option.ite_none_left_eq_some.mp ha
        obtain rfl := Option.some.inj hanswer
        cases request with
        | none => cases hanswers
        | some k =>
            -- the request that is answered has set the nonce
            have hk : k < w.env.requests.length :=
              Nat.lt_of_not_le fun hle => hmade (.inr ⟨k, rfl, hle⟩)
            obtain ⟨nonce, hnonce⟩ : ∃ nonce, w.env.currentNonce = some nonce := by
              rw [h.requests, List.length_map] at hk
              rw [h.current]
              exact ⟨_, List.getLast?_eq_some_getLast (List.ne_nil_of_length_pos (by omega))⟩
            exact crashed_completion { w.env with answered := [k] ++ w.env.answered } hnonce
              (some k) result i
  · obtain ⟨firebase, -, rfl⟩ := serve_eq_some hr
    exact (Bool.or_false _).symm
  · rw [Lib.World.env_resume]
    exact (congrArg Env.crashed (exec_ready h.code hi ht).1).trans (Bool.or_false _).symm
  · cases a

/-- **A run**: SociallyApp traps exactly when Apple sends a credential without a token. -/
theorem crashed_run {as : List Action} (h : Nonces S sha256 .sociallyApp w)
    (hrun : Lib.run (step S sha256 .sociallyApp) w as = some w')
    (hanswers : ∀ action ∈ as, answersRequest action) :
    w'.env.crashed = (w.env.crashed || !as.all hasToken) := by
  induction as generalizing w with
  | nil =>
      obtain rfl : w = w' := by simpa using hrun
      simp
  | cons action as ih =>
      rw [Lib.run_cons, Option.bind_eq_some_iff] at hrun
      obtain ⟨w₁, hs, hrun⟩ := hrun
      rw [ih (h.step hs) hrun fun a ha => hanswers a (List.mem_cons_of_mem _ ha),
        crashed_step h (hanswers action List.mem_cons_self) hs, List.all_cons, Bool.not_and,
        Bool.or_assoc]

end FirebaseApps.AppleSignIn

/-! ## Both -/

namespace FirebaseApps.SociallyApp

open AppleSignIn (answersRequest hasToken)

/-- **SociallyApp never traps** if and only if each Post tap comes after a load that has given
data, and each Apple credential has an identity token. -/
theorem neverTraps_iff (events : List (Composing.Event PostView.Edit Out)) (S : StorageService)
    (sha256 : String → String) (fb : Firebase) (as : List AppleSignIn.Action) :
    (∀ state, Lib.run PostView.trapping (some PostView.composer.initial) events = some state →
      (state.isSome ↔ PostView.tapsLoaded false events)) ∧
    ∀ w, Lib.run (AppleSignIn.step S sha256 .sociallyApp) (AppleSignIn.initial fb) as = some w →
      (∀ action ∈ as, answersRequest action) →
      (w.env.crashed = false ↔ ∀ action ∈ as, hasToken action) := by
  constructor
  · intro state hrun
    rw [PostView.isSome_of_run hrun]
    rfl
  · intro w hrun hanswers
    rw [AppleSignIn.crashed_run (AppleSignIn.nonces_initial S sha256 .sociallyApp fb) hrun hanswers]
    simp [AppleSignIn.initial, Lib.World.initial]

/-- A picture is picked, and a tap comes when its load has given data. -/
def loadAndPost : List (Composing.Event PostView.Edit Out) :=
  [.edit (.select [7]), .edit (.load 0 (.ok (some [0xFF]))), .tap, .emit (.added none)]

/-- Apple answers a request with this credential. -/
def answerWith (credential : AppleSignIn.ASAuthorizationCredential) : List AppleSignIn.Action :=
  [.start 0 () (.signIn "n1"), .start 1 () (.completion (some 0) (.ok credential))]

/-- Neither trap is reached after a load, and with a token that is not even UTF-8. -/
theorem neverTraps_loaded :
    (∃ state, Lib.run PostView.trapping (some {}) loadAndPost = some state ∧ state.isSome) ∧
    ∃ w, Lib.run (AppleSignIn.step .plain id .sociallyApp) (AppleSignIn.initial .empty)
      (answerWith (.appleID (some [0xFF]))) = some w ∧ w.env.crashed = false := by
  constructor
  · exact ⟨_, rfl, ((neverTraps_iff loadAndPost .plain id .empty []).1 _ rfl).mpr (by decide)⟩
  · exact ⟨_, rfl, ((neverTraps_iff [] .plain id .empty
      (answerWith (.appleID (some [0xFF])))).2 _ rfl (by decide)).mpr (by decide)⟩

/-- Both traps are reached: Post is tapped before any picture is there, and Apple sends a
credential without a token. -/
theorem trapsReached :
    (¬ ∀ events state, Lib.run PostView.trapping (some {}) events = some state → state.isSome) ∧
    ¬ ∀ (S : StorageService) (sha256 : String → String) (fb : Firebase)
      (as : List AppleSignIn.Action) (w : AppleSignIn.World),
      Lib.run (AppleSignIn.step S sha256 .sociallyApp) (AppleSignIn.initial fb) as = some w →
      (∀ action ∈ as, answersRequest action) → w.env.crashed = false := by
  constructor
  · intro h
    exact absurd (h [.tap] none rfl) (by decide)
  · intro h
    have hsafe := h .plain id .empty (answerWith (.appleID none)) _ rfl (by decide)
    exact absurd hsafe (by decide)

end FirebaseApps.SociallyApp
