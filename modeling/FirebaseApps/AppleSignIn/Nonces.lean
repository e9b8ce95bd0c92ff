import FirebaseApps.AppleSignIn.SignIn
import FirebaseApps.Lib.Run

/-!
# Sign in with Apple: which nonce goes with which token?

Both apps keep the nonce of the last tap in one variable that no callback clears.  A
callback therefore pairs its token with the nonce of the request made last, whichever
request it answers, and a second callback uses the same nonce again.  Both
properties hold of a run exactly when its callbacks come in the one order in which
this does no harm.

`always_usedOnce_iff` and `always_tokensMatch_iff` say what that order is for each of them:
a token comes after a new request while one is unanswered, and it answers the request made
last.
-/

namespace FirebaseApps.AppleSignIn

open Lib (Always StepsMeet Task)

variable {S : StorageService} {sha256 : String → String} {app : App}
variable {w w' : World} {action : Action} {i : ℕ}

/-- The operations of a reachable world are on their code. -/
abbrev OnCode (S : StorageService) (sha256 : String → String) (app : App) (w : World) : Prop :=
  Lib.World.OnCode (host S sha256 app) (fun _ (_ : Choice) _ => True) (fun _ _ => True) w

/-- The credential in a request. -/
def credentialOf? : Req → Option OAuthCredential
  | .signInWithCredential credential => some credential
  | _ => none

/-- The credentials sent to Firebase, each with the callback that sent it. -/
def issued (w : World) : List (ℕ × OAuthCredential) :=
  w.sent.filterMap fun s => (credentialOf? s.req).map (s.op, ·)

/-- Running code issues the credentials in the requests that it sends. -/
theorem issued_resume (w : World) (i : ℕ) (op : Op) (env : Env) (code : Code) :
    issued (w.resume (host S sha256 app) i op env code) = issued w ++
      (((host S sha256 app).exec op.client code env).tasks.filterMap Task.request?).filterMap
        fun r => (credentialOf? r).map (i, ·) := by
  rw [issued, issued, Lib.World.resume, List.filterMap_append, List.filterMap_map]
  rfl

/-- The nonces, the kept one and the requests are the same. -/
structure SameNonces (env env' : Env) : Prop where
  currentNonce : env'.currentNonce = env.currentNonce
  drawn : env'.drawn = env.drawn
  requests : env'.requests = env.requests

/-- A callback of Firebase leaves the app alone and sends no credential. -/
theorem exec_ready (h : OnCode S sha256 app w) {j : ℕ} {op : Op} {code : Code}
    (hop : w.ops i = some op) (ht : op.tasks[j]? = some (.ready code)) :
    ((host S sha256 app).exec op.client code w.env).env = w.env ∧
      ∀ r callback, Task.waiting r callback ∈
        ((host S sha256 app).exec op.client code w.env).tasks → credentialOf? r = none := by
  have hat := h i op hop (op.call.linear_code sha256 app)
  have hmem := List.mem_of_getElem? ht
  have hpast : op.history ≠ [] := hat.ready_history hmem
  have hmeets := hat.ready (meets_code sha256 app op.call) hmem
  obtain ⟨houts, htasks⟩ := hmeets.exec (host S sha256 app) op.client w.env
  constructor
  · refine (host S sha256 app).exec_env_invariant (P := fun env => env = w.env)
      (fun o ho env h => ?_) rfl
    obtain ⟨result, rfl⟩ := houts o ho hpast
    exact h
  · intro r callback hr
    cases r with
    | signInWithCredential credential => exact absurd rfl (htasks _ callback hr hpast credential)
    | _ => rfl

/-- Serving a request changes nothing but the backend. -/
theorem serve_eq_some {env env' : Env} {r : Req} {choice : Choice} {a : Ans r}
    (h : (host S sha256 app).serve env () r choice = some (env', a)) :
    ∃ firebase, env.firebase.serve S 0 r choice = some (firebase, a) ∧
      env' = { env with firebase := firebase } :=
  Firebase.serve_of_map h

/-- The callback of Apple that an action is, if it is one. -/
def callback? : Action → Option (Option ℕ × Except NSError ASAuthorizationCredential)
  | .start _ _ (.completion request result) => some (request, result)
  | _ => none

/-- **What a step does to the nonces**: a tap draws one, a callback of Apple may send
the kept one, and nothing else touches them. -/
theorem nonce_step (hcode : OnCode S sha256 app w) (hs : step S sha256 app w action = some w') :
    (callback? action = none ∧ issued w' = issued w ∧ SameNonces w.env w'.env) ∨
    (∃ nonce, callback? action = none ∧ nonce ∉ w.env.drawn ∧ issued w' = issued w ∧
      w'.env.currentNonce = some nonce ∧ w'.env.drawn = w.env.drawn ++ [nonce] ∧
      w'.env.requests = w.env.requests ++ [app.request sha256 nonce]) ∨
    (∃ i request result op', callback? action = some (request, result) ∧ w.ops i = none ∧
      (∀ k ∈ request, k < w.env.requests.length) ∧ w'.ops i = some op' ∧
      op'.call = .completion request result ∧ op'.origin = w.env ∧ SameNonces w.env w'.env ∧
      issued w' = issued w ++ (credential? w.env result).toList.map (i, ·)) := by
  rcases Lib.World.step_cases hs with ⟨i, c, call, env, rfl, hi, ha, rfl⟩ |
    ⟨i, j, choice, op, r, callback, env, a, rfl, hi, ht, hr, rfl⟩ |
    ⟨i, j, op, code, rfl, hi, ht, rfl⟩ | ⟨a, env, rfl, ha, rfl⟩
  · cases call with
    | signIn nonce =>
        obtain ⟨hfresh, hdraw⟩ := Option.ite_none_left_eq_some.mp ha
        obtain rfl := Option.some.inj hdraw
        obtain ⟨henv, htasks⟩ := exec_signIn S sha256 app nonce
          { w.env with drawn := w.env.drawn ++ [nonce] }
        refine .inr (.inl ⟨nonce, rfl, fun h => hfresh (.inr h), ?_, ?_⟩)
        · rw [issued_resume]
          refine List.append_right_eq_self.mpr ?_
          exact congrArg (fun tasks => (tasks.filterMap Task.request?).filterMap fun r =>
            (credentialOf? r).map (i, ·)) htasks
        · rw [Lib.World.env_resume]
          exact henv ▸ ⟨rfl, rfl, rfl⟩
    | completion request result =>
        obtain ⟨hmade, hanswer⟩ := Option.ite_none_left_eq_some.mp ha
        obtain rfl := Option.some.inj hanswer
        obtain ⟨htasks, crashed, henv⟩ := exec_completion S sha256 app request result
          { w.env with answered := request.toList ++ w.env.answered }
        refine .inr (.inr ⟨i, request, result, _, rfl, hi, ?_, Function.update_self i _ _, rfl, rfl,
          ?_, ?_⟩)
        · exact fun k hk => Nat.lt_of_not_le fun hle => hmade (.inr ⟨k, hk, hle⟩)
        · rw [Lib.World.env_resume]
          exact henv ▸ ⟨rfl, rfl, rfl⟩
        · rw [issued_resume]
          congr 1
          refine (congrArg (List.filterMap fun r => (credentialOf? r).map (i, ·)) htasks).trans ?_
          have hkept :
              credential? { w.env with answered := request.toList ++ w.env.answered } result =
              credential? w.env result := rfl
          rw [hkept]
          cases credential? w.env result <;> rfl
  · refine .inl ⟨rfl, rfl, ?_⟩
    obtain ⟨firebase, -, rfl⟩ := serve_eq_some hr
    exact ⟨rfl, rfl, rfl⟩
  · obtain ⟨henv, htasks⟩ := exec_ready hcode hi ht
    have hsame : SameNonces w.env ((host S sha256 app).exec op.client code w.env).env := by
      rw [henv]
      exact ⟨rfl, rfl, rfl⟩
    refine .inl ⟨rfl, ?_, hsame⟩
    rw [issued_resume]
    refine List.append_right_eq_self.mpr (List.filterMap_eq_nil_iff.mpr fun r hr => ?_)
    obtain ⟨task, htask, hreq⟩ := List.mem_filterMap.mp hr
    cases task with
    | waiting r' callback =>
        obtain rfl := Option.some.inj hreq
        rw [htasks _ callback htask]
        rfl
    | ready code' => cases hreq
  · cases a

/-- The callback `op` has sent `credential`: its own token, with the nonce drawn last
when it arrived. -/
structure Issuer (w : World) (op : Op) (credential : OAuthCredential) : Prop where
  drawn : op.origin.drawn <+: w.env.drawn
  requests : op.origin.requests.length = op.origin.drawn.length
  last : op.origin.drawn.getLast? = some credential.rawNonce
  token : ∃ request result, op.call = .completion request result ∧
    idToken? result = some credential.idToken

/-- **The invariant**: the kept nonce is the one drawn last, the nonces are those of the
requests, and every credential has the nonce that was kept when its callback arrived. -/
structure Nonces (S : StorageService) (sha256 : String → String) (app : App) (w : World) :
    Prop where
  code : OnCode S sha256 app w
  nodup : w.env.drawn.Nodup
  current : w.env.currentNonce = w.env.drawn.getLast?
  requests : w.env.requests = w.env.drawn.map fun nonce => app.request sha256 nonce
  issued : ∀ i credential, (i, credential) ∈ issued w →
    ∃ op, w.ops i = some op ∧ Issuer w op credential

theorem nonces_initial (S : StorageService) (sha256 : String → String) (app : App)
    (fb : Firebase) : Nonces S sha256 app (initial fb) where
  code := Lib.World.onCode_initial _
  nodup := List.nodup_nil
  current := rfl
  requests := rfl
  issued i credential h := by cases h

/-- Issuers stay. -/
theorem Nonces.issuer_step (h : Nonces S sha256 app w) (hs : step S sha256 app w action = some w')
    (hdrawn : w.env.drawn <+: w'.env.drawn) {credential : OAuthCredential}
    (hmem : (i, credential) ∈ AppleSignIn.issued w) :
    ∃ op, w'.ops i = some op ∧ Issuer w' op credential := by
  obtain ⟨op, hop, hissuer⟩ := h.issued i credential hmem
  obtain ⟨op', hop', hfol⟩ := Lib.World.step_op hs hop
  refine ⟨op', hop', ?_, ?_, ?_, ?_⟩
  · rw [hfol.origin]; exact hissuer.drawn.trans hdrawn
  · rw [hfol.origin]; exact hissuer.requests
  · rw [hfol.origin]; exact hissuer.last
  · rw [hfol.call]; exact hissuer.token

theorem credential?_eq_some {env : Env} {result : Except NSError ASAuthorizationCredential}
    {credential : OAuthCredential} (h : credential? env result = some credential) :
    env.currentNonce = some credential.rawNonce ∧ idToken? result = some credential.idToken := by
  obtain ⟨nonce, hnonce, h⟩ := Option.bind_eq_some_iff.mp h
  obtain ⟨token, htoken, rfl⟩ := Option.map_eq_some_iff.mp h
  exact ⟨hnonce, htoken⟩

theorem Nonces.step (h : Nonces S sha256 app w)
    (hs : AppleSignIn.step S sha256 app w action = some w') : Nonces S sha256 app w' := by
  have hcode : OnCode S sha256 app w' := Lib.World.OnCode.step h.code
    (fun _ _ _ _ _ _ _ => trivial) (Lib.World.sees_of_forall (fun _ _ => trivial) w action) hs
  rcases nonce_step h.code hs with ⟨-, hissued, hsame⟩ |
    ⟨nonce, -, hfresh, hissued, hcurrent, hdrawn, hrequests⟩ |
    ⟨i, request, result, op', -, hi, hmade, hop', hcall, horigin, hsame, hissued⟩
  · refine ⟨hcode, hsame.drawn ▸ h.nodup, ?_, ?_, ?_⟩
    · rw [hsame.currentNonce, hsame.drawn, h.current]
    · rw [hsame.requests, hsame.drawn, h.requests]
    · intro i credential hmem
      exact h.issuer_step hs (hsame.drawn ▸ List.prefix_rfl) (hissued ▸ hmem)
  · refine ⟨hcode, ?_, ?_, ?_, ?_⟩
    · rw [hdrawn]
      exact List.nodup_append.mpr ⟨h.nodup, List.nodup_singleton _, fun a ha b hb heq =>
        hfresh (List.mem_singleton.mp hb ▸ heq ▸ ha)⟩
    · rw [hcurrent, hdrawn, List.getLast?_concat]
    · rw [hrequests, hdrawn, h.requests, List.map_append, List.map_singleton]
    · intro i credential hmem
      exact h.issuer_step hs (hdrawn ▸ List.prefix_append _ _) (hissued ▸ hmem)
  · refine ⟨hcode, hsame.drawn ▸ h.nodup, ?_, ?_, ?_⟩
    · rw [hsame.currentNonce, hsame.drawn, h.current]
    · rw [hsame.requests, hsame.drawn, h.requests]
    · intro k credential hmem
      rw [hissued, List.mem_append, List.mem_map] at hmem
      rcases hmem with hmem | ⟨credential', hmem, heq⟩
      · exact h.issuer_step hs (hsame.drawn ▸ List.prefix_rfl) hmem
      · obtain ⟨rfl, rfl⟩ := Prod.mk.inj heq
        obtain ⟨hnonce, htoken⟩ := credential?_eq_some (Option.mem_toList.mp hmem)
        refine ⟨op', hop', ?_, ?_, ?_, request, result, hcall, htoken⟩
        · rw [horigin]
          exact hsame.drawn ▸ List.prefix_rfl
        · rw [horigin, h.requests, List.length_map]
        · rw [horigin, ← h.current, hnonce]

/-- The operation that issued a credential is as it was. -/
theorem Nonces.op_step (h : Nonces S sha256 app w)
    (hs : AppleSignIn.step S sha256 app w action = some w') {credential : OAuthCredential}
    (hmem : (i, credential) ∈ AppleSignIn.issued w) {op' : Op} (hop' : w'.ops i = some op') :
    ∃ op, w.ops i = some op ∧ op'.origin = op.origin ∧ op'.call = op.call ∧
      Issuer w op credential := by
  obtain ⟨op, hop, hissuer⟩ := h.issued i credential hmem
  obtain ⟨op₂, hop₂, hfol⟩ := Lib.World.step_op hs hop
  obtain rfl : op' = op₂ := Option.some.inj (hop'.symm.trans hop₂)
  exact ⟨op, hop, hfol.origin, hfol.call, hissuer⟩

/-- A token is sent if and only if a request has been made. -/
theorem Nonces.credential?_eq_none (h : Nonces S sha256 app w)
    {result : Except NSError ASAuthorizationCredential} (hnone : credential? w.env result = none)
    (htoken : (idToken? result).isSome) : w.env.requests = [] := by
  obtain ⟨token, htoken⟩ := Option.isSome_iff_exists.mp htoken
  rw [credential?, htoken, h.current] at hnone
  have hdrawn : w.env.drawn.getLast? = none := by
    cases hlast : w.env.drawn.getLast? with
    | none => rfl
    | some nonce => simp [hlast] at hnone
  rw [h.requests, List.getLast?_eq_none_iff.mp hdrawn]
  rfl

/-- **What a step does to the credentials**: it sends none, and a token that comes with it
comes before any request; or a callback sends its token with the kept nonce. -/
theorem credential_step (h : Nonces S sha256 app w)
    (hs : step S sha256 app w action = some w') :
    (issued w' = issued w ∧ w.env.drawn <+: w'.env.drawn ∧ ∀ request result,
      callback? action = some (request, result) → (idToken? result).isSome →
        w.env.requests = [] ∧ request = none) ∨
    ∃ i request result op' credential, callback? action = some (request, result) ∧
      (∀ k ∈ request, k < w.env.requests.length) ∧ w'.ops i = some op' ∧
      op'.call = .completion request result ∧ op'.origin = w.env ∧
      w'.env.drawn = w.env.drawn ∧ issued w' = issued w ++ [(i, credential)] ∧
      w.env.currentNonce = some credential.rawNonce ∧
      idToken? result = some credential.idToken := by
  rcases nonce_step h.code hs with ⟨hnone, hissued, hsame⟩ |
    ⟨nonce, hnone, -, hissued, -, hdrawn, -⟩ |
    ⟨i, request, result, op', hcallback, hi, hmade, hop', hcall, horigin, hsame, hissued⟩
  · refine .inl ⟨hissued, hsame.drawn ▸ List.prefix_rfl, fun request result hsome => ?_⟩
    rw [hnone] at hsome
    cases hsome
  · refine .inl ⟨hissued, hdrawn ▸ List.prefix_append _ _, fun request result hsome => ?_⟩
    rw [hnone] at hsome
    cases hsome
  · cases hcred : credential? w.env result with
    | none =>
        rw [hcred, Option.toList_none, List.map_nil, List.append_nil] at hissued
        refine .inl ⟨hissued, hsame.drawn ▸ List.prefix_rfl, fun _ _ hsome htoken => ?_⟩
        obtain ⟨rfl, rfl⟩ := Prod.mk.inj (Option.some.inj (hcallback.symm.trans hsome))
        have hnil := h.credential?_eq_none hcred htoken
        refine ⟨hnil, Option.eq_none_iff_forall_not_mem.mpr fun k hk => ?_⟩
        have hlt := hmade k hk
        rw [hnil] at hlt
        cases hlt
    | some credential =>
        rw [hcred] at hissued
        obtain ⟨hkept, htoken⟩ := credential?_eq_some hcred
        exact .inr ⟨i, request, result, op', credential, hcallback, hmade, hop', hcall, horigin,
          hsame.drawn, hissued, hkept, htoken⟩

/-! ## Nonces are used once -/

/-- Every nonce is in at most one credential, and a credential is sent only when a
request is unanswered as the callback arrives. -/
structure UsedOnce (w : World) : Prop where
  nodup : ((issued w).map fun e => e.2.rawNonce).Nodup
  outstanding : ∀ i credential op, (i, credential) ∈ issued w → w.ops i = some op →
    op.origin.unanswered ≠ []

/-- A callback with a token, after the first request, finds a request unanswered and a
request made since every callback that has sent a credential. -/
def NewRequest (w : World) (action : Action) : Prop :=
  ∀ request result, callback? action = some (request, result) → (idToken? result).isSome →
    w.env.requests ≠ [] → w.env.unanswered ≠ [] ∧
      ∀ i credential op, (i, credential) ∈ issued w → w.ops i = some op →
        op.origin.requests.length < w.env.requests.length

/-- A prefix of a list without duplicates that ends in the same element is the list. -/
theorem eq_of_prefix_of_getLast? {α : Type} {l l' : List α} {a : α} (hpre : l <+: l')
    (hnodup : l'.Nodup) (hl : l.getLast? = some a) (hl' : l'.getLast? = some a) : l = l' := by
  obtain ⟨t, rfl⟩ := hpre
  cases ht : t.getLast? with
  | none => rw [List.getLast?_eq_none_iff.mp ht, List.append_nil]
  | some b =>
      rw [List.getLast?_append, ht] at hl'
      obtain rfl : b = a := Option.some.inj hl'
      have hdisjoint := (List.nodup_append.mp hnodup).2.2
      exact absurd rfl (hdisjoint b (List.mem_of_getLast? hl) b (List.mem_of_getLast? ht))

/-- A credential has the kept nonce if and only if no request was made since. -/
theorem Nonces.rawNonce_eq_iff (h : Nonces S sha256 app w) {op : Op}
    {credential : OAuthCredential} (hissuer : Issuer w op credential) {nonce : String}
    (hkept : w.env.currentNonce = some nonce) :
    credential.rawNonce = nonce ↔ ¬ op.origin.requests.length < w.env.requests.length := by
  rw [h.current] at hkept
  rw [hissuer.requests, h.requests, List.length_map]
  constructor
  · rintro rfl
    rw [eq_of_prefix_of_getLast? hissuer.drawn h.nodup hissuer.last hkept]
    exact lt_irrefl _
  · intro hlength
    have heq := hissuer.drawn.eq_of_length_le (Nat.le_of_not_lt hlength)
    have hlast := hissuer.last
    rw [heq, hkept] at hlast
    exact (Option.some.inj hlast).symm

/-- A step from a state in which nonces are used once leads to one if and only if a
token that comes with it comes after a new request. -/
theorem usedOnce_step_iff (h : Nonces S sha256 app w) (hp : UsedOnce w)
    (hs : step S sha256 app w action = some w') : UsedOnce w' ↔ NewRequest w action := by
  have hold : ∀ i credential op', (i, credential) ∈ issued w → w'.ops i = some op' →
      op'.origin.unanswered ≠ [] := by
    intro i credential op' hmem hop'
    obtain ⟨op, hop, horigin, -, -⟩ := h.op_step hs hmem hop'
    rw [horigin]
    exact hp.outstanding i credential op hmem hop
  rcases credential_step h hs with ⟨hissued, -, hbefore⟩ |
    ⟨i, request, result, op', credential, hcallback, -, hop', -, horigin, -, hissued, hkept, htoken⟩
  · refine iff_of_true ⟨hissued ▸ hp.nodup, fun i credential op' hmem => ?_⟩ ?_
    · exact hold i credential op' (hissued ▸ hmem)
    · exact fun request result hsome htoken hne =>
        absurd (hbefore request result hsome htoken).1 hne
  · constructor
    · intro hw' request' result' hsome htoken' _
      refine ⟨?_, fun k credential' op hmem hop => ?_⟩
      · rw [← horigin]
        exact hw'.outstanding i credential op' (by rw [hissued]; simp) hop'
      · by_contra hlength
        obtain ⟨op₂, hop₂, hissuer⟩ := h.issued k credential' hmem
        obtain rfl : op = op₂ := Option.some.inj (hop.symm.trans hop₂)
        have hreused := (h.rawNonce_eq_iff hissuer hkept).mpr hlength
        have hnodup := hw'.nodup
        rw [hissued, List.map_append, List.nodup_append] at hnodup
        exact hnodup.2.2 _ (List.mem_map_of_mem hmem) _ List.mem_cons_self hreused
    · intro hnew
      have hne : w.env.requests ≠ [] := by
        intro hnil
        rw [h.requests, List.map_eq_nil_iff] at hnil
        rw [h.current, hnil] at hkept
        cases hkept
      obtain ⟨hunanswered, hlater⟩ := hnew request result hcallback (by rw [htoken]; rfl) hne
      constructor
      · rw [hissued, List.map_append, List.nodup_append]
        refine ⟨hp.nodup, List.nodup_singleton _, ?_⟩
        rintro _ hold' _ hkept' rfl
        obtain ⟨⟨k, credential'⟩, hmem, heq⟩ := List.mem_map.mp hold'
        obtain ⟨op, hop, hissuer⟩ := h.issued k credential' hmem
        have hlast := heq.trans (List.mem_singleton.mp hkept')
        exact (h.rawNonce_eq_iff hissuer hkept).mp hlast (hlater k credential' op hmem hop)
      · intro k credential' op₂ hmem hop₂
        rw [hissued, List.mem_append, List.mem_singleton] at hmem
        rcases hmem with hmem | heq
        · exact hold k credential' op₂ hmem hop₂
        · obtain ⟨rfl, -⟩ := Prod.mk.inj heq
          obtain rfl : op' = op₂ := Option.some.inj (hop'.symm.trans hop₂)
          rwa [horigin]

/-- **Nonces are used once, and only for an outstanding request**, exactly when every
callback with a token comes after a new request, while one is unanswered. -/
theorem always_usedOnce_iff (S : StorageService) (sha256 : String → String) (app : App)
    (fb : Firebase) (as : List Action) :
    Always (step S sha256 app) UsedOnce (initial fb) as ↔
      StepsMeet (step S sha256 app) (fun w action _ => NewRequest w action) (initial fb) as :=
  Lib.always_iff_stepsMeet (I := Nonces S sha256 app) (fun w action w' h hs => h.step hs)
    (fun w action w' h hp hs => usedOnce_step_iff h hp hs) (nonces_initial S sha256 app fb)
    ⟨List.nodup_nil, fun _ _ _ hmem => by cases hmem⟩

/-- A tap and two callbacks with a token: the second answers no request. -/
def callbackTwice : List Action :=
  [.start 0 () (.signIn "n1"), .start 1 () (.completion (some 0) (.ok (.appleID (some [0x74])))),
    .start 2 () (.completion none (.ok (.appleID (some [0x75]))))]

/-- In both apps a nonce is used twice: no callback clears the kept one. -/
theorem nonceReused :
    (¬ ∀ (S : StorageService) (sha256 : String → String) (fb : Firebase) (as : List Action),
      Always (step S sha256 .sociallyApp) UsedOnce (initial fb) as) ∧
    ¬ ∀ (S : StorageService) (sha256 : String → String) (fb : Firebase) (as : List Action),
      Always (step S sha256 .sociallyUIKit) UsedOnce (initial fb) as := by
  constructor
  all_goals
    intro h
    have hlast := (h .plain id .empty callbackTwice).last rfl
    exact absurd hlast.nodup (by decide)

/-! ## Tokens and nonces belong together -/

/-- Every credential pairs the token of its callback with the nonce whose hash is in the
request that produced the token. -/
def TokensMatch (sha256 : String → String) (w : World) : Prop :=
  ∀ i credential op k result, (i, credential) ∈ issued w → w.ops i = some op →
    op.call = .completion (some k) result → idToken? result = some credential.idToken ∧
      w.env.drawn[k]? = some credential.rawNonce ∧
      (w.env.requests[k]?).map (·.nonce) = some (sha256 credential.rawNonce)

/-- A callback with a token answers the request made last. -/
def AnswersLast (w : World) (action : Action) : Prop :=
  ∀ k result, callback? action = some (some k, result) → (idToken? result).isSome →
    k + 1 = w.env.requests.length

/-- The requests carry the hashes of the nonces. -/
theorem Nonces.request_nonce (h : Nonces S sha256 app w) {k : ℕ} {nonce : String}
    (hk : w.env.drawn[k]? = some nonce) :
    (w.env.requests[k]?).map (·.nonce) = some (sha256 nonce) := by
  rw [h.requests, List.getElem?_map, hk]
  cases app <;> rfl

/-- The kept nonce is that of a request if and only if it is the last one. -/
theorem Nonces.drawn_eq_kept_iff (h : Nonces S sha256 app w) {k : ℕ}
    (hmade : k < w.env.requests.length) {nonce : String} (hkept : w.env.currentNonce = some nonce) :
    w.env.drawn[k]? = some nonce ↔ k + 1 = w.env.requests.length := by
  rw [h.current, List.getLast?_eq_getElem?] at hkept
  rw [h.requests, List.length_map] at hmade ⊢
  constructor
  · intro hk
    have hindex := List.getElem?_inj hmade h.nodup |>.mp (hk.trans hkept.symm)
    omega
  · intro hk
    rwa [show k = w.env.drawn.length - 1 by omega]

/-- A step from a state in which tokens and nonces match leads to one if and only if a
token that comes with it answers the request made last. -/
theorem tokensMatch_step_iff (h : Nonces S sha256 app w) (hp : TokensMatch sha256 w)
    (hs : step S sha256 app w action = some w') :
    TokensMatch sha256 w' ↔ AnswersLast w action := by
  have h' := h.step hs
  have hold : w.env.drawn <+: w'.env.drawn → ∀ i credential op' k result,
      (i, credential) ∈ issued w → w'.ops i = some op' → op'.call = .completion (some k) result →
      idToken? result = some credential.idToken ∧ w'.env.drawn[k]? = some credential.rawNonce ∧
        (w'.env.requests[k]?).map (·.nonce) = some (sha256 credential.rawNonce) := by
    intro hdrawn i credential op' k result hmem hop' hcall'
    obtain ⟨op, hop, -, hcall, -⟩ := h.op_step hs hmem hop'
    obtain ⟨htoken, hk, -⟩ := hp i credential op k result hmem hop (hcall ▸ hcall')
    have hk' : w'.env.drawn[k]? = some credential.rawNonce := by
      obtain ⟨hlt, heq⟩ := List.getElem?_eq_some_iff.mp hk
      rw [List.getElem?_eq_some_iff]
      exact ⟨Nat.lt_of_lt_of_le hlt hdrawn.length_le, (hdrawn.getElem hlt).symm.trans heq⟩
    exact ⟨htoken, hk', h'.request_nonce hk'⟩
  rcases credential_step h hs with ⟨hissued, hdrawn, hbefore⟩ |
    ⟨i, request, result, op', credential, hcallback, hmade, hop', hcall, -, hdrawn, hissued, hkept,
      htoken⟩
  · refine iff_of_true (fun i credential op' k result hmem => ?_) fun k result hsome htoken => ?_
    · exact hold hdrawn i credential op' k result (hissued ▸ hmem)
    · obtain ⟨-, hnone⟩ := hbefore (some k) result hsome htoken
      cases hnone
  · constructor
    · intro hw' k result' hsome _
      obtain ⟨rfl, rfl⟩ := Prod.mk.inj (Option.some.inj (hcallback.symm.trans hsome))
      obtain ⟨-, hk, -⟩ := hw' i credential op' k result (by rw [hissued]; simp) hop' hcall
      exact (h.drawn_eq_kept_iff (hmade k rfl) hkept).mp (hdrawn ▸ hk)
    · intro hlast j credential' op₂ k result' hmem hop₂ hcall₂
      rw [hissued, List.mem_append, List.mem_singleton] at hmem
      rcases hmem with hmem | heq
      · exact hold (hdrawn ▸ List.prefix_rfl) j credential' op₂ k result' hmem hop₂ hcall₂
      · obtain ⟨rfl, rfl⟩ := Prod.mk.inj heq
        obtain rfl : op' = op₂ := Option.some.inj (hop'.symm.trans hop₂)
        obtain ⟨rfl, rfl⟩ := Call.completion.inj (hcall.symm.trans hcall₂)
        have hlength := hlast k result hcallback (by rw [htoken]; rfl)
        have hk := (h.drawn_eq_kept_iff (hmade k rfl) hkept).mpr hlength
        rw [← hdrawn] at hk
        exact ⟨htoken, hk, h'.request_nonce hk⟩

/-- **Tokens and nonces belong together** exactly when every callback with a token
answers the request made last. -/
theorem always_tokensMatch_iff (S : StorageService) (sha256 : String → String) (app : App)
    (fb : Firebase) (as : List Action) :
    Always (step S sha256 app) (TokensMatch sha256) (initial fb) as ↔
      StepsMeet (step S sha256 app) (fun w action _ => AnswersLast w action) (initial fb) as :=
  Lib.always_iff_stepsMeet (I := Nonces S sha256 app) (fun w action w' h hs => h.step hs)
    (fun w action w' h hp hs => tokensMatch_step_iff h hp hs) (nonces_initial S sha256 app fb)
    fun _ _ _ _ _ hmem => by cases hmem

/-- Two taps, and then the callback that answers the first of them. -/
def secondTap : List Action :=
  [.start 0 () (.signIn "n1"), .start 1 () (.signIn "n2"),
    .start 2 () (.completion (some 0) (.ok (.appleID (some [0x74]))))]

/-- In both apps the token of one request goes out with the nonce of another. -/
theorem tokenMismatch :
    (¬ ∀ (S : StorageService) (sha256 : String → String) (fb : Firebase) (as : List Action),
      Always (step S sha256 .sociallyApp) (TokensMatch sha256) (initial fb) as) ∧
    ¬ ∀ (S : StorageService) (sha256 : String → String) (fb : Firebase) (as : List Action),
      Always (step S sha256 .sociallyUIKit) (TokensMatch sha256) (initial fb) as := by
  constructor
  all_goals
    intro h
    have hlast := (h .plain id .empty secondTap).last rfl
    have hnonce := (hlast 2 ⟨"apple.com", "t", "n2"⟩ _ 0 _ (by decide) rfl rfl).2.1
    exact absurd hnonce (by decide)

end FirebaseApps.AppleSignIn
