import FirebaseApps.Lib.Rejection
import Mathlib.Data.Set.Finite.List

/-!
# Drawing a nonce

`randomNonceString`, the same text in SociallyApp's `AuthViewModel` and in
Socially-UIKit's `AuthService`: a rejection sampler that draws its random bytes in
rounds of sixteen.  A byte that is too large for the character set is dropped, and the
bytes of a round that come after the last character was found are drawn in vain.

The bytes that `SecRandomCopyBytes` delivers are a parameter; the `fatalError` for a
call of it that fails is left out.

The loop is followed through any number of rounds, on any stream of bytes
(`rounds_sampled`).  All nonces of one length come from equally many byte sequences
(`randomNonceString_unbiased`), and from some as soon as there are bytes enough.
-/

namespace FirebaseApps.AppleSignIn

open Lib (sample)

/-- `charset`; it has no `W`. -/
def charset : List Char :=
  "0123456789ABCDEFGHIJKLMNOPQRSTUVXYZabcdefghijklmnopqrstuvwxyz-._".toList

/-- The variables of the loop. -/
structure NonceLoop where
  result : String
  remainingLength : ℕ
  deriving DecidableEq, Repr

/-- The closure of `randoms.forEach`; `none` when the subscript of `charset` is out of
range. -/
def nextRandom (s : NonceLoop) (random : UInt8) : Option NonceLoop :=
  if s.remainingLength = 0 then some s
  else if random.toNat < charset.length then do
    let character ← charset[random.toNat]?
    return ⟨s.result.push character, s.remainingLength - 1⟩
  else some s

/-- At most `k` rounds of `while remainingLength > 0`, with sixteen of the given bytes
for each. -/
def rounds : ℕ → List UInt8 → NonceLoop → Option NonceLoop
  | 0, _, s => some s
  | k + 1, bytes, s =>
      if 0 < s.remainingLength then do
        let s ← (bytes.take 16).foldlM nextRandom s
        rounds k (bytes.drop 16) s
      else some s

/-- The loop after at most `k` rounds; `none` when a precondition or a subscript
traps. -/
def nonceLoop (length k : ℕ) (bytes : List UInt8) : Option NonceLoop :=
  if 0 < length then rounds k bytes ⟨"", length⟩ else none

/-- `randomNonceString(length:)`: what it has returned within `k` rounds, if it has. -/
def randomNonceString (length k : ℕ) (bytes : List UInt8) : Option String :=
  (nonceLoop length k bytes).bind fun s => if s.remainingLength = 0 then some s.result else none

/-- `random < charset.count`. -/
def accepted (random : UInt8) : Bool := random.toNat < charset.length

/-! ## The loop -/

/-- The loop went from `s` to `s'` on these bytes: the characters of the accepted bytes
have been appended, as long as any were missing. -/
structure Extends (s : NonceLoop) (bytes : List UInt8) (s' : NonceLoop) : Prop where
  remainingLength :
    s'.remainingLength = s.remainingLength - (bytes.filter accepted).length
  result : s'.result.toList.map some =
    s.result.toList.map some ++
      (sample accepted s.remainingLength bytes).map fun random => charset[random.toNat]?

/-- An accepted byte is a valid subscript. -/
theorem exists_character {random : UInt8} (h : accepted random) :
    ∃ character, charset[random.toNat]? = some character :=
  ⟨_, List.getElem?_eq_getElem (of_decide_eq_true h)⟩

/-- Nothing happens once no character is missing. -/
theorem foldlM_nextRandom_done {s : NonceLoop} (h : s.remainingLength = 0) (bytes : List UInt8) :
    bytes.foldlM nextRandom s = some s := by
  induction bytes with
  | nil => rfl
  | cons random bytes ih => simpa [nextRandom, h] using ih

/-- **The inner loop**, from any state on. -/
theorem foldlM_nextRandom (s : NonceLoop) (bytes : List UInt8) :
    ∃ s', bytes.foldlM nextRandom s = some s' ∧ Extends s bytes s' := by
  induction bytes generalizing s with
  | nil => exact ⟨s, rfl, by simp, by simp [sample]⟩
  | cons random bytes ih =>
      by_cases hdone : s.remainingLength = 0
      · exact ⟨s, foldlM_nextRandom_done hdone _, by simp [hdone], by simp [hdone, sample]⟩
      by_cases haccepted : accepted random
      · obtain ⟨character, hcharacter⟩ := exists_character haccepted
        obtain ⟨n, hn⟩ := Nat.exists_eq_succ_of_ne_zero hdone
        obtain ⟨s', hs', hrest⟩ := ih ⟨s.result.push character, n⟩
        have hnext : nextRandom s random = some ⟨s.result.push character, n⟩ := by
          have hlt : random.toNat < charset.length := of_decide_eq_true haccepted
          rw [nextRandom, if_neg hdone, if_pos hlt, hcharacter, hn]
          rfl
        refine ⟨s', by rw [List.foldlM_cons, hnext]; exact hs', ?_, ?_⟩
        · rw [hrest.remainingLength, List.filter_cons_of_pos haccepted, List.length_cons, hn]
          exact (Nat.succ_sub_succ n _).symm
        · rw [hrest.result, hn, Lib.sample_cons_of_accept haccepted]
          simp [hcharacter]
      · obtain ⟨s', hs', hrest⟩ := ih s
        have hnext : nextRandom s random = some s := by
          have hlt : ¬ random.toNat < charset.length := fun h => haccepted (decide_eq_true h)
          simp [nextRandom, hdone, hlt]
        refine ⟨s', by rw [List.foldlM_cons, hnext]; exact hs', ?_, ?_⟩
        · rw [hrest.remainingLength, List.filter_cons_of_neg haccepted]
        · rw [hrest.result, Lib.sample_cons_of_reject haccepted]

/-- The rounds do to the loop what their bytes do one after another. -/
theorem rounds_eq (k : ℕ) (bytes : List UInt8) (s : NonceLoop) :
    rounds k bytes s = (bytes.take (16 * k)).foldlM nextRandom s := by
  induction k generalizing bytes s with
  | zero => rfl
  | succ k ih =>
      rw [rounds]
      split
      next =>
        rw [Nat.mul_succ, Nat.add_comm, List.take_add, List.foldlM_append]
        simp only [ih]
      next hdone =>
        -- a loop that has ended ignores the bytes of later rounds
        rw [foldlM_nextRandom_done (by omega)]

/-- What the loop that draws a nonce of this length has made of the bytes. -/
structure Sampled (length : ℕ) (bytes : List UInt8) (s : NonceLoop) : Prop where
  /-- It has ended if and only if enough bytes were accepted. -/
  ended : s.remainingLength = 0 ↔ length ≤ (bytes.filter accepted).length
  /-- The number of characters that are missing. -/
  remainingLength : s.remainingLength = length - (bytes.filter accepted).length
  /-- The result is the image of the first accepted bytes, all of them valid subscripts. -/
  result : s.result.toList.map some =
    (sample accepted length bytes).map fun random => charset[random.toNat]?
  /-- Before the end, the image of all of them. -/
  partialResult : s.remainingLength ≠ 0 → s.result.toList.map some =
    (bytes.filter accepted).map fun random => charset[random.toNat]?
  /-- The nonce has the length that was asked for. -/
  length_result : s.remainingLength = 0 → s.result.length = length

theorem Extends.sampled {length : ℕ} {bytes : List UInt8} {s : NonceLoop}
    (h : Extends ⟨"", length⟩ bytes s) : Sampled length bytes s := by
  have hremaining := h.remainingLength
  have hresult : s.result.toList.map some =
      (sample accepted length bytes).map fun random => charset[random.toNat]? := by
    simpa using h.result
  refine ⟨?_, hremaining, hresult, fun hmissing => ?_, fun hended => ?_⟩
  · rw [hremaining]
    exact Nat.sub_eq_zero_iff_le
  · rw [hresult, sample, List.take_of_length_le]
    simp only at hremaining
    omega
  · have hlength := congrArg List.length hresult
    rw [List.length_map, List.length_map, sample, List.length_take, String.length_toList] at hlength
    simp only at hremaining
    omega

/-- The loop never traps, and samples what it is given. -/
theorem nonceLoop_sampled {length : ℕ} (hlength : 0 < length) (k : ℕ) {bytes : List UInt8}
    (hbytes : bytes.length = 16 * k) :
    ∃ s, nonceLoop length k bytes = some s ∧ Sampled length bytes s := by
  obtain ⟨s, hs, hextends⟩ := foldlM_nextRandom ⟨"", length⟩ bytes
  refine ⟨s, ?_, hextends.sampled⟩
  rw [nonceLoop, if_pos hlength, rounds_eq, List.take_of_length_le hbytes.le]
  exact hs

/-- The first bytes of a stream. -/
def firstBytes (stream : ℕ → UInt8) (count : ℕ) : List UInt8 := (List.range count).map stream

/-- **The loop on a stream of random bytes** has ended after `k` rounds exactly when the
bytes of these rounds suffice; it holds the image of the accepted bytes and never uses a
subscript that is out of range. -/
theorem rounds_sampled (length : ℕ) (hlength : 0 < length) (stream : ℕ → UInt8) (k : ℕ) :
    ∃ s, nonceLoop length k (firstBytes stream (16 * k)) = some s ∧
      Sampled length (firstBytes stream (16 * k)) s :=
  nonceLoop_sampled hlength k (by simp [firstBytes])

/-- A nonce of length two from the bytes `255, 0, 10, …`: two rounds would suffice, one
does. -/
theorem rounds_sampled_two : ∃ s,
    nonceLoop 2 1 (firstBytes (fun i => if i = 0 then 255 else if i = 1 then 0 else 10) 16) =
      some s ∧ s.result = "0A" ∧ s.remainingLength = 0 := by
  obtain ⟨s, hs, hsampled⟩ :=
    rounds_sampled 2 (by decide) (fun i => if i = 0 then 255 else if i = 1 then 0 else 10) 1
  refine ⟨s, hs, ?_, hsampled.ended.mpr (by decide)⟩
  refine String.toList_inj.mp (List.map_injective_iff.mpr (Option.some_injective _) ?_)
  rw [hsampled.result]
  decide

/-! ## How often a nonce comes up -/

/-- The byte that stands for a character. -/
def code (character : Char) : UInt8 := UInt8.ofNat (charset.idxOf character)

theorem nodup_charset : charset.Nodup := by decide +kernel

theorem toNat_code {character : Char} (h : character ∈ charset) :
    (code character).toNat = charset.idxOf character := by
  have hlt : charset.idxOf character < charset.length := List.idxOf_lt_length_iff.mpr h
  have hsize : charset.length = 64 := by decide
  exact UInt8.toNat_ofNat_of_lt' (by rw [UInt8.size]; omega)

/-- A character comes from its own byte. -/
theorem getElem?_code {character : Char} (h : character ∈ charset) :
    charset[(code character).toNat]? = some character := by
  rw [toNat_code h]
  exact List.getElem?_idxOf h

theorem accepted_code {character : Char} (h : character ∈ charset) : accepted (code character) := by
  rw [accepted, toNat_code h]
  exact decide_eq_true (List.idxOf_lt_length_iff.mpr h)

/-- No other byte gives the same character, because the characters are distinct. -/
theorem code_of_getElem? {random : UInt8} {character : Char}
    (h : charset[random.toNat]? = some character) : code character = random := by
  obtain ⟨hlt, rfl⟩ := List.getElem?_eq_some_iff.mp h
  rw [code, nodup_charset.idxOf_getElem _ hlt, UInt8.ofNat_toNat]

/-- The accepted bytes that make up a nonce. -/
def codes (nonce : String) : List UInt8 := nonce.toList.map code

/-- **A nonce is returned** exactly on the byte sequences whose first accepted bytes are
its codes. -/
theorem randomNonceString_eq_some_iff {length k : ℕ} {bytes : List UInt8} {nonce : String}
    (hlength : 0 < length) (hbytes : bytes.length = 16 * k) (hnonce : nonce.length = length)
    (hchars : ∀ character ∈ nonce.toList, character ∈ charset) :
    randomNonceString length k bytes = some nonce ↔ sample accepted length bytes = codes nonce := by
  obtain ⟨s, hs, hsampled⟩ := nonceLoop_sampled hlength k hbytes
  have hreturned : randomNonceString length k bytes = some nonce ↔
      s.remainingLength = 0 ∧ s.result = nonce := by
    rw [randomNonceString, hs, Option.bind_some, Option.ite_none_right_eq_some, Option.some.injEq]
  have hcodes :
      (codes nonce).map (fun random => charset[random.toNat]?) = nonce.toList.map some := by
    rw [codes, List.map_map]
    exact List.map_congr_left fun character hc => getElem?_code (hchars character hc)
  rw [hreturned]
  constructor
  · rintro ⟨-, rfl⟩
    have hresult := congrArg (List.map fun character => character.elim 0 code) hsampled.result
    rw [List.map_map, List.map_map] at hresult
    have hdecode : ∀ random ∈ sample accepted length bytes,
        charset[random.toNat]?.elim 0 code = random := by
      intro random hmem
      have haccepted : accepted random := (List.mem_filter.mp (List.mem_of_mem_take hmem)).2
      obtain ⟨character, hcharacter⟩ := exists_character haccepted
      rw [hcharacter]
      exact code_of_getElem? hcharacter
    calc sample accepted length bytes
        = (sample accepted length bytes).map fun random => charset[random.toNat]?.elim 0 code := by
          rw [List.map_congr_left hdecode, List.map_id']
      _ = codes s.result := hresult.symm
  · intro hsample
    have hcount := congrArg List.length hsample
    rw [sample, List.length_take, codes, List.length_map, String.length_toList, hnonce] at hcount
    refine ⟨hsampled.ended.mpr (by omega), ?_⟩
    refine String.toList_inj.mp (List.map_injective_iff.mpr (Option.some_injective _) ?_)
    rw [hsampled.result, hsample, hcodes]

/-- The byte sequences of `k` rounds on which the loop returns a nonce. -/
def draws (length k : ℕ) (nonce : String) : Set (List UInt8) :=
  {bytes | bytes.length = 16 * k ∧ randomNonceString length k bytes = some nonce}

theorem finite_draws (length k : ℕ) (nonce : String) : (draws length k nonce).Finite := by
  have hbyte : Finite UInt8 := Finite.of_injective UInt8.toFin fun _ _ => UInt8.toFin_inj.mp
  exact (List.finite_length_eq UInt8 (16 * k)).subset fun bytes h => h.1

theorem draws_eq {length k : ℕ} {nonce : String} (hlength : 0 < length)
    (hnonce : nonce.length = length)
    (hchars : ∀ character ∈ nonce.toList, character ∈ charset) :
    draws length k nonce = {bytes | bytes.length = 16 * k ∧
      sample accepted (codes nonce).length bytes = codes nonce} := by
  ext bytes
  refine and_congr_right fun hbytes => ?_
  rw [randomNonceString_eq_some_iff hlength hbytes hnonce hchars, codes, List.length_map,
    String.length_toList, hnonce]

/-- **A nonce is drawn on some bytes** as soon as the rounds have bytes enough for its length. -/
theorem draws_nonempty_iff {length k : ℕ} {nonce : String} (hlength : 0 < length)
    (hnonce : nonce.length = length)
    (hchars : ∀ character ∈ nonce.toList, character ∈ charset) :
    (draws length k nonce).Nonempty ↔ length ≤ 16 * k := by
  have hcodes : (codes nonce).length = length := by
    rw [codes, List.length_map, String.length_toList, hnonce]
  have haccepted : ∀ random ∈ codes nonce, accepted random := by
    intro random hmem
    obtain ⟨character, hc, rfl⟩ := List.mem_map.mp hmem
    exact accepted_code (hchars character hc)
  rw [draws_eq hlength hnonce hchars]
  constructor
  · rintro ⟨bytes, hbytes, hsample⟩
    calc length = (sample accepted (codes nonce).length bytes).length := by rw [hsample, hcodes]
      _ ≤ (bytes.filter accepted).length := List.length_take_le' _ _
      _ ≤ bytes.length := List.length_filter_le _ _
      _ = 16 * k := hbytes
  · intro hk
    -- its own codes, and any bytes after them
    refine ⟨codes nonce ++ List.replicate (16 * k - length) 0, ?_, ?_⟩
    · rw [List.length_append, hcodes, List.length_replicate]
      omega
    · rw [sample, List.filter_append, List.filter_eq_self.mpr haccepted, List.take_left]

/-- **The nonce is unbiased**: any two strings over the character set are returned on the
same number of byte sequences. -/
theorem randomNonceString_unbiased (length k : ℕ) (hlength : 0 < length) (s t : String)
    (hs : s.length = length) (ht : t.length = length)
    (hschars : ∀ character ∈ s.toList, character ∈ charset)
    (htchars : ∀ character ∈ t.toList, character ∈ charset) :
    (draws length k s).Finite ∧ (draws length k t).Finite ∧
      (draws length k s).ncard = (draws length k t).ncard := by
  refine ⟨finite_draws length k s, finite_draws length k t, ?_⟩
  rw [draws_eq hlength hs hschars, draws_eq hlength ht htchars]
  refine Lib.ncard_sample_eq (16 * k) ?_ ?_ ?_
  · rw [codes, codes, List.length_map, List.length_map, String.length_toList, String.length_toList,
      hs, ht]
  · intro random hmem
    obtain ⟨character, hc, rfl⟩ := List.mem_map.mp hmem
    exact accepted_code (hschars character hc)
  · intro random hmem
    obtain ⟨character, hc, rfl⟩ := List.mem_map.mp hmem
    exact accepted_code (htchars character hc)

/-- The characters of a string are tested one by one. -/
theorem mem_charset_of_all {nonce : String} (h : nonce.toList.all (· ∈ charset)) :
    ∀ character ∈ nonce.toList, character ∈ charset :=
  fun character hc => of_decide_eq_true (List.all_eq_true.mp h character hc)

theorem randomNonceString_unbiased_pair :
    (draws 2 1 "00").Finite ∧ (draws 2 1 "1A").Finite ∧
      (draws 2 1 "00").ncard = (draws 2 1 "1A").ncard :=
  randomNonceString_unbiased 2 1 (by decide) "00" "1A" (by decide) (by decide)
    (mem_charset_of_all (by decide)) (mem_charset_of_all (by decide))

end FirebaseApps.AppleSignIn
