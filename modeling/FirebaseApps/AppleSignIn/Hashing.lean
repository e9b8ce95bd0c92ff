import FirebaseApps.AppleSignIn.Nonces
import FirebaseApps.Lib.Blocks

/-!
# Sign in with Apple: the hash in the request

A request to Apple carries the SHA-256 digest of its nonce, written in hexadecimal.  Apple
puts it into the token, and Firebase checks it against the digest of the raw nonce that comes
with the token.  The digest is a parameter; that no two nonces of a run have the same one is
what the check rests on.

The text determines the digest (`sha256_eq_iff`), so the requests of such a run carry
different texts, and a callback passes the check exactly when it answers the request that
was made last (`verifies_iff`).
-/

namespace FirebaseApps.AppleSignIn

/-! ## The text of a digest -/

/-- `String(format: "%02x", $0)`. -/
def format02x (byte : UInt8) : List Char :=
  [Nat.digitChar (byte.toNat / 16), Nat.digitChar (byte.toNat % 16)]

/-- `Data(input.utf8)`. -/
def utf8Data (input : String) : Data := input.toUTF8.data.toList

/-- `sha256(_:)`, with the hash function of CryptoKit. -/
def sha256 (hash : Data → Data) (input : String) : String :=
  String.ofList ((hash (utf8Data input)).flatMap format02x)

variable {hash : Data → Data}

theorem digitChar_inj : ∀ m < 16, ∀ n < 16, Nat.digitChar m = Nat.digitChar n → m = n := by decide

theorem format02x_injective : Function.Injective format02x := by
  intro a b h
  obtain ⟨hhigh, hlow⟩ := List.cons.inj h
  have ha : a.toNat < 256 := a.toNat_lt
  have hb : b.toNat < 256 := b.toNat_lt
  have hdiv := digitChar_inj _ (by omega) _ (by omega) hhigh
  have hmod := digitChar_inj _ (Nat.mod_lt _ (by omega)) _ (Nat.mod_lt _ (by omega))
    (List.cons.inj hlow).1
  exact UInt8.toNat_inj.mp (by omega)

/-- **The text determines the digest.** -/
theorem sha256_eq_iff {a b : String} :
    sha256 hash a = sha256 hash b ↔ hash (utf8Data a) = hash (utf8Data b) := by
  rw [sha256, sha256, String.ofList_inj]
  exact (Lib.flatMap_injective (n := 2) (by omega) (fun _ => rfl) format02x_injective).eq_iff

/-! ## The check of Firebase -/

variable {S : StorageService} {app : App} {fb : Firebase} {w : World} {i k : ℕ} {op : Op}
  {credential : OAuthCredential}

/-- No two nonces that were drawn have the same digest. -/
def Collisionless (hash : Data → Data) (w : World) : Prop :=
  ∀ a ∈ w.env.drawn, ∀ b ∈ w.env.drawn, hash (utf8Data a) = hash (utf8Data b) → a = b

/-- The raw nonce of a credential has the text that was in request `k`, and so in the token
that answers it. -/
def Verifies (hash : Data → Data) (w : World) (k : ℕ) (credential : OAuthCredential) : Prop :=
  (w.env.requests[k]?).map (·.nonce) = some (sha256 hash credential.rawNonce)

theorem nonces_reachable (h : Lib.Reachable (step S (sha256 hash) app) (initial fb) w) :
    Nonces S (sha256 hash) app w :=
  h.invariant (nonces_initial S (sha256 hash) app fb) fun _ _ _ hinv hs => hinv.step hs

/-- The texts that went to Apple. -/
theorem Nonces.map_nonce (h : Nonces S (sha256 hash) app w) :
    w.env.requests.map (·.nonce) = w.env.drawn.map (sha256 hash) := by
  rw [h.requests, List.map_map]
  exact List.map_congr_left fun nonce _ => by cases app <;> rfl

/-- **No two requests carry the same text.** -/
theorem Nonces.nodup_requests (h : Nonces S (sha256 hash) app w) (hcol : Collisionless hash w) :
    (w.env.requests.map (·.nonce)).Nodup := by
  rw [h.map_nonce]
  refine h.nodup.map_on fun a ha b hb heq => ?_
  exact hcol a ha b hb (sha256_eq_iff.mp heq)

/-- **A credential passes the check for one request only**, the last one that had been made
when its callback arrived; so a callback passes exactly when it answers that one. -/
theorem verifies_iff (h : Lib.Reachable (step S (sha256 hash) app) (initial fb) w)
    (hcol : Collisionless hash w) (hissued : (i, credential) ∈ issued w) (hop : w.ops i = some op) :
    Verifies hash w k credential ↔ k + 1 = op.origin.requests.length := by
  have hinv := nonces_reachable h
  obtain ⟨op', hop', hissuer⟩ := hinv.issued i credential hissued
  obtain rfl : op = op' := Option.some.inj (hop.symm.trans hop')
  -- the raw nonce is the last one drawn when the callback arrived
  have hlast := hissuer.last
  rw [List.getLast?_eq_getElem?] at hlast
  obtain ⟨hlt, hget⟩ := List.getElem?_eq_some_iff.mp hlast
  have hdrawn : w.env.drawn[op.origin.drawn.length - 1]? = some credential.rawNonce := by
    obtain ⟨rest, hrest⟩ := hissuer.drawn
    rw [← hrest, List.getElem?_append_left hlt]
    exact hlast
  have hrequest : (w.env.requests.map (·.nonce))[op.origin.drawn.length - 1]? =
      some (sha256 hash credential.rawNonce) := by
    rw [hinv.map_nonce, List.getElem?_map, hdrawn, Option.map_some]
  rw [Verifies, ← List.getElem?_map, hissuer.requests]
  constructor
  · intro hk
    obtain ⟨hmade, -⟩ := List.getElem?_eq_some_iff.mp hk
    have hindex := (List.getElem?_inj hmade (hinv.nodup_requests hcol)).mp
      (hk.trans hrequest.symm)
    omega
  · intro hk
    rw [show k = op.origin.drawn.length - 1 by omega]
    exact hrequest

/-- Two taps; the callback that answers the first of them, and the one that answers the
second. -/
def twoCallbacks : List Action :=
  secondTap ++ [.start 3 () (.completion (some 1) (.ok (.appleID (some [0x74]))))]

/-- The SHA-256 digests of the two nonces; no other is asked for. -/
def digest (data : Data) : Data :=
  if data = utf8Data "n1" then
    [0x67, 0x6B, 0x8B, 0xB8, 0x4C, 0xE7, 0x26, 0x7D, 0xD5, 0x20, 0xDE, 0xCA, 0x48, 0x11, 0xC8,
      0xF1, 0x0A, 0x53, 0xE6, 0x36, 0x35, 0x2F, 0x06, 0x98, 0x7F, 0x42, 0xFE, 0x42, 0x5A, 0xCE,
      0xDD, 0x80]
  else if data = utf8Data "n2" then
    [0x04, 0x80, 0xA9, 0x3D, 0x2E, 0x9B, 0x09, 0x4B, 0x89, 0xE0, 0x8E, 0x01, 0x97, 0x60, 0x89,
      0xAC, 0x18, 0x19, 0x3A, 0xF8, 0x02, 0xC6, 0x6B, 0x63, 0x1C, 0xC8, 0xD2, 0xDC, 0x1B, 0xAE,
      0x8C, 0x88]
  else List.replicate 32 0

/-- The credential of the first callback passes the check for the second request. -/
theorem verifies_twoCallbacks : ∃ w op,
    Lib.run (step .plain (sha256 digest) .sociallyApp) (initial .empty) twoCallbacks = some w ∧
    w.ops 2 = some op ∧ op.origin.requests.length = 2 ∧
    ¬ Verifies digest w 0 ⟨"apple.com", "t", "n2"⟩ ∧
    Verifies digest w 1 ⟨"apple.com", "t", "n2"⟩ := by
  have hrun : ∃ w op,
      Lib.run (step .plain (sha256 digest) .sociallyApp) (initial .empty) twoCallbacks = some w ∧
      w.ops 2 = some op ∧ op.origin.requests.length = 2 ∧ w.env.drawn = ["n1", "n2"] ∧
      (2, ⟨"apple.com", "t", "n2"⟩) ∈ issued w := ⟨_, _, rfl, rfl, rfl, rfl, by decide⟩
  obtain ⟨w, op, hw, hop, hlength, hdrawn, hissued⟩ := hrun
  have hcol : Collisionless digest w := by
    rw [Collisionless, hdrawn]
    decide
  have hiff (k : ℕ) := verifies_iff (k := k) ⟨_, hw⟩ hcol hissued hop
  rw [hlength] at hiff
  exact ⟨w, op, hw, hop, hlength, fun h => absurd ((hiff 0).mp h) (by decide), (hiff 1).mpr rfl⟩

end FirebaseApps.AppleSignIn
