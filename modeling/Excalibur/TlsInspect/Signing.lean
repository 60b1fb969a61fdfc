import Excalibur.TlsInspect.Encoding
import Excalibur.TlsInspect.Generation

/-! # Signatures

`_rsa_sign_sha256`, with SHA-256 a function to 32 bytes.  The block that is signed is
spelled out in `pkcs1Block`; it is smaller than the modulus whatever the top bits of that
are, so the public exponent gives it back.
-/

namespace Excalibur.TlsInspect

open Excalibur.Library Excalibur.Python

def oidSha256 : Str := lit "2.16.840.1.101.3.4.2.1"

def rsaSignSha256 (sha256 : Bytes → Bytes) (k : RsaKey) (message : Bytes) :
    Except PyError Bytes := do
  let h := sha256 message
  let emlen := byteLength k.n
  let digestInfo ← seq [← seq [← oid oidSha256, null], ← der 0x04 h]
  let ps := List.replicate (emlen - digestInfo.length - 3) 0xFF
  let em := [0x00, 0x01] ++ ps ++ [0x00] ++ digestInfo
  let sig := powMod (ofBigEndian em) k.d k.n
  toBytes sig emlen

/-- `DigestInfo` for SHA-256 up to the digest. -/
def digestInfoHeader : Bytes :=
  [0x30, 0x31, 0x30, 0x0D, 0x06, 0x09, 0x60, 0x86, 0x48, 0x01, 0x65, 0x03, 0x04, 0x02, 0x01,
    0x05, 0x00, 0x04, 0x20]

/-- 00 01 FF .. FF 00 and the `DigestInfo`, of the given size. -/
def pkcs1Block (size : Nat) (digest : Bytes) : Bytes :=
  [0x00, 0x01] ++ List.replicate (size - 54) 0xFF ++ [0x00] ++ (digestInfoHeader ++ digest)

theorem digestInfo_eq {h : Bytes} (size : h.length = 32) :
    (do seq [← seq [← oid oidSha256, null], ← der 0x04 h]) = .ok (digestInfoHeader ++ h) := by
  have algorithm : (do seq [← oid oidSha256, null]) = .ok [0x30, 0x0D, 0x06, 0x09, 0x60, 0x86,
      0x48, 0x01, 0x65, 0x03, 0x04, 0x02, 0x01, 0x05, 0x00] := by decide +kernel
  have octets : der 0x04 h = .ok ([0x04, 0x20] ++ h) := by
    rw [der, size]
    rfl
  obtain ⟨identifier, found, inner⟩ := bind_eq_ok.mp algorithm
  refine bind_eq_ok.mpr ⟨identifier, found, bind_eq_ok.mpr ⟨_, inner, ?_⟩⟩
  refine bind_eq_ok.mpr ⟨_, octets, ?_⟩
  rw [seq, der, List.flatten_cons, List.length_append, List.flatten_singleton, List.length_append,
    size]
  rfl

theorem length_pkcs1Block {size : Nat} {digest : Bytes} (long : 62 ≤ size)
    (digestSize : digest.length = 32) : (pkcs1Block size digest).length = size := by
  simp [pkcs1Block, digestInfoHeader, digestSize]
  omega

/-- The block starts with a zero byte and a small one. -/
theorem ofBigEndian_pkcs1Block_lt {n : Nat} {digest : Bytes} (long : 62 ≤ byteLength n)
    (digestSize : digest.length = 32) : ofBigEndian (pkcs1Block (byteLength n) digest) < n := by
  obtain ⟨width, widthEq⟩ : ∃ width, byteLength n = width + 2 := ⟨byteLength n - 2, by omega⟩
  have size := length_pkcs1Block long digestSize
  obtain ⟨rest, restEq⟩ : ∃ rest, pkcs1Block (byteLength n) digest = 0x00 :: 0x01 :: rest := ⟨_, rfl⟩
  rw [restEq, widthEq] at size
  have restSize : rest.length = width := by simpa using size
  have restSmall := ofBigEndian_lt rest
  have least : 256 ^ (width + 1) ≤ n := le_of_byteLength widthEq
  rw [restEq, ofBigEndian_cons, ofBigEndian_cons]
  rw [restSize] at restSmall ⊢
  rw [pow_succ] at least
  calc (0x00 : UInt8).toNat * 256 ^ (0x01 :: rest).length +
        ((0x01 : UInt8).toNat * 256 ^ width + ofBigEndian rest)
    _ = 256 ^ width + ofBigEndian rest := by simp
    _ < 256 ^ width * 256 := by omega
    _ ≤ n := least

/-- What is signed is the block, raised to the private exponent. -/
theorem rsaSignSha256_eq {sha256 : Bytes → Bytes} {k : RsaKey} {message : Bytes}
    (digestSize : (sha256 message).length = 32) :
    rsaSignSha256 sha256 k message =
      toBytes (ofBigEndian (pkcs1Block (byteLength k.n) (sha256 message)) ^ k.d % k.n)
        (byteLength k.n) := by
  have info := digestInfo_eq digestSize
  have sizes : byteLength k.n - (digestInfoHeader ++ sha256 message).length - 3 =
      byteLength k.n - 54 := by
    simp [digestInfoHeader, digestSize]
    omega
  obtain ⟨identifier, found, rest⟩ := bind_eq_ok.mp info
  obtain ⟨algorithm, inner, rest⟩ := bind_eq_ok.mp rest
  obtain ⟨octets, outer, whole⟩ := bind_eq_ok.mp rest
  simp only [rsaSignSha256, found, inner, outer, whole, bind, Except.bind, powMod_eq, sizes]
  rfl

/-- A signature has the size of the modulus, and the public exponent turns it back into
    the block. -/
theorem signature_verifies {sha256 : Bytes → Bytes} {k : RsaKey} {message : Bytes} (valid : k.Valid)
    (long : 62 ≤ byteLength k.n) (digestSize : (sha256 message).length = 32) :
    ∃ s, rsaSignSha256 sha256 k message = .ok s ∧ s.length = byteLength k.n ∧
      bigEndian (byteLength k.n) (ofBigEndian s ^ k.e % k.n) =
        pkcs1Block (byteLength k.n) (sha256 message) := by
  have below := ofBigEndian_pkcs1Block_lt long digestSize
  have back := bigEndian_ofBigEndian (pkcs1Block (byteLength k.n) (sha256 message))
  rw [length_pkcs1Block long digestSize] at back
  have signed := rsaSignSha256_eq (k := k) digestSize
  generalize pkcs1Block (byteLength k.n) (sha256 message) = block at *
  have fits : ofBigEndian block ^ k.d % k.n < 256 ^ byteLength k.n :=
    (Nat.mod_lt _ (Nat.zero_lt_of_lt below)).trans (lt_of_byteLength k.n)
  rw [toBytes, if_pos fits] at signed
  refine ⟨_, signed, length_bigEndian _ _, ?_⟩
  rw [ofBigEndian_bigEndian fits, valid.pow_pow below, back]

/-- Every pair of primes that passes the tests of `generate_rsa` gives a key whose
    signatures verify and whose redundant numbers agree. -/
theorem generated_keys_sign (sha256 : Bytes → Bytes)
    (digestSize : ∀ message, (sha256 message).length = 32) {bits p q : Nat}
    {forP forQ : List Draw} (drewP : genPrime (bits / 2) forP = .ok (some p))
    (drewQ : genPrime (bits / 2) forQ = .ok (some q)) (pPrime : p.Prime) (qPrime : q.Prime)
    (distinct : p ≠ q) (passes : (p - 1) * (q - 1) % 65537 ≠ 0) (long : 62 ≤ byteLength (p * q)) :
    ∃ k, (∀ turns, generateRsa bits ((forP, forQ) :: turns) = .ok (some k)) ∧
      k.n = p * q ∧ k.e = 65537 ∧ k.p = p ∧ k.q = q ∧
      k.e * k.d ≡ 1 [MOD (p - 1) * (q - 1)] ∧ k.q * k.qinv ≡ 1 [MOD p] ∧
      (∀ message, ∃ s, rsaSignSha256 sha256 k message = .ok s ∧ s.length = byteLength k.n ∧
        bigEndian (byteLength k.n) (ofBigEndian s ^ k.e % k.n) =
          pkcs1Block (byteLength k.n) (sha256 message)) ∧
      ∀ m, ((m ^ k.d % k.n : Nat) : Int) =
        recombine k.p k.q k.qinv (m ^ k.dp % k.p) (m ^ k.dq % k.q) := by
  obtain ⟨k, key, rfl, rfl, e, valid⟩ := key_of_primes pPrime qPrime
    ⟨genPrime_odd drewP, genPrime_odd drewQ⟩ distinct passes
  refine ⟨k, generateRsa_of_key drewP drewQ key, valid.modulus, e, rfl, rfl, valid.inverse,
    valid.qInverse, ?_, valid.pow_eq_recombine⟩
  intro message
  exact signature_verifies valid (valid.modulus ▸ long) (digestSize message)

/-! ### A key of 496 bits

The smallest size in the scope of the theorem, with the digest of the empty message. -/

def sampleP : Nat := 757 * 2 ^ 238 + 1

def sampleQ : Nat := 877 * 2 ^ 238 + 1

set_option maxRecDepth 4000 in
theorem sampleP_prime : sampleP.Prime := by
  have kPrime : Nat.Prime 757 := by norm_num
  exact prime_of_powers 248 3 kPrime (by norm_num) rfl (by decide) (by decide)

set_option maxRecDepth 4000 in
theorem sampleQ_prime : sampleQ.Prime := by
  have kPrime : Nat.Prime 877 := by norm_num
  exact prime_of_powers 248 3 kPrime (by norm_num) rfl (by decide) (by decide)

def sampleDraws (p : Nat) : List Draw := [⟨p, fun i => i⟩]

def emptyDigest : Bytes :=
  [0xE3, 0xB0, 0xC4, 0x42, 0x98, 0xFC, 0x1C, 0x14, 0x9A, 0xFB, 0xF4, 0xC8, 0x99, 0x6F, 0xB9, 0x24,
    0x27, 0xAE, 0x41, 0xE4, 0x64, 0x9B, 0x93, 0x4C, 0xA4, 0x95, 0x99, 0x1B, 0x78, 0x52, 0xB8, 0x55]

theorem sampleKey_signs :
    ∃ k, generateRsa 496 [(sampleDraws sampleP, sampleDraws sampleQ)] = .ok (some k) ∧
      k.n = sampleP * sampleQ ∧ byteLength k.n = 62 ∧
      ∃ s, rsaSignSha256 (fun _ => emptyDigest) k [] = .ok s ∧ s.length = 62 ∧
        bigEndian 62 (ofBigEndian s ^ k.e % k.n) = pkcs1Block 62 emptyDigest := by
  have size : byteLength (sampleP * sampleQ) = 62 := by decide +kernel
  have drewP : genPrime (496 / 2) (sampleDraws sampleP) = .ok (some sampleP) := by decide +kernel
  have drewQ : genPrime (496 / 2) (sampleDraws sampleQ) = .ok (some sampleQ) := by decide +kernel
  obtain ⟨k, generated, modulus, -, -, -, -, -, signs, -⟩ :=
    generated_keys_sign (fun _ => emptyDigest) (fun _ => rfl) drewP drewQ sampleP_prime
      sampleQ_prime (by decide +kernel) (by decide +kernel) size.ge
  rw [← modulus] at size
  have signature := signs []
  rw [size] at signature
  exact ⟨k, generated [], modulus, size, signature⟩

end Excalibur.TlsInspect
