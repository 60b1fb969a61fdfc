import Excalibur.TlsInspect.Encoding
import Excalibur.TlsInspect.Generation

/-! # Key files

`pkcs8_private_key` and the reader that takes its output apart.
-/

namespace Excalibur.TlsInspect

open Excalibur.Library Excalibur.Python

def pkcs8PrivateKey (k : RsaKey) : Except PyError Bytes := do
  let rsaPriv ← seq [← derInt 0, ← derInt k.n, ← derInt k.e, ← derInt k.d, ← derInt k.p,
    ← derInt k.q, ← derInt k.dp, ← derInt k.dq, ← derInt k.qinv]
  seq [← derInt 0, ← seq [← oid oidRsa, null], ← der 0x04 rsaPriv]

/-- `RSAPrivateKey`, without further primes. -/
def readRsaPrivateKey : Der.Reader (List Int) := Der.sequence do
  guard ((← Der.integer) = 0)
  Der.times Der.integer 8

/-- `PrivateKeyInfo` for `rsaEncryption`. -/
def readPrivateKeyInfo : Der.Reader (List Int) := Der.sequence do
  guard ((← Der.integer) = 0)
  Der.sequence do
    guard ((← Der.objectIdentifier) = [1, 2, 840, 113549, 1, 1, 1])
    Der.null
  Der.octetString readRsaPrivateKey

namespace RsaKey

def numbers (k : RsaKey) : List Nat := [k.n, k.e, k.d, k.p, k.q, k.dp, k.dq, k.qinv]

/-- The size of the encoded key; the two headers of fixed contents have 3 and 15 bytes. -/
def encodedSize (k : RsaKey) : Nat :=
  tlvSize (3 + 15 + tlvSize (tlvSize (3 + (k.numbers.map intSize).sum)))

end RsaKey

theorem encodes_within {α : Type} (tag : UInt8) {body : Bytes} {reader : Der.Reader α} {value : α}
    (small : body.length < 256 ^ 126) (reads : Der.Reads reader body value) :
    Encodes (der tag body) (tlvSize body.length) (Der.within tag reader) value := by
  obtain ⟨encoded, returned, size, element⟩ := encodes_der tag small
  exact ⟨encoded, returned, size, Der.reads_within element reads⟩

theorem encodes_derInts (xs : List Nat) (small : (xs.map intSize).sum < 256 ^ 126) :
    ∃ items, xs.mapM derInt = .ok items ∧ items.flatten.length = (xs.map intSize).sum ∧
      Der.Reads (Der.times Der.integer xs.length) items.flatten (xs.map Nat.cast) := by
  induction xs with
  | nil => exact ⟨[], rfl, rfl, Der.Reads.pure []⟩
  | cons x xs ih =>
    rw [List.map_cons, List.sum_cons] at small
    obtain ⟨item, encoded, size, reads⟩ := encodes_derInt (x := x) (by omega)
    obtain ⟨items, encodedRest, sizeRest, readsRest⟩ := ih (by omega)
    refine ⟨item :: items, ?_, ?_, reads.times_cons readsRest⟩
    · rw [List.mapM_cons, encoded, encodedRest]
      rfl
    · rw [List.flatten_cons, List.length_append, size, sizeRest, List.map_cons, List.sum_cons]

theorem encodes_zero : Encodes (derInt 0) 3 Der.integer 0 :=
  encodes_derInt (x := 0) (by decide)

theorem encodes_algorithm : Encodes (do seq [← oid oidRsa, null]) 15
    (Der.sequence do
      guard ((← Der.objectIdentifier) = [1, 2, 840, 113549, 1, 1, 1])
      Der.null) () := by
  have oidEncoded : Encodes (oid oidRsa) (tlvSize (([840, 113549, 1, 1, 1].flatMap base128).length + 1))
      Der.objectIdentifier [1, 2, 840, 113549, 1, 1, 1] :=
    encodes_oid rfl (by decide) (by rw [parts_of_oidRsa]; norm_num)
  obtain ⟨identifier, returned, size, reads⟩ := oidEncoded
  rw [parts_of_oidRsa] at size
  have contents : Der.Reads (do
      guard ((← Der.objectIdentifier) = [1, 2, 840, 113549, 1, 1, 1])
      Der.null) [identifier, null].flatten () := by
    rw [List.flatten_cons, List.flatten_singleton]
    exact reads.bind (Der.Reads.guarded rfl Der.reads_null)
  have length : [identifier, null].flatten.length = 13 := by
    simp [size, tlvSize, null]
  obtain ⟨encoded, done, sizeAll, readsAll⟩ :=
    encodes_within 0x30 (by rw [length]; decide) contents
  refine ⟨encoded, ?_, ?_, readsAll⟩
  · simp only [returned, bind, Except.bind]
    exact done
  · rw [sizeAll, length]
    rfl

/-- `RSAPrivateKey` inside the octet string. -/
theorem encodes_rsaPriv {k : RsaKey} (small : 3 + (k.numbers.map intSize).sum < 256 ^ 126) :
    Encodes (do seq (← (0 :: k.numbers).mapM derInt))
      (tlvSize (3 + (k.numbers.map intSize).sum)) readRsaPrivateKey
      (k.numbers.map Nat.cast) := by
  obtain ⟨zero, zeroEncoded, zeroSize, readsZero⟩ := encodes_zero
  obtain ⟨items, encoded, size, reads⟩ := encodes_derInts k.numbers (by omega)
  have length : (zero :: items).flatten.length = 3 + (k.numbers.map intSize).sum := by
    rw [List.flatten_cons, List.length_append, zeroSize, size]
  have contents : Der.Reads (do
      guard ((← Der.integer) = 0)
      Der.times Der.integer 8) (zero :: items).flatten (k.numbers.map Nat.cast) := by
    rw [List.flatten_cons]
    exact readsZero.bind (Der.Reads.guarded rfl reads)
  rw [← length] at small ⊢
  obtain ⟨whole, done, sizeAll, readsAll⟩ := encodes_within 0x30 small contents
  refine ⟨whole, ?_, sizeAll, readsAll⟩
  rw [List.mapM_cons, zeroEncoded, encoded]
  exact done

theorem pkcs8PrivateKey_eq (k : RsaKey) : pkcs8PrivateKey k = (do
    let rsaPriv ← (do seq (← (0 :: k.numbers).mapM derInt))
    let zero ← derInt 0
    let algorithm ← (do seq [← oid oidRsa, null])
    let octets ← der 0x04 rsaPriv
    seq [zero, algorithm, octets]) := by
  simp [pkcs8PrivateKey, RsaKey.numbers, List.mapM_cons]

/-- The reader takes the encoded key for what it is, and finds its eight numbers. -/
theorem pkcs8_round_trip (k : RsaKey) (trailing : Bytes) (small : k.encodedSize < 256 ^ 126) :
    ∃ encoded, pkcs8PrivateKey k = .ok encoded ∧ encoded.length = k.encodedSize ∧
      readPrivateKeyInfo (encoded ++ trailing) = some (k.numbers.map Nat.cast, trailing) := by
  -- Each part is no longer than the whole, so its length can be encoded too.
  have whole := (le_tlvSize _).trans_lt small
  have wrapped := le_tlvSize (tlvSize (3 + (k.numbers.map intSize).sum))
  have inner := le_tlvSize (3 + (k.numbers.map intSize).sum)
  obtain ⟨zero, zeroEncoded, zeroSize, readsZero⟩ := encodes_zero
  obtain ⟨algorithm, algorithmEncoded, algorithmSize, readsAlgorithm⟩ := encodes_algorithm
  obtain ⟨rsaPriv, privEncoded, privSize, readsPriv⟩ := encodes_rsaPriv (k := k) (by omega)
  obtain ⟨octets, octetsEncoded, octetsSize, readsOctets⟩ :=
    encodes_within 0x04 (by omega) readsPriv
  have length : [zero, algorithm, octets].flatten.length =
      3 + 15 + tlvSize (tlvSize (3 + (k.numbers.map intSize).sum)) := by
    simp [zeroSize, algorithmSize, octetsSize, privSize]
    omega
  have contents : Der.Reads (do
      guard ((← Der.integer) = 0)
      Der.sequence do
        guard ((← Der.objectIdentifier) = [1, 2, 840, 113549, 1, 1, 1])
        Der.null
      Der.octetString readRsaPrivateKey) [zero, algorithm, octets].flatten
      (k.numbers.map Nat.cast) := by
    simp only [List.flatten_cons, List.flatten_nil, List.append_nil]
    exact readsZero.bind (Der.Reads.guarded rfl (readsAlgorithm.bind readsOctets))
  obtain ⟨encoded, done, sizeAll, readsAll⟩ :=
    encodes_within 0x30 (by rw [length]; exact whole) contents
  refine ⟨encoded, ?_, ?_, readsAll trailing⟩
  · rw [pkcs8PrivateKey_eq]
    refine bind_eq_ok.mpr ⟨rsaPriv, privEncoded, bind_eq_ok.mpr ⟨zero, zeroEncoded, ?_⟩⟩
    exact bind_eq_ok.mpr ⟨algorithm, algorithmEncoded, bind_eq_ok.mpr ⟨octets, octetsEncoded, done⟩⟩
  · rw [sizeAll, length]
    rfl

def smallKey : RsaKey := ⟨3233, 17, 2753, 61, 53, 53, 49, 38⟩

theorem smallKey_round_trip :
    ∃ encoded, pkcs8PrivateKey smallKey = .ok encoded ∧ encoded.length = smallKey.encodedSize ∧
      readPrivateKeyInfo (encoded ++ [0x2D, 0x2D]) =
        some ([3233, 17, 2753, 61, 53, 53, 49, 38], [0x2D, 0x2D]) :=
  pkcs8_round_trip smallKey [0x2D, 0x2D] (by decide)

end Excalibur.TlsInspect
