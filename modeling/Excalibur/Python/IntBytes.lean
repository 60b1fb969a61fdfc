import Excalibur.Library.BigEndian
import Excalibur.Library.Rsa
import Excalibur.Python.Basic

/-! # Integers as bytes

`bytes([value])`, and `bit_length`, `to_bytes(length, "big")` and the two forms of
`pow` with a modulus on integers that are not negative.
-/

namespace Excalibur.Python

open Excalibur.Library

def byte (value : Int) : Except PyError UInt8 :=
  if 0 ≤ value ∧ value < 256 then .ok (UInt8.ofNat value.toNat) else .error .valueError

def toBytes (n length : Nat) : Except PyError Bytes :=
  if n < 256 ^ length then .ok (bigEndian length n) else .error .overflowError

def bitLength (n : Nat) : Nat := if n = 0 then 0 else n.log2 + 1

/-- `(n.bit_length() + 7) // 8`, the number of bytes of `n`. -/
def byteLength (n : Nat) : Nat := (bitLength n + 7) / 8

/-- `pow(base, exponent, modulus)`. -/
def powMod (base exponent modulus : Nat) : Nat :=
  squareMultiply modulus (bitLength exponent) base exponent

/-- `pow(a, -1, modulus)`. -/
def modInverse (a modulus : Nat) : Except PyError Nat :=
  if modulus ≠ 0 ∧ a.gcd modulus = 1 then .ok (a.gcdA modulus % modulus).toNat
  else .error .valueError

theorem byte_natCast {value : Nat} (small : value < 256) :
    byte value = .ok (UInt8.ofNat value) := by
  rw [byte, if_pos (by omega), Int.toNat_natCast]

theorem byte_eq_ok {value : Nat} {b : UInt8} (made : byte value = .ok b) :
    value < 256 ∧ b = UInt8.ofNat value := by
  unfold byte at made
  split at made
  · rename_i range
    rw [Int.toNat_natCast] at made
    exact ⟨by omega, (Except.ok.inj made).symm⟩
  · cases made

theorem lt_two_pow_bitLength (n : Nat) : n < 2 ^ bitLength n := by
  unfold bitLength
  split
  · omega
  · exact Nat.lt_log2_self

theorem two_pow_le_of_bitLength {n bits : Nat} (length : bitLength n = bits + 1) : 2 ^ bits ≤ n := by
  unfold bitLength at length
  split at length
  · omega
  · obtain rfl : n.log2 = bits := by omega
    exact Nat.log2_self_le ‹_›

theorem bitLength_le_of_lt {n bits : Nat} (fits : n < 2 ^ bits) : bitLength n ≤ bits := by
  by_contra more
  obtain ⟨extra, lengthEq⟩ : ∃ extra, bitLength n = bits + extra + 1 :=
    ⟨bitLength n - bits - 1, by omega⟩
  have least := two_pow_le_of_bitLength lengthEq
  have grows : 2 ^ bits ≤ 2 ^ (bits + extra) := Nat.pow_le_pow_right (by decide) (by omega)
  omega

theorem bitLength_pos {n : Nat} (positive : n ≠ 0) : 0 < bitLength n := by
  rw [bitLength, if_neg positive]
  omega

theorem two_pow_eight_mul (width : Nat) : 2 ^ (8 * width) = 256 ^ width :=
  pow_mul 2 8 width

theorem lt_of_byteLength (n : Nat) : n < 256 ^ byteLength n := by
  rw [← two_pow_eight_mul]
  refine (lt_two_pow_bitLength n).trans_le (Nat.pow_le_pow_right (by decide) ?_)
  unfold byteLength
  omega

theorem le_of_byteLength {n width : Nat} (length : byteLength n = width + 1) : 256 ^ width ≤ n := by
  obtain ⟨bits, bitsEq⟩ : ∃ bits, bitLength n = bits + 1 := by
    refine ⟨bitLength n - 1, ?_⟩
    unfold byteLength at length
    omega
  rw [← two_pow_eight_mul]
  refine le_trans (Nat.pow_le_pow_right (by decide) ?_) (two_pow_le_of_bitLength bitsEq)
  unfold byteLength at length
  omega

theorem byteLength_le_of_lt {n width : Nat} (fits : n < 256 ^ width) : byteLength n ≤ width := by
  rw [← two_pow_eight_mul] at fits
  have bits := bitLength_le_of_lt fits
  unfold byteLength
  omega

theorem toBytes_byteLength (n : Nat) : toBytes n (byteLength n) = .ok (bigEndian (byteLength n) n) := by
  rw [toBytes, if_pos (lt_of_byteLength n)]

theorem powMod_eq (base exponent modulus : Nat) :
    powMod base exponent modulus = base ^ exponent % modulus :=
  squareMultiply_eq modulus base (lt_two_pow_bitLength exponent)

theorem modInverse_of_coprime {a modulus : Nat} (coprime : a.Coprime modulus) (positive : 0 < modulus) :
    ∃ inverse, modInverse a modulus = .ok inverse ∧ inverse < modulus ∧
      a * inverse ≡ 1 [MOD modulus] := by
  have nonnegative := Int.emod_nonneg (a.gcdA modulus) (by omega : (modulus : Int) ≠ 0)
  have below := Int.emod_lt_of_pos (a.gcdA modulus) (by omega : (0 : Int) < modulus)
  refine ⟨(a.gcdA modulus % modulus).toNat, ?_, by omega, ?_⟩
  · rw [modInverse, if_pos ⟨positive.ne', coprime⟩]
  · rw [← Int.natCast_modEq_iff]
    push_cast
    rw [Int.toNat_of_nonneg nonnegative]
    have bezout := Nat.gcd_eq_gcd_ab a modulus
    rw [coprime.gcd_eq_one] at bezout
    calc (a * (a.gcdA modulus % modulus) : Int)
      _ ≡ a * a.gcdA modulus [ZMOD modulus] := (Int.mod_modEq _ _).mul_left _
      _ ≡ a * a.gcdA modulus + modulus * a.gcdB modulus [ZMOD modulus] := by simp [Int.ModEq]
      _ = 1 := bezout.symm

end Excalibur.Python
