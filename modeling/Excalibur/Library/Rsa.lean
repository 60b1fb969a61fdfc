import Mathlib

/-! # Powers modulo a product of two primes

The arithmetic that RSA rests on, for all bases, those that share a factor with the
modulus included: exponents can be reduced modulo `p - 1` as long as they do not become
zero, an exponent that is one modulo `(p - 1) * (q - 1)` gives the base back modulo
`p * q`, and a number below `p * q` is recombined from its two remainders.  A prime also
shows in its powers, by Lucas's test and by the chain of squares behind Fermat's theorem.
-/

namespace Excalibur.Library

/-! ## Square and multiply -/

/-- `base ^ exponent % modulus` for an exponent of `bits` bits. -/
def squareMultiply (modulus : Nat) : Nat → Nat → Nat → Nat
  | 0, _, _ => 1 % modulus
  | bits + 1, base, exponent =>
    let upper := squareMultiply modulus bits (base ^ 2 % modulus) (exponent / 2)
    if exponent % 2 = 1 then base * upper % modulus else upper

theorem squareMultiply_eq (modulus : Nat) {bits exponent : Nat} (base : Nat)
    (fits : exponent < 2 ^ bits) :
    squareMultiply modulus bits base exponent = base ^ exponent % modulus := by
  induction bits generalizing base exponent with
  | zero =>
    obtain rfl : exponent = 0 := by simpa using fits
    rfl
  | succ bits ih =>
    have half : exponent / 2 < 2 ^ bits := by
      rw [pow_succ] at fits
      omega
    have upper : squareMultiply modulus bits (base ^ 2 % modulus) (exponent / 2) =
        base ^ (2 * (exponent / 2)) % modulus := by
      rw [ih _ half, ← Nat.pow_mod, pow_mul]
    simp only [squareMultiply, upper]
    split
    · rename_i odd
      conv_rhs => rw [← Nat.div_add_mod exponent 2, odd, pow_succ']
      exact Nat.mul_mod_mod _ _ _
    · rename_i even
      conv_rhs => rw [← Nat.div_add_mod exponent 2, (by omega : exponent % 2 = 0)]
      rfl

/-- Lucas's test for a number that is one more than a prime times a power of two. -/
theorem prime_of_powers {k bits : Nat} (fuel a : Nat) (kPrime : k.Prime)
    (enough : k * 2 ^ (bits + 1) < 2 ^ fuel)
    (whole : squareMultiply (k * 2 ^ (bits + 1) + 1) fuel a (k * 2 ^ (bits + 1)) = 1)
    (half : squareMultiply (k * 2 ^ (bits + 1) + 1) fuel a (k * 2 ^ bits) ≠ 1)
    (rest : squareMultiply (k * 2 ^ (bits + 1) + 1) fuel a (2 ^ (bits + 1)) ≠ 1) :
    (k * 2 ^ (bits + 1) + 1).Prime := by
  set p := k * 2 ^ (bits + 1) + 1 with pEq
  have large : 1 < p := by
    have := kPrime.pos
    have := Nat.mul_pos this (Nat.two_pow_pos (bits + 1))
    omega
  have test {n : Nat} (small : n ≤ k * 2 ^ (bits + 1)) :
      squareMultiply p fuel a n = 1 ↔ (a : ZMod p) ^ n = 1 := by
    have asRemainder : (a : ZMod p) ^ n = 1 ↔ a ^ n % p = 1 % p := by
      rw [← ZMod.natCast_eq_natCast_iff', Nat.cast_pow, Nat.cast_one]
    rw [squareMultiply_eq p a (small.trans_lt enough), asRemainder, Nat.mod_eq_of_lt large]
  have doubled : k * 2 ^ (bits + 1) = 2 * (k * 2 ^ bits) := by ring
  -- A prime divisor of `p - 1` is `k` or 2, and for either the smaller power is not 1.
  refine lucas_primality p (a : ZMod p) ((test le_rfl).mp whole) ?_
  rintro r rPrime divides
  have less : p - 1 = k * 2 ^ (bits + 1) := by omega
  rw [less] at divides ⊢
  rcases (Nat.Prime.dvd_mul rPrime).mp divides with inK | inPower
  · obtain rfl : r = k := (Nat.prime_dvd_prime_iff_eq rPrime kPrime).mp inK
    rw [Nat.mul_div_cancel_left _ rPrime.pos]
    exact mt (test (Nat.le_mul_of_pos_left _ rPrime.pos)).mpr rest
  · obtain rfl : r = 2 := Nat.prime_eq_prime_of_dvd_pow rPrime Nat.prime_two inPower
    rw [doubled, Nat.mul_div_cancel_left _ (by decide)]
    exact mt (test (by omega)).mpr half

/-! ## Exponents -/

section Exponents

variable {p q d e : Nat}

theorem pow_modEq_one (prime : p.Prime) {m : Nat} (coprime : ¬ p ∣ m) :
    m ^ (p - 1) ≡ 1 [MOD p] := by
  rw [← Nat.totient_prime prime]
  exact Nat.ModEq.pow_totient ((Nat.Prime.coprime_iff_not_dvd prime).mpr coprime).symm

theorem pow_modEq_of_modEq (prime : p.Prime) {first second : Nat} (same : first ≡ second [MOD p - 1])
    (firstPositive : first ≠ 0) (secondPositive : second ≠ 0) (m : Nat) :
    m ^ first ≡ m ^ second [MOD p] := by
  by_cases divides : p ∣ m
  · -- Both powers are zero.
    have vanishes {exponent : Nat} (positive : exponent ≠ 0) : m ^ exponent ≡ 0 [MOD p] :=
      (Nat.modEq_zero_iff_dvd).mpr (dvd_pow divides positive)
    exact (vanishes firstPositive).trans (vanishes secondPositive).symm
  · have reduced (exponent : Nat) : m ^ exponent ≡ m ^ (exponent % (p - 1)) [MOD p] := by
      calc m ^ exponent
        _ = m ^ (exponent % (p - 1)) * (m ^ (p - 1)) ^ (exponent / (p - 1)) := by
          rw [← pow_mul, ← pow_add, Nat.mod_add_div]
        _ ≡ m ^ (exponent % (p - 1)) * 1 ^ (exponent / (p - 1)) [MOD p] :=
          ((pow_modEq_one prime divides).pow _).mul_left _
        _ = m ^ (exponent % (p - 1)) := by rw [one_pow, mul_one]
    have remainders : first % (p - 1) = second % (p - 1) := same
    exact (reduced first).trans (remainders ▸ (reduced second).symm)

/-- The two exponents of a key undo each other. -/
theorem pow_mul_modEq (pPrime : p.Prime) (qPrime : q.Prime) (distinct : p ≠ q)
    (inverse : e * d ≡ 1 [MOD (p - 1) * (q - 1)]) (nontrivial : e * d ≠ 0) (m : Nat) :
    m ^ (e * d) ≡ m [MOD p * q] := by
  have coprime : p.Coprime q := (Nat.coprime_primes pPrime qPrime).mpr distinct
  rw [← Nat.modEq_and_modEq_iff_modEq_mul coprime]
  constructor
  · have modP := pow_modEq_of_modEq pPrime (inverse.of_mul_right (q - 1)) nontrivial one_ne_zero m
    rwa [pow_one] at modP
  · have modQ := pow_modEq_of_modEq qPrime (inverse.of_mul_left (p - 1)) nontrivial one_ne_zero m
    rwa [pow_one] at modQ

/-- An exponent that has an inverse is not lost when it is reduced. -/
theorem mod_ne_zero_of_inverse {n : Nat} (inverse : e * d ≡ 1 [MOD n]) (large : 1 < n) :
    d % n ≠ 0 := by
  intro zero
  have vanishes : e * d ≡ 0 [MOD n] := (Nat.modEq_zero_iff_dvd).mpr
    (Dvd.dvd.mul_left (Nat.dvd_of_mod_eq_zero zero) e)
  have divides : n ∣ 1 := (Nat.modEq_zero_iff_dvd).mp (inverse.symm.trans vanishes)
  rw [Nat.dvd_one] at divides
  omega

end Exponents

/-! ## Chains of squares -/

/-- Without zero divisors, a chain of squares that comes to 1 starts at 1 or goes
    through -1. -/
theorem eq_one_or_neg_one_of_squares {R : Type*} [CommRing R] [NoZeroDivisors R] {x : R} {r : Nat}
    (ends : x ^ 2 ^ r = 1) : x = 1 ∨ ∃ i < r, x ^ 2 ^ i = -1 := by
  induction r with
  | zero => exact .inl (by simpa using ends)
  | succ r ih =>
    rw [pow_succ, pow_mul] at ends
    rcases sq_eq_one_iff.mp ends with one | minusOne
    · rcases ih one with atStart | ⟨i, small, minusOne⟩
      · exact .inl atStart
      · exact .inr ⟨i, Nat.lt_succ_of_lt small, minusOne⟩
    · exact .inr ⟨r, Nat.lt_succ_self r, minusOne⟩

theorem mod_eq_pred_of_neg_one {p x : Nat} (positive : 0 < p) (minusOne : (x : ZMod p) = -1) :
    x % p = p - 1 := by
  have zero : ((x + 1 : Nat) : ZMod p) = 0 := by
    push_cast
    rw [minusOne, neg_add_cancel]
  have divides : p ∣ p * (x / p) + (x % p + 1) := by
    rw [← add_assoc, Nat.div_add_mod]
    exact (ZMod.natCast_eq_zero_iff _ _).mp zero
  have last := Nat.le_of_dvd (Nat.succ_pos _) ((Nat.dvd_add_right (dvd_mul_right p _)).mp divides)
  have below := Nat.mod_lt x positive
  omega

/-- Fermat's theorem along the chain of squares that ends at the exponent `p - 1`. -/
theorem squares_of_prime {p a d r : Nat} (prime : p.Prime) (coprime : ¬ p ∣ a)
    (split : p - 1 = d * 2 ^ r) :
    a ^ d % p = 1 ∨ ∃ i < r, (a ^ d) ^ 2 ^ i % p = p - 1 := by
  have : Fact p.Prime := ⟨prime⟩
  have ends : ((a ^ d : Nat) : ZMod p) ^ 2 ^ r = 1 := by
    have fermat := (ZMod.natCast_eq_natCast_iff _ _ _).mpr (pow_modEq_one prime coprime)
    rw [split, pow_mul] at fermat
    exact_mod_cast fermat
  rcases eq_one_or_neg_one_of_squares ends with one | ⟨i, small, minusOne⟩
  · have same : ((a ^ d : Nat) : ZMod p) = (1 : Nat) := by rw [one, Nat.cast_one]
    have remainder := (ZMod.natCast_eq_natCast_iff' _ _ _).mp same
    rw [Nat.mod_eq_of_lt prime.one_lt] at remainder
    exact .inl remainder
  · refine .inr ⟨i, small, mod_eq_pred_of_neg_one prime.pos ?_⟩
    exact_mod_cast minusOne

/-! ## Recombination -/

/-- The number below `p * q` with remainders `mp` and `mq`, from the inverse of `q`. -/
def recombine (p q qinv mp mq : Nat) : Int := mq + (qinv * (mp - mq : Int)) % p * q

theorem recombine_eq {p q qinv x : Nat} (coprime : p.Coprime q)
    (inverse : q * qinv ≡ 1 [MOD p]) (below : x < p * q) :
    recombine p q qinv (x % p : Nat) (x % q : Nat) = x := by
  have pPositive : 0 < p := Nat.pos_of_mul_pos_right (Nat.zero_lt_of_lt below)
  have qPositive : 0 < q := Nat.pos_of_mul_pos_left (Nat.zero_lt_of_lt below)
  unfold recombine
  push_cast
  set difference : Int := (x % p - x % q : Int) with differenceEq
  have inverseInt : (q * qinv : Int) ≡ 1 [ZMOD p] := by exact_mod_cast inverse
  have modQ : (x % q + qinv * difference % p * q : Int) ≡ x [ZMOD q] := by
    calc (x % q + qinv * difference % p * q : Int)
      _ ≡ x % q [ZMOD q] := by simp [Int.ModEq]
      _ ≡ x [ZMOD q] := Int.mod_modEq _ _
  have modP : (x % q + qinv * difference % p * q : Int) ≡ x [ZMOD p] := by
    calc (x % q + qinv * difference % p * q : Int)
      _ ≡ x % q + qinv * difference * q [ZMOD p] :=
        ((Int.mod_modEq _ _).mul_right _).add_left _
      _ = x % q + q * qinv * difference := by ring
      _ ≡ x % q + 1 * difference [ZMOD p] := (inverseInt.mul_right _).add_left _
      _ = x % p := by
        rw [differenceEq]
        ring
      _ ≡ x [ZMOD p] := Int.mod_modEq _ _
  -- The two congruences give one modulo `p * q`, and both numbers are in its range.
  have both := (Int.modEq_and_modEq_iff_modEq_mul (by simpa using coprime)).mp ⟨modP, modQ⟩
  have digit := Int.emod_nonneg (qinv * difference) (by omega : (p : Int) ≠ 0)
  have digitBelow := Int.emod_lt_of_pos (qinv * difference) (by omega : (0 : Int) < p)
  have remainder := Int.emod_nonneg (x : Int) (by omega : (q : Int) ≠ 0)
  have remainderBelow := Int.emod_lt_of_pos (x : Int) (by omega : (0 : Int) < q)
  have nonnegative : 0 ≤ (x % q + qinv * difference % p * q : Int) := by positivity
  have small : (x % q + qinv * difference % p * q : Int) < p * q := by
    calc (x % q + qinv * difference % p * q : Int)
      _ < q + qinv * difference % p * q := by linarith
      _ = (qinv * difference % p + 1) * q := by ring
      _ ≤ p * q := by gcongr; omega
  calc (x % q + qinv * difference % p * q : Int)
    _ = (x % q + qinv * difference % p * q) % (p * q) := (Int.emod_eq_of_lt nonnegative small).symm
    _ = x % (p * q) := both
    _ = x := Int.emod_eq_of_lt (by positivity) (by exact_mod_cast below)

end Excalibur.Library
