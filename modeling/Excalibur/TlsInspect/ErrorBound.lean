import Excalibur.Library.StrongLiars
import Excalibur.TlsInspect.Primality

/-! # How often a product passes

A number that is not prime passes a round of `_is_prime` for fewer than half of the bases
that can be drawn, so that it passes all rounds for at most one in `2 ** rounds` of the ways
to draw them, whatever the number is.
-/

namespace Excalibur.TlsInspect

open Excalibur.Library Excalibur.Python

/-- What a round of `_is_prime` finds for the base `a`. -/
def roundPasses (n a : Nat) : Bool :=
  let split := oddPart (n - 1) 0
  let x := powMod a split.1 n
  x == 1 || x == n - 1 || squaresToMinusOne n (split.2 - 1) x

/-- The draws of `rounds` rounds. -/
def drawn {rounds bound : Nat} (bases : Fin rounds → Fin bound) (round : Nat) : Nat :=
  if inside : round < rounds then bases ⟨round, inside⟩ else 0

theorem isPrime_eq_all {n : Nat} (atLeastTwo : ¬ n < 2)
    (none : smallPrimes.find? (fun p => n % p == 0) = none) (rounds : Nat)
    (randbelow : Nat → Nat) :
    isPrime n rounds randbelow =
      (List.range rounds).all fun i => roundPasses n (randbelow i % (n - 3) + 2) := by
  rw [isPrime, if_neg atLeastTwo, none]
  rfl

theorem oddPart_odd {d : Nat} (positive : d ≠ 0) (r : Nat) : Odd (oddPart d r).1 := by
  induction d using Nat.strong_induction_on generalizing r with
  | _ d ih =>
    rw [oddPart]
    split
    · exact ih (d / 2) (by omega) (by omega) (r + 1)
    · rw [Nat.odd_iff]
      omega

theorem pow_of_squaresToMinusOne {n count x : Nat} (found : squaresToMinusOne n count x = true) :
    ∃ i, i ≤ count ∧ x ^ 2 ^ i % n = n - 1 := by
  induction count generalizing x with
  | zero => cases found
  | succ count ih =>
    simp only [squaresToMinusOne, powMod_eq, Bool.or_eq_true, beq_iff_eq] at found
    rcases found with here | later
    · exact ⟨1, by omega, by simpa using here⟩
    · obtain ⟨i, inside, minusOne⟩ := ih later
      refine ⟨i + 1, by omega, ?_⟩
      rw [← Nat.pow_mod] at minusOne
      rw [pow_succ', pow_mul]
      exact minusOne

section Round

variable {n a : Nat}

theorem cast_eq_neg_one {x : Nat} (positive : 0 < n) (minusOne : x % n = n - 1) :
    (x : ZMod n) = -1 := by
  rw [← ZMod.natCast_mod, minusOne, Nat.cast_sub positive]
  simp

/-- A base that passes is a unit that lies. -/
theorem strongLiar_of_passes (large : 1 < n) (rPositive : 0 < (oddPart (n - 1) 0).2)
    (passes : roundPasses n a = true) :
    ∃ u : (ZMod n)ˣ, (u : ZMod n) = a ∧
      StrongLiar n (oddPart (n - 1) 0).1 (oddPart (n - 1) 0).2 u := by
  have dOdd := oddPart_odd (by omega : n - 1 ≠ 0) 0
  set d := (oddPart (n - 1) 0).1
  set r := (oddPart (n - 1) 0).2
  have powers : (a : ZMod n) ^ d = 1 ∨ ∃ i < r, (a : ZMod n) ^ (d * 2 ^ i) = -1 := by
    simp only [roundPasses, powMod_eq, Bool.or_eq_true, beq_iff_eq] at passes
    rcases passes with (one | minusOne) | squares
    · left
      rw [← Nat.cast_pow, ← ZMod.natCast_mod, one, Nat.cast_one]
    · right
      refine ⟨0, rPositive, ?_⟩
      rw [pow_zero, mul_one, ← Nat.cast_pow]
      exact cast_eq_neg_one (by omega) minusOne
    · right
      obtain ⟨i, inside, minusOne⟩ := pow_of_squaresToMinusOne squares
      refine ⟨i, by omega, ?_⟩
      rw [← Nat.pow_mod, ← pow_mul] at minusOne
      rw [← Nat.cast_pow]
      exact cast_eq_neg_one (by omega) minusOne
  have positive : d ≠ 0 := dOdd.pos.ne'
  have unit : IsUnit (a : ZMod n) := by
    rcases powers with one | ⟨i, -, minusOne⟩
    · exact (isUnit_pow_iff positive).mp (one ▸ isUnit_one)
    · exact (isUnit_pow_iff (by positivity)).mp (minusOne ▸ isUnit_one.neg)
  obtain ⟨u, value⟩ := unit
  refine ⟨u, value, ?_⟩
  rcases powers with one | ⟨i, inside, minusOne⟩
  · exact .inl (Units.ext (by rw [Units.val_pow_eq_pow_val, value, one, Units.val_one]))
  · refine .inr ⟨i, inside, Units.ext ?_⟩
    rw [Units.val_pow_eq_pow_val, value, minusOne, Units.val_neg, Units.val_one]

/-- The bases that can be drawn and pass. -/
def passing (n : Nat) : Finset (Fin (n - 3)) := Finset.univ.filter fun base =>
  roundPasses n (base + 2) = true

theorem two_mul_passing_le (composite : ¬ n.Prime) (large : 3 < n) (odd : n % 2 = 1) :
    2 * (passing n).card ≤ n - 3 := by
  have split : n - 1 = (oddPart (n - 1) 0).1 * 2 ^ (oddPart (n - 1) 0).2 := by
    rw [oddPart_spec, pow_zero, mul_one]
  have dOdd := oddPart_odd (by omega : n - 1 ≠ 0) 0
  have rPositive : 0 < (oddPart (n - 1) 0).2 := by
    by_contra zero
    rw [Nat.eq_zero_of_not_pos zero, pow_zero, mul_one] at split
    rw [← split, Nat.odd_iff] at dOdd
    omega
  have shift : Function.Injective fun base : Fin (n - 3) => (base : ℕ) + 2 := by
    intro first second same
    exact Fin.ext (Nat.add_right_cancel same)
  have bound := two_mul_liars_le composite (by omega) (Nat.odd_iff.mpr odd) split dOdd rPositive
    ((passing n).image fun base : Fin (n - 3) => (base : ℕ) + 2) (by
      intro a member
      obtain ⟨base, passes, rfl⟩ := Finset.mem_image.mp member
      have small := base.isLt
      refine ⟨by omega, by omega, ?_⟩
      exact strongLiar_of_passes (by omega) rPositive (Finset.mem_filter.mp passes).2)
  rw [Finset.card_image_of_injective _ shift] at bound
  omega

end Round

end Excalibur.TlsInspect
