import Excalibur.TlsInspect.Generation

/-! # Primes pass the test

`_is_prime` writes `n - 1` as `d * 2 ** r` and follows the squares of `a ** d`; for a
prime they go through 1 or -1 before the last of them, whatever the base.  So a `False`
is a proof that the number is composite, and only a `True` can be wrong.
-/

namespace Excalibur.TlsInspect

open Excalibur.Library Excalibur.Python

theorem oddPart_spec (d r : Nat) : (oddPart d r).1 * 2 ^ (oddPart d r).2 = d * 2 ^ r := by
  induction d using Nat.strong_induction_on generalizing r with
  | _ d ih =>
    rw [oddPart]
    split
    · rename_i even
      rw [ih (d / 2) (by omega) (r + 1), pow_succ', ← mul_assoc]
      congr 1
      omega
    · rfl

theorem squaresToMinusOne_of_pow {n i count x : Nat} (positive : 0 < i) (inside : i ≤ count)
    (minusOne : x ^ 2 ^ i % n = n - 1) : squaresToMinusOne n count x = true := by
  induction count generalizing i x with
  | zero => omega
  | succ count ih =>
    obtain ⟨i, rfl⟩ : ∃ before, i = before + 1 := ⟨i - 1, by omega⟩
    rw [pow_succ', pow_mul] at minusOne
    simp only [squaresToMinusOne, powMod_eq, Bool.or_eq_true, beq_iff_eq]
    rcases Nat.eq_zero_or_pos i with rfl | later
    · exact .inl (by simpa using minusOne)
    · refine .inr (ih later (by omega) ?_)
      rw [← Nat.pow_mod]
      exact minusOne

/-- A prime that is none of the small ones is larger than three. -/
theorem large_of_no_smallPrime {n : Nat} (atLeastTwo : 2 ≤ n)
    (none : smallPrimes.find? (fun p => n % p == 0) = none) : 4 ≤ n := by
  have noDivisor : ∀ p ∈ smallPrimes, ¬ n % p = 0 := by
    simpa using List.find?_eq_none.mp none
  have notTwo := noDivisor 2 (by decide)
  have notThree := noDivisor 3 (by decide)
  by_contra small
  interval_cases n
  · exact notTwo rfl
  · exact notThree rfl

theorem isPrime_of_prime {n : Nat} (prime : n.Prime) (rounds : Nat) (randbelow : Nat → Nat) :
    isPrime n rounds randbelow = true := by
  unfold isPrime
  rw [if_neg (not_lt.mpr prime.two_le)]
  split
  · rename_i p found
    -- a prime that a small prime divides is that prime
    have divides : p ∣ n := Nat.dvd_of_mod_eq_zero (by simpa using List.find?_some found)
    have notOne : p ≠ 1 := by
      rintro rfl
      exact absurd (List.mem_of_find?_eq_some found) (by decide)
    simpa using (prime.eq_one_or_self_of_dvd p divides).resolve_left notOne |>.symm
  · rename_i none
    have large := large_of_no_smallPrime prime.two_le none
    rw [List.all_eq_true]
    intro round _
    -- the base is neither 0 nor a multiple of `n`
    have small : randbelow round % (n - 3) + 2 < n := by
      have below := Nat.mod_lt (randbelow round) (by omega : 0 < n - 3)
      omega
    have coprime : ¬ n ∣ randbelow round % (n - 3) + 2 :=
      fun divides => absurd (Nat.le_of_dvd (by omega) divides) (not_le.mpr small)
    have split : n - 1 = (oddPart (n - 1) 0).1 * 2 ^ (oddPart (n - 1) 0).2 := by
      rw [oddPart_spec, pow_zero, mul_one]
    simp only [powMod_eq, Bool.or_eq_true, beq_iff_eq]
    rcases squares_of_prime prime coprime split with one | ⟨i, inside, minusOne⟩
    · exact .inl (.inl one)
    · rcases Nat.eq_zero_or_pos i with rfl | later
      · exact .inl (.inr (by simpa using minusOne))
      · refine .inr (squaresToMinusOne_of_pow later (by omega) ?_)
        rw [← Nat.pow_mod]
        exact minusOne

/-- Whatever the number of rounds (a range of a negative number is empty) and the bases
    drawn, every prime passes, and a number from two on that fails is a product. -/
theorem never_rejects_prime (n : Nat) (rounds : Int) (randbelow : Nat → Nat) :
    (n.Prime → isPrime n rounds.toNat randbelow = true) ∧
    (2 ≤ n → isPrime n rounds.toNat randbelow = false →
      ∃ a b, 1 < a ∧ 1 < b ∧ n = a * b) := by
  constructor
  · intro prime
    exact isPrime_of_prime prime rounds.toNat randbelow
  · intro atLeastTwo rejected
    have composite : ¬ n.Prime := by
      intro prime
      rw [isPrime_of_prime prime] at rejected
      cases rejected
    obtain ⟨a, b, aSmall, bSmall, product⟩ :=
      (Nat.not_prime_iff_exists_mul_eq atLeastTwo).mp composite
    refine ⟨a, b, ?_, ?_, product.symm⟩
    · by_contra tooSmall
      have : a * b ≤ 1 * b := Nat.mul_le_mul_right b (by omega)
      omega
    · by_contra tooSmall
      have : a * b ≤ a * 1 := Nat.mul_le_mul_left a (by omega)
      omega

/-- 65537 passes twenty rounds, and 1763 is found to be a product. -/
theorem fermat_number_passes :
    isPrime 65537 20 (fun round => round) = true ∧
    isPrime 1763 20 (fun round => round) = false ∧ ∃ a b, 1 < a ∧ 1 < b ∧ 1763 = a * b := by
  have rejected : isPrime 1763 20 (fun round => round) = false := by decide +kernel
  exact ⟨(never_rejects_prime 65537 20 fun round => round).1 (by norm_num), rejected,
    (never_rejects_prime 1763 20 fun round => round).2 (by decide) rejected⟩

end Excalibur.TlsInspect
