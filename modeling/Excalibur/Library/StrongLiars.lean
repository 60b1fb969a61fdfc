import Mathlib

/-! # Strong liars

A unit modulo `n` lies for `n` if its powers look as they do modulo a prime: with
`n - 1 = d * 2 ^ r`, its `d`-th power is 1, or one of the squares that follow is -1.  For an
odd composite `n` all liars lie in one proper subgroup of the units, so that at most half of
the units are liars.

If a square of a prime divides `n`, the subgroup are the units with `x ^ (n - 1) = 1`.
Otherwise `n` is a product of coprime factors.  Then the last square counts in which some
unit is -1 at all: every liar is 1 or -1 in it, while a unit can be -1 modulo one factor and
1 modulo the other.
-/

namespace Excalibur.Library

variable {n d r : ℕ}

def StrongLiar (n d r : ℕ) (a : (ZMod n)ˣ) : Prop := a ^ d = 1 ∨ ∃ i < r, a ^ (d * 2 ^ i) = -1

section Group

variable {G : Type*} [CommGroup G] [HasDistribNeg G]

/-- The elements whose `k`-th power is 1 or -1. -/
def signRoots (G : Type*) [CommGroup G] [HasDistribNeg G] (k : ℕ) : Subgroup G where
  carrier := {x | x ^ k = 1 ∨ x ^ k = -1}
  one_mem' := .inl (one_pow k)
  mul_mem' := by
    rintro x y (first | first) (second | second) <;> simp [mul_pow, first, second]
  inv_mem' := by
    rintro x (power | power)
    · exact .inl (by rw [inv_pow, power, inv_one])
    · exact .inr (by rw [inv_pow, power, inv_neg, inv_one])

theorem mem_signRoots {k : ℕ} {x : G} : x ∈ signRoots G k ↔ x ^ k = 1 ∨ x ^ k = -1 := Iff.rfl

theorem pow_later_of_neg_one {x : G} {i later : ℕ} (minusOne : x ^ (d * 2 ^ i) = -1)
    (inside : i < later) : x ^ (d * 2 ^ later) = 1 := by
  obtain ⟨gap, rfl⟩ : ∃ gap, later = i + 1 + gap := ⟨later - (i + 1), by omega⟩
  calc x ^ (d * 2 ^ (i + 1 + gap))
    _ = ((x ^ (d * 2 ^ i)) ^ 2) ^ 2 ^ gap := by
      rw [← pow_mul, ← pow_mul]
      congr 1
      ring
    _ = 1 := by rw [minusOne, neg_one_sq, one_pow]

end Group

/-! ## A square divides -/

/-- One and a nilpotent number of order two. -/
theorem one_add_pow_of_sq_eq_zero {R : Type*} [CommRing R] {m : R} (square : m ^ 2 = 0) (k : ℕ) :
    (1 + m) ^ k = 1 + k * m := by
  induction k with
  | zero => simp
  | succ k ih =>
    rw [pow_succ, ih]
    push_cast
    linear_combination (k : R) * square

theorem fermat_proper_of_square {p : ℕ} (prime : p.Prime) (square : p ^ 2 ∣ n) (positive : 0 < n) :
    ∃ x : (ZMod n)ˣ, x ^ (n - 1) ≠ 1 := by
  obtain ⟨q, rfl⟩ := square
  have := prime.two_le
  set m : ℕ := p * q with mEq
  have whole : p ^ 2 * q = p * m := by rw [mEq]; ring
  have nilpotent : ((m : ℕ) : ZMod (p ^ 2 * q)) ^ 2 = 0 := by
    rw [← Nat.cast_pow, ZMod.natCast_eq_zero_iff]
    exact ⟨q, by rw [mEq]; ring⟩
  have inverse : (1 + (m : ZMod (p ^ 2 * q))) * (1 - m) = 1 := by
    linear_combination -nilpotent
  refine ⟨⟨1 + m, 1 - m, inverse, (mul_comm _ _).trans inverse⟩, ?_⟩
  intro fermat
  have value := congrArg Units.val fermat
  rw [Units.val_pow_eq_pow_val, Units.val_one, one_add_pow_of_sq_eq_zero nilpotent] at value
  have zero : (((p ^ 2 * q - 1) * m : ℕ) : ZMod (p ^ 2 * q)) = 0 := by
    push_cast
    simpa using value
  have coprime : (p ^ 2 * q).Coprime (p ^ 2 * q - 1) :=
    (Nat.coprime_self_sub_right positive).mpr (Nat.coprime_one_right _)
  have divides := coprime.dvd_of_dvd_mul_left ((ZMod.natCast_eq_zero_iff _ _).mp zero)
  have mPositive : 0 < m := Nat.mul_pos prime.pos (Nat.pos_of_mul_pos_left positive)
  have small := Nat.le_of_dvd mPositive divides
  have large : 2 * m ≤ p * m := Nat.mul_le_mul_right m prime.two_le
  omega

/-! ## Coprime factors -/

/-- A unit that is -1 after `j` squares is joined from one factor with 1 from the other. -/
theorem signRoots_proper {u v j : ℕ} (product : n = u * v) (coprime : u.Coprime v) (uLarge : 2 < u)
    (vLarge : 2 < v) (dOdd : Odd d) {c : (ZMod n)ˣ} (minusOne : c ^ 2 ^ j = -1) :
    ∃ x : (ZMod n)ˣ, x ∉ signRoots (ZMod n)ˣ (d * 2 ^ j) := by
  subst product
  have : Fact (2 < u) := ⟨uLarge⟩
  have : Fact (2 < v) := ⟨vLarge⟩
  let split := (Units.mapEquiv (ZMod.chineseRemainder coprime).toMulEquiv).trans MulEquiv.prodUnits
  have image : ZMod.chineseRemainder coprime (-1) = -1 := by rw [map_neg, map_one]
  have negative : split (-1) = (-1, -1) :=
    Prod.ext (Units.ext (congrArg Prod.fst image)) (Units.ext (congrArg Prod.snd image))
  have ownPower : (split c).1 ^ 2 ^ j = -1 := by
    rw [← Prod.pow_fst, ← map_pow, minusOne, negative]
  have power : split (split.symm ((split c).1, 1) ^ (d * 2 ^ j)) = (-1, 1) := by
    rw [map_pow, MulEquiv.apply_symm_apply, Prod.pow_mk, one_pow, mul_comm d, pow_mul, ownPower,
      dOdd.neg_one_pow]
  refine ⟨split.symm ((split c).1, 1), ?_⟩
  rw [mem_signRoots]
  rintro (one | minus)
  · rw [one, map_one] at power
    have first := congrArg (fun pair => (Units.val pair.1)) power
    exact ZMod.neg_one_ne_one first.symm
  · rw [minus, negative] at power
    have second := congrArg (fun pair => (Units.val pair.2)) power
    exact ZMod.neg_one_ne_one second

/-! ## The subgroup -/

theorem exists_proper_subgroup (composite : ¬ n.Prime) (large : 1 < n) (odd : Odd n)
    (split : n - 1 = d * 2 ^ r) (dOdd : Odd d) :
    ∃ H : Subgroup (ZMod n)ˣ, H ≠ ⊤ ∧ ∀ a, StrongLiar n d r a → a ∈ H := by
  classical
  by_cases squarefree : Squarefree n
  · obtain ⟨v, product⟩ := n.minFac_dvd
    have prime := Nat.minFac_prime (by omega : n ≠ 1)
    have coprime : n.minFac.Coprime v :=
      Nat.coprime_of_squarefree_mul (product ▸ squarefree)
    -- Some unit is -1 after `j` squares, and none is after more.
    let Reached (j : ℕ) : Prop := ∃ c : (ZMod n)ˣ, c ^ 2 ^ j = -1
    have atZero : Reached 0 := ⟨-1, by simp⟩
    set j := Nat.findGreatest Reached r with jEq
    obtain ⟨c, minusOne⟩ : Reached j := Nat.findGreatest_spec (Nat.zero_le r) atZero
    refine ⟨signRoots _ (d * 2 ^ j), ?_, ?_⟩
    · have vOne : v ≠ 1 := by
        rintro rfl
        rw [mul_one] at product
        exact composite (product ▸ prime)
      obtain ⟨half, nEq⟩ := odd
      have uOdd : Odd n.minFac := Odd.of_dvd_nat ⟨half, nEq⟩ n.minFac_dvd
      have vOdd : Odd v := Odd.of_dvd_nat ⟨half, nEq⟩ ⟨n.minFac, by rw [mul_comm]; exact product⟩
      have := prime.two_le
      obtain ⟨x, outside⟩ := signRoots_proper product coprime
        (by obtain ⟨k, eq⟩ := uOdd; omega) (by obtain ⟨k, eq⟩ := vOdd; omega) dOdd minusOne
      intro all
      rw [all] at outside
      exact outside (Subgroup.mem_top x)
    · rintro a (one | ⟨i, inside, minus⟩)
      · exact .inl (by rw [pow_mul, one, one_pow])
      · have within : i ≤ j :=
          Nat.le_findGreatest inside.le ⟨a ^ d, by rw [← pow_mul]; exact minus⟩
        rcases within.eq_or_lt with rfl | before
        · exact .inr minus
        · exact .inl (pow_later_of_neg_one minus before)
  · obtain ⟨p, prime, square⟩ : ∃ p : ℕ, p.Prime ∧ p ^ 2 ∣ n := by
      rw [Nat.squarefree_iff_prime_squarefree] at squarefree
      push Not at squarefree
      simpa only [sq] using squarefree
    obtain ⟨x, notOne⟩ := fermat_proper_of_square prime square (by omega)
    refine ⟨(powMonoidHom (n - 1)).ker, ?_, ?_⟩
    · intro all
      have inside : x ∈ (powMonoidHom (n - 1) : (ZMod n)ˣ →* (ZMod n)ˣ).ker := by
        rw [all]
        exact Subgroup.mem_top x
      exact notOne inside
    · rintro a (one | ⟨i, inside, minus⟩)
      · show a ^ (n - 1) = 1
        rw [split, pow_mul, one, one_pow]
      · show a ^ (n - 1) = 1
        rw [split]
        exact pow_later_of_neg_one minus inside

/-! ## The count -/

theorem two_mul_card_le {G : Type*} [Group G] [Finite G] {H : Subgroup G} (proper : H ≠ ⊤) :
    2 * Nat.card H ≤ Nat.card G := by
  have index : 1 < H.index := Subgroup.one_lt_index_of_ne_top proper
  rw [← H.card_mul_index, mul_comm]
  exact Nat.mul_le_mul_left _ index

/-- Among the numbers between 1 and -1, fewer than half are liars. -/
theorem two_mul_liars_le (composite : ¬ n.Prime) (large : 2 < n) (odd : Odd n)
    (split : n - 1 = d * 2 ^ r) (dOdd : Odd d) (rPositive : 0 < r) (liars : Finset ℕ)
    (lies : ∀ a ∈ liars, 1 < a ∧ a < n - 1 ∧
      ∃ u : (ZMod n)ˣ, (u : ZMod n) = a ∧ StrongLiar n d r u) :
    2 * (liars.card + 2) ≤ n - 1 := by
  classical
  have : NeZero n := ⟨by omega⟩
  have : Fact (2 < n) := ⟨large⟩
  have : Fact (1 < n) := ⟨by omega⟩
  obtain ⟨H, proper, inside⟩ := exists_proper_subgroup composite (by omega) odd split dOdd
  have oneInside : (1 : (ZMod n)ˣ) ∈ H := H.one_mem
  have minusInside : (-1 : (ZMod n)ˣ) ∈ H :=
    inside _ (.inr ⟨0, rPositive, by rw [pow_zero, mul_one, dOdd.neg_one_pow]⟩)
  have distinct : (-1 : (ZMod n)ˣ) ≠ 1 := by
    intro same
    exact ZMod.neg_one_ne_one (congrArg Units.val same)
  let units : Finset (ZMod n)ˣ := Finset.univ.filter (· ∈ H)
  have cardUnits : units.card = Nat.card H := by
    rw [Nat.card_eq_fintype_card]
    exact (Fintype.card_subtype _).symm
  have covered : liars ⊆ ((units.erase 1).erase (-1)).image
      fun u : (ZMod n)ˣ => (u : ZMod n).val := by
    intro a member
    obtain ⟨aLarge, aSmall, u, value, liar⟩ := lies a member
    have valEq : (u : ZMod n).val = a := by rw [value, ZMod.val_natCast, Nat.mod_eq_of_lt (by omega)]
    refine Finset.mem_image.mpr ⟨u, ?_, valEq⟩
    refine Finset.mem_erase.mpr ⟨?_, Finset.mem_erase.mpr ⟨?_, by simp [units, inside u liar]⟩⟩
    · rintro rfl
      rw [Units.val_neg, Units.val_one, ZMod.neg_val, if_neg one_ne_zero, ZMod.val_one] at valEq
      omega
    · rintro rfl
      rw [Units.val_one, ZMod.val_one] at valEq
      omega
  have few : liars.card + 2 ≤ Nat.card H := by
    have upper := (Finset.card_le_card covered).trans Finset.card_image_le
    have oneMember : (1 : (ZMod n)ˣ) ∈ units := by simp [units, oneInside]
    have minusMember : (-1 : (ZMod n)ˣ) ∈ units.erase 1 :=
      Finset.mem_erase.mpr ⟨distinct, by simp [units, minusInside]⟩
    have withoutOne := Finset.card_erase_lt_of_mem oneMember
    have withoutBoth := Finset.card_erase_lt_of_mem minusMember
    omega
  have half := two_mul_card_le proper
  rw [Nat.card_eq_fintype_card (α := (ZMod n)ˣ), ZMod.card_units_eq_totient] at half
  have totient := Nat.totient_lt n (by omega)
  omega

end Excalibur.Library
