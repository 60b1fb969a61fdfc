import Mathlib

/-! # Aligned blocks of a power of two

The block of `2 ^ k` numbers around `a` starts at a multiple of `2 ^ k`.  Masking the
low `k` bits of a number away finds the start of its block, and setting them finds the
end.  A cursor that is aligned stays aligned when it moves on by a block of that size,
and does not pass an aligned bound that lies ahead.
-/

namespace Excalibur.Library

def blockStart (k a : Nat) : Nat := a / 2 ^ k * 2 ^ k

/-- The last number of the block. -/
def blockEnd (k a : Nat) : Nat := blockStart k a + (2 ^ k - 1)

section Blocks

variable {k a x w : Nat}

theorem dvd_blockStart (k a : Nat) : 2 ^ k ∣ blockStart k a := Nat.dvd_mul_left _ _

theorem blockStart_le (k a : Nat) : blockStart k a ≤ a := Nat.div_mul_le_self _ _

theorem blockEnd_add_one (k a : Nat) : blockEnd k a + 1 = blockStart k a + 2 ^ k := by
  have positive := Nat.two_pow_pos k
  simp only [blockEnd]
  omega

theorem dvd_blockEnd_add_one (k a : Nat) : 2 ^ k ∣ blockEnd k a + 1 := by
  rw [blockEnd_add_one]
  exact (dvd_blockStart k a).add (Nat.dvd_refl _)

theorem le_blockEnd (k a : Nat) : a ≤ blockEnd k a := by
  have split := Nat.div_add_mod' a (2 ^ k)
  have small := Nat.mod_lt a (Nat.two_pow_pos k)
  simp only [blockEnd, blockStart]
  omega

theorem blockStart_of_dvd (aligned : 2 ^ k ∣ a) : blockStart k a = a :=
  Nat.div_mul_cancel aligned

/-- Masking away the low bits keeps exactly the numbers of one block together. -/
theorem mem_block_iff : blockStart k a ≤ x ∧ x ≤ blockEnd k a ↔ x / 2 ^ k = a / 2 ^ k := by
  have positive := Nat.two_pow_pos k
  rw [Nat.div_eq_iff positive]
  simp only [blockStart, blockEnd]
  omega

theorem blockStart_eq_iff : blockStart k x = blockStart k a ↔ x / 2 ^ k = a / 2 ^ k :=
  Nat.mul_left_inj (Nat.two_pow_pos k).ne'

theorem blockEnd_lt (inside : a < 2 ^ w) (narrow : k ≤ w) : blockEnd k a < 2 ^ w := by
  have before : a / 2 ^ k < 2 ^ w / 2 ^ k := by
    rw [Nat.pow_div narrow (by decide)]
    exact Nat.div_lt_of_lt_mul (by rwa [← pow_add, Nat.add_sub_cancel' narrow])
  have bound : (a / 2 ^ k + 1) * 2 ^ k ≤ 2 ^ w :=
    le_trans (Nat.mul_le_mul_right _ before) (Nat.div_mul_le_self _ _)
  have positive := Nat.two_pow_pos k
  rw [Nat.add_one_mul] at bound
  simp only [blockEnd, blockStart]
  omega

/-! ## Masks -/

theorem testBit_mask (narrow : k ≤ w) (i : Nat) :
    (2 ^ w - 2 ^ k).testBit i = (decide (k ≤ i) && decide (i < w)) := by
  have shifted : 2 ^ w - 2 ^ k = (2 ^ (w - k) - 1) <<< k := by
    rw [Nat.shiftLeft_eq, Nat.sub_mul, ← pow_add, Nat.sub_add_cancel narrow, Nat.one_mul]
  rw [shifted, Nat.testBit_shiftLeft, Nat.testBit_two_pow_sub_one]
  by_cases low : k ≤ i
  · simp only [low, decide_true, Bool.true_and, decide_eq_decide]
    omega
  · simp [low]

theorem and_mask (narrow : k ≤ w) (inside : a < 2 ^ w) :
    a &&& (2 ^ w - 2 ^ k) = blockStart k a := by
  apply Nat.eq_of_testBit_eq
  intro i
  rw [Nat.testBit_and, testBit_mask narrow, blockStart, ← Nat.shiftRight_eq_div_pow,
    ← Nat.shiftLeft_eq, Nat.testBit_shiftLeft, Nat.testBit_shiftRight]
  by_cases low : k ≤ i
  · by_cases high : i < w
    · simp [low, high]
    · have clear : a.testBit i = false :=
        Nat.testBit_lt_two_pow (inside.trans_le (Nat.pow_le_pow_right (by decide) (by omega)))
      simp [low, high, clear]
  · simp [low]

/-- What a mask clears below `2 ^ w` are the low bits. -/
theorem ldiff_mask (narrow : k ≤ w) : Nat.ldiff (2 ^ w - 1) (2 ^ w - 2 ^ k) = 2 ^ k - 1 := by
  apply Nat.eq_of_testBit_eq
  intro i
  rw [Nat.testBit_ldiff, testBit_mask narrow, Nat.testBit_two_pow_sub_one,
    Nat.testBit_two_pow_sub_one]
  by_cases low : i < k
  · simp [low, not_le.mpr low, low.trans_le narrow]
  · by_cases high : i < w
    · simp [low, not_lt.mp low, high]
    · simp [low, high]

theorem or_low_bits (k a : Nat) : blockStart k a ||| (2 ^ k - 1) = blockEnd k a := by
  rw [blockEnd, blockStart, Nat.mul_comm,
    Nat.two_pow_add_eq_or_of_lt (Nat.sub_lt (Nat.two_pow_pos k) (by decide))]

end Blocks

/-! ## Cursors -/

theorem add_le_of_dvd {size cursor bound : Nat} (aligned : size ∣ cursor)
    (boundAligned : size ∣ bound) (ahead : cursor < bound) : cursor + size ≤ bound := by
  obtain ⟨i, rfl⟩ := aligned
  obtain ⟨j, rfl⟩ := boundAligned
  rw [← Nat.mul_add_one]
  exact Nat.mul_le_mul_left _ (lt_of_mul_lt_mul_left' ahead)

/-! ## Equal parts -/

/-- Parts of one size laid end to end hold the numbers from the first to the last. -/
theorem exists_part_iff {size start count a : Nat} (positive : 0 < size) :
    (∃ i < count, start + i * size ≤ a ∧ a < start + i * size + size) ↔
      start ≤ a ∧ a < start + count * size := by
  constructor
  · rintro ⟨i, inside, lower, upper⟩
    have ends : (i + 1) * size ≤ count * size := Nat.mul_le_mul_right _ inside
    rw [Nat.add_one_mul] at ends
    omega
  · rintro ⟨lower, upper⟩
    have split := Nat.div_add_mod' (a - start) size
    have small := Nat.mod_lt (a - start) positive
    refine ⟨(a - start) / size, ?_, by omega, by omega⟩
    exact (Nat.div_lt_iff_lt_mul positive).mpr (by omega)

/-! ## Counting -/

/-- Pairwise disjoint parts of a set have at most its size together. -/
theorem sum_card_le {α : Type*} [DecidableEq α] {parts : List (Finset α)} {whole : Finset α}
    (disjoint : parts.Pairwise Disjoint) (inside : ∀ part ∈ parts, part ⊆ whole) :
    (parts.map Finset.card).sum ≤ whole.card := by
  induction parts generalizing whole with
  | nil => simp
  | cons part parts ih =>
    obtain ⟨apart, disjoint⟩ := List.pairwise_cons.mp disjoint
    have others : ∀ other ∈ parts, other ⊆ whole \ part := by
      intro other member
      rw [Finset.subset_sdiff]
      exact ⟨inside other (List.mem_cons_of_mem _ member), (apart other member).symm⟩
    have rest := ih disjoint others
    have first := inside part List.mem_cons_self
    rw [Finset.card_sdiff_of_subset first] at rest
    have fits := Finset.card_le_card first
    rw [List.map_cons, List.sum_cons]
    omega

end Excalibur.Library
