import Mathlib

/-! # Taking turns

An index that moves one place further round a circle of `size` places at each turn,
from wherever it stands, perhaps outside the circle.  `count_turns` counts the turns of
one place in closed form; `count_turns_le` is the fairness that follows: over any
number of turns no two places differ by more than one.
-/

namespace Excalibur.Library

/-- The places of the next turns. -/
def turns (size : Int) : Int → Nat → List Int
  | _, 0 => []
  | index, count + 1 => (index + 1) % size :: turns size ((index + 1) % size) count

@[simp] theorem turns_zero (size index : Int) : turns size index 0 = [] := rfl

theorem turns_succ (size index : Int) (count : Nat) :
    turns size index (count + 1) = (index + 1) % size :: turns size ((index + 1) % size) count :=
  rfl

variable {size : Int}

theorem mem_turns (positive : 0 < size) {index place : Int} {count : Nat}
    (member : place ∈ turns size index count) : 0 ≤ place ∧ place < size := by
  induction count generalizing index with
  | zero => simp at member
  | succ count ih =>
    rw [turns_succ] at member
    rcases List.mem_cons.mp member with rfl | later
    · exact ⟨Int.emod_nonneg _ positive.ne', Int.emod_lt_of_pos _ positive⟩
    · exact ih later

/-- One step further crosses a multiple of `size` exactly when it lands on one. -/
theorem add_one_ediv (positive : 0 < size) (a : Int) :
    (a + 1) / size = a / size + if (a + 1) % size = 0 then 1 else 0 := by
  have whole := Int.mul_ediv_add_emod (a + 1) size
  have upper := Int.emod_lt_of_pos (a + 1) positive
  have lower := Int.emod_nonneg (a + 1) positive.ne'
  split
  · rename_i lands
    have back : a / size = (a + 1) / size - 1 := by
      refine Int.ediv_eq_iff_of_pos positive |>.mpr ⟨?_, ?_⟩
      · linarith
      · linarith
    omega
  · rename_i misses
    have same : a / size = (a + 1) / size := by
      refine Int.ediv_eq_iff_of_pos positive |>.mpr ⟨?_, ?_⟩
      · have above : 1 ≤ (a + 1) % size := by omega
        linarith
      · linarith
    omega

/-- Counting the turns of one place: the multiples of `size` that the index passes,
    seen from that place. -/
theorem count_turns (positive : 0 < size) {place : Int} (lower : 0 ≤ place) (upper : place < size)
    (index : Int) (count : Nat) :
    ((turns size index count).count place : Int) =
      (index - place + count) / size - (index - place) / size := by
  induction count generalizing index with
  | zero => simp
  | succ count ih =>
    rw [turns_succ, List.count_cons, Nat.cast_add, ih]
    have step := add_one_ediv positive (index - place)
    have lands : (index - place + 1) % size = 0 ↔ (index + 1) % size = place := by
      have shift : index - place + 1 = index + 1 - place := by ring
      rw [shift, ← Int.emod_eq_emod_iff_emod_sub_eq_zero, Int.emod_eq_of_lt lower upper]
    -- the index is brought back into the circle by a multiple of `size`
    have whole := Int.emod_add_mul_ediv (index + 1) size
    have wrap : (index + 1) % size - place =
        index - place + 1 + size * -((index + 1) / size) := by linarith
    have far : index - place + 1 + size * -((index + 1) / size) + (count : Int) =
        index - place + (count + 1 : Nat) + size * -((index + 1) / size) := by
      push_cast
      ring
    rw [wrap, far, Int.add_mul_ediv_left _ _ positive.ne', Int.add_mul_ediv_left _ _ positive.ne',
      step]
    by_cases here : (index + 1) % size = place
    · simp only [lands.mpr here, here, if_true, beq_self_eq_true]
      push_cast
      ring
    · have elsewhere : ¬ (index - place + 1) % size = 0 := fun zero => here (lands.mp zero)
      simp only [elsewhere, if_false, beq_iff_eq, here]
      push_cast
      ring

/-- Between the whole rounds and one more. -/
theorem count_turns_bounds (positive : 0 < size) {place : Int} (lower : 0 ≤ place)
    (upper : place < size) (index : Int) (count : Nat) :
    (count : Int) / size ≤ (turns size index count).count place ∧
      ((turns size index count).count place : Int) ≤ count / size + 1 := by
  rw [count_turns positive lower upper]
  have whole := Int.emod_add_mul_ediv (count : Int) size
  have rest := Int.emod_lt_of_pos (count : Int) positive
  have restNonneg := Int.emod_nonneg (count : Int) positive.ne'
  have rounds : index - place + (count : Int) =
      index - place + count % size + size * (count / size) := by linarith
  rw [rounds, Int.add_mul_ediv_left _ _ positive.ne']
  have atLeast : (index - place) / size ≤ (index - place + count % size) / size :=
    Int.ediv_le_ediv positive (by linarith)
  have atMost : (index - place + count % size) / size ≤ (index - place + size * 1) / size :=
    Int.ediv_le_ediv positive (by linarith)
  rw [Int.add_mul_ediv_left _ _ positive.ne'] at atMost
  constructor <;> linarith

theorem count_turns_le (positive : 0 < size) {first second : Int}
    (firstIn : 0 ≤ first ∧ first < size) (secondIn : 0 ≤ second ∧ second < size)
    (index : Int) (count : Nat) :
    (turns size index count).count first ≤ (turns size index count).count second + 1 := by
  have most := (count_turns_bounds positive firstIn.1 firstIn.2 index count).2
  have least := (count_turns_bounds positive secondIn.1 secondIn.2 index count).1
  omega

end Excalibur.Library
