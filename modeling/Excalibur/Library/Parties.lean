import Mathlib

/-! # Properties of the parties in a list

A state that is made of parties keeps them in a list, each at its position for good.  A
step changes one of them or adds one.  What every party satisfies, by its position, is then
shown for that one party, and for the others it is what it was; and a count of parties moves
by that one.
-/

namespace Excalibur.Library

variable {α : Type*} {parties : List α} {k : Nat} {f : α → α} {motive : Nat → α → Prop}

theorem forall_modify :
    (∀ j party, (parties.modify k f)[j]? = some party → motive j party) ↔
      (∀ party, parties[k]? = some party → motive k (f party)) ∧
      ∀ j party, j ≠ k → parties[j]? = some party → motive j party := by
  constructor
  · intro all
    refine ⟨?_, ?_⟩
    · intro party found
      apply all k
      rw [List.getElem?_modify_eq, found]
      rfl
    · intro j party other found
      apply all j
      rw [List.getElem?_modify_ne f parties other.symm]
      exact found
  · rintro ⟨own, others⟩ j party found
    by_cases same : k = j
    · subst same
      rw [List.getElem?_modify_eq, Option.map_eq_map] at found
      obtain ⟨before, was, rfl⟩ := Option.map_eq_some_iff.mp found
      exact own before was
    · rw [List.getElem?_modify_ne f parties same] at found
      exact others j party (Ne.symm same) found

theorem countP_modify_add {p : α → Bool} {party : α} (found : parties[k]? = some party) :
    (parties.modify k f).countP p + (if p party then 1 else 0) =
      parties.countP p + if p (f party) then 1 else 0 := by
  induction parties generalizing k with
  | nil => simp at found
  | cons first parties ih =>
    cases k with
    | zero =>
      obtain rfl : first = party := by simpa using found
      simp only [List.modify_zero_cons, List.countP_cons]
      omega
    | succ k =>
      have rest := ih (by simpa using found)
      simp only [List.modify_succ_cons, List.countP_cons]
      omega

theorem countP_modify_same {p : α → Bool} (same : ∀ party, p (f party) = p party) :
    (parties.modify k f).countP p = parties.countP p := by
  induction parties generalizing k with
  | nil => simp
  | cons first parties ih =>
    cases k with
    | zero => simp [List.countP_cons, same]
    | succ k => simp [List.countP_cons, ih]

/-- The party that joins takes the next position. -/
theorem forall_concat {joins : α} :
    (∀ j party, (parties ++ [joins])[j]? = some party → motive j party) ↔
      (∀ j party, parties[j]? = some party → motive j party) ∧ motive parties.length joins := by
  constructor
  · intro all
    refine ⟨?_, ?_⟩
    · intro j party found
      apply all j
      obtain ⟨inside, -⟩ := List.getElem?_eq_some_iff.mp found
      rw [List.getElem?_append_left inside]
      exact found
    · apply all
      simp
  · rintro ⟨before, last⟩ j party found
    rcases lt_or_ge j parties.length with inside | beyond
    · rw [List.getElem?_append_left inside] at found
      exact before j party found
    · rw [List.getElem?_append_right beyond] at found
      obtain ⟨inside, _⟩ := List.getElem?_eq_some_iff.mp found
      obtain rfl : j = parties.length := by
        simp only [List.length_singleton] at inside
        omega
      simp only [Nat.sub_self, List.getElem?_cons_zero, Option.some.injEq] at found
      subst found
      exact last

end Excalibur.Library
