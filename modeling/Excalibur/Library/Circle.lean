import Excalibur.Library.SortedList

/-! # Points on a circle

A linear order closed up to a circle: from `start` one walks upwards to the top and
goes on from the bottom, so that `start` itself is met last.  `Nearest` is the first
point of a set on that walk.  It depends on the set only: taking other points away
leaves it, and adding points keeps it or puts a new point in its place.
`SortedList.clockwise` finds it by bisection.
-/

namespace Excalibur.Library

variable {α : Type*} [LinearOrder α]

/-- On the walk from `start`, `p` is met no later than `q`. -/
def NoLater (start p q : α) : Prop :=
  toLex (decide (p ≤ start), p) ≤ toLex (decide (q ≤ start), q)

instance (start p q : α) : Decidable (NoLater start p q) :=
  inferInstanceAs (Decidable (_ ≤ _))

theorem noLater_of_passed {start p q : α} (ahead : start < p) (passed : q ≤ start) :
    NoLater start p q := by
  refine Prod.Lex.toLex_le_toLex.mpr (.inl ?_)
  simp [passed, not_le.mpr ahead]

theorem noLater_of_le {start p q : α} (side : p ≤ start ↔ q ≤ start) (ordered : p ≤ q) :
    NoLater start p q :=
  Prod.Lex.toLex_le_toLex.mpr (.inr ⟨by simp [side], ordered⟩)

theorem NoLater.antisymm {start p q : α} (left : NoLater start p q) (right : NoLater start q p) :
    p = q :=
  (Prod.ext_iff.mp (toLex.injective (le_antisymm left right))).2

structure Nearest (start : α) (points : Set α) (p : α) : Prop where
  member : p ∈ points
  first : ∀ q ∈ points, NoLater start p q

namespace Nearest

variable {start p q : α} {points more : Set α}

theorem unique (left : Nearest start points p) (right : Nearest start points q) : p = q :=
  (left.first q right.member).antisymm (right.first p left.member)

theorem of_subset (nearest : Nearest start points p) (smaller : more ⊆ points) (kept : p ∈ more) :
    Nearest start more p :=
  ⟨kept, fun q member => nearest.first q (smaller member)⟩

theorem eq_or_mem (before : Nearest start points p) (after : Nearest start (points ∪ more) q) :
    q = p ∨ q ∈ more := by
  cases after.member with
  | inl old => exact .inl ((after.of_subset Set.subset_union_left old).unique before)
  | inr new => exact .inr new

end Nearest

/-! ## At or after the start

Another reading of "the first point": `start` itself is met first. -/

inductive AtOrAfter (start : α) (points : Set α) (p : α) : Prop where
  | ahead (member : p ∈ points) (notBelow : start ≤ p) (least : ∀ q ∈ points, start ≤ q → p ≤ q)
  | wrapped (member : p ∈ points) (allBelow : ∀ q ∈ points, q < start)
      (least : ∀ q ∈ points, p ≤ q)

section AtOrAfter

variable {start p q : α} {points : Set α}

theorem AtOrAfter.unique (left : AtOrAfter start points p) (right : AtOrAfter start points q) :
    p = q := by
  cases left with
  | ahead member notBelow least =>
    cases right with
    | ahead member' notBelow' least' =>
      exact le_antisymm (least q member' notBelow') (least' p member notBelow)
    | wrapped _ allBelow _ => exact absurd (allBelow p member) (not_lt.mpr notBelow)
  | wrapped member allBelow least =>
    cases right with
    | ahead member' notBelow' _ => exact absurd (allBelow q member') (not_lt.mpr notBelow')
    | wrapped member' _ least' => exact le_antisymm (least q member') (least' p member)

theorem atOrAfter_self (member : start ∈ points) : AtOrAfter start points start :=
  .ahead member le_rfl fun _ _ notBelow => notBelow

/-- The two readings differ only where `start` is one of the points. -/
theorem Nearest.atOrAfter (nearest : Nearest start points p) (absent : start ∉ points) :
    AtOrAfter start points p := by
  have apart : ∀ q ∈ points, q ≠ start := fun q member same => absent (same ▸ member)
  by_cases behind : p ≤ start
  · -- The walk has come round, so every point is behind `start`.
    have passed : ∀ q ∈ points, q ≤ start ∧ p ≤ q := by
      intro q member
      have noLater := Prod.Lex.toLex_le_toLex.mp (nearest.first q member)
      simp only [behind, decide_true] at noLater
      rcases noLater with impossible | ⟨both, ordered⟩
      · exact absurd impossible (not_lt.mpr (Bool.le_true _))
      · exact ⟨of_decide_eq_true both.symm, ordered⟩
    refine .wrapped nearest.member ?_ fun q member => (passed q member).2
    intro q member
    exact lt_of_le_of_ne (passed q member).1 (apart q member)
  · refine .ahead nearest.member (le_of_not_ge behind) ?_
    intro q member notBelow
    have ahead : ¬ q ≤ start := fun passed => apart q member (le_antisymm passed notBelow)
    have noLater := Prod.Lex.toLex_le_toLex.mp (nearest.first q member)
    simpa [behind, ahead] using noLater

end AtOrAfter

namespace SortedList

/-- The entry behind the right insertion point, or the first one behind the end. -/
def clockwise (items : SortedList α) (start : α) : Option α :=
  items.toList[if items.bisectRight start = items.toList.length then 0
    else items.bisectRight start]?

theorem clockwise_empty {items : SortedList α} (empty : items.toList = []) (start : α) :
    items.clockwise start = none := by
  simp [clockwise, empty]

theorem clockwise_nearest {items : SortedList α} (nonempty : items.toList ≠ []) (start : α) :
    ∃ p, items.clockwise start = some p ∧ Nearest start {q | q ∈ items} p := by
  have positive := List.length_pos_iff.mpr nonempty
  have inside := items.bisectRight_le_length start
  have boundary := items.bisectRight_boundary start
  have ordered := List.pairwise_iff_getElem.mp items.sorted
  by_cases wraps : items.bisectRight start = items.toList.length
  · -- Nothing lies ahead, so the walk goes on from the bottom of the list.
    have passed : ∀ i (bound : i < items.toList.length), items.toList[i] ≤ start := by
      intro i bound
      simpa using boundary.before i bound (by omega)
    refine ⟨items.toList[0], ?_, List.getElem_mem positive, ?_⟩
    · rw [clockwise, if_pos wraps, List.getElem?_eq_getElem]
    · intro q member
      obtain ⟨i, bound, rfl⟩ := List.mem_iff_getElem.mp member
      apply noLater_of_le (iff_of_true (passed 0 positive) (passed i bound))
      cases Nat.eq_zero_or_pos i with
      | inl first => simp [first]
      | inr later => exact ordered 0 i positive bound later
  · have bound : items.bisectRight start < items.toList.length := by omega
    -- From the boundary on every point lies ahead, and the first of them comes first.
    have ahead : ∀ i (bound : i < items.toList.length), items.bisectRight start ≤ i →
        start < items.toList[i] := by
      intro i bound behind
      simpa using boundary.after i bound behind
    refine ⟨items.toList[items.bisectRight start], ?_, List.getElem_mem bound, ?_⟩
    · rw [clockwise, if_neg wraps, List.getElem?_eq_getElem]
    · intro q member
      obtain ⟨i, inList, rfl⟩ := List.mem_iff_getElem.mp member
      have first := ahead _ bound le_rfl
      rcases Nat.lt_trichotomy i (items.bisectRight start) with before | same | behind
      · exact noLater_of_passed first (by simpa using boundary.before i inList before)
      · simp only [same]
        exact noLater_of_le .rfl le_rfl
      · apply noLater_of_le (iff_of_false (not_le.mpr first)
          (not_le.mpr (ahead i inList behind.le)))
        exact ordered _ i bound inList behind

end SortedList

end Excalibur.Library
