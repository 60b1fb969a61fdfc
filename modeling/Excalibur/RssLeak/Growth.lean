import Excalibur.RssLeak.Classify

/-! # A process that grows

The slope fitted to a half lies between the least and the greatest slope from sample to
sample in it.  Where the slopes do not decrease, the one across the middle is above all of
the first half and below all of the second, so the second fit is at least as steep as the
first, and steeper than three tenths of it.
-/

namespace Excalibur.RssLeak

open Excalibur.Library Excalibur.Python

/-- Growth that never slows down. -/
structure Accelerating (points : List (ℚ × ℚ)) : Prop where
  increasing : points.Pairwise fun p q => p.1 < q.1
  positive : ∀ slope ∈ successiveSlopes points, 0 < slope
  nondecreasing : (successiveSlopes points).Pairwise (· ≤ ·)

/-- Around any place in the middle: the slope across it bounds the fits on both sides. -/
theorem Accelerating.between {before after : List (ℚ × ℚ)} {p q : ℚ × ℚ}
    (grows : Accelerating (before ++ p :: q :: after)) (more : after ≠ []) :
    ∃ slope, 0 < slope ∧ fittedSlope (before ++ [p]) ≤ slope ∧ slope ≤ fittedSlope (q :: after) := by
  obtain ⟨increasing, positive, nondecreasing⟩ := grows
  rw [successiveSlopes_append] at positive nondecreasing
  obtain ⟨-, later, ordered⟩ := List.pairwise_append.mp nondecreasing
  have across := positive _ (List.mem_append_right _ List.mem_cons_self)
  have whole : before ++ p :: q :: after = (before ++ [p]) ++ (q :: after) := by simp
  rw [whole] at increasing
  obtain ⟨first, second, -⟩ := List.pairwise_append.mp increasing
  refine ⟨_, across, ?_, ?_⟩
  · refine fittedSlope_le across.le (chords_le first ?_)
    intro slope member
    exact ordered slope member _ List.mem_cons_self
  · obtain ⟨r, after, rfl⟩ := List.exists_cons_of_ne_nil more
    have apart : q.1 ≠ r.1 := ((List.pairwise_cons.mp second).1 r List.mem_cons_self).ne
    refine le_fittedSlope (variation_pos List.mem_cons_self (by simp) apart) (le_chords second ?_)
    exact (List.pairwise_cons.mp later).1

theorem Accelerating.halves {points : List (ℚ × ℚ)} (grows : Accelerating points)
    (enough : 3 ≤ points.length) :
    ∃ slope, 0 < slope ∧ fittedSlope (firstHalf points) ≤ slope ∧
      slope ≤ fittedSlope (secondHalf points) := by
  have firstSize : 0 < (points.take (points.length / 2)).length := by
    rw [List.length_take]
    omega
  have secondSize : 2 ≤ (points.drop (points.length / 2)).length := by
    rw [List.length_drop]
    omega
  obtain ⟨before, p, firstEq⟩ : ∃ before p, points.take (points.length / 2) = before ++ [p] :=
    (List.eq_nil_or_concat' _).resolve_left (List.ne_nil_of_length_pos firstSize)
  obtain ⟨q, r, after, secondEq⟩ : ∃ q r after, points.drop (points.length / 2) = q :: r :: after := by
    match points.drop (points.length / 2), secondSize with
    | q :: r :: after, _ => exact ⟨q, r, after, rfl⟩
  -- The first half ends in one point, and the second starts with two others.
  have split : points = before ++ p :: q :: r :: after := by
    rw [← List.take_append_drop (points.length / 2) points, firstEq, secondEq]
    simp
  have first : firstHalf points = before ++ [p] := by
    rw [firstHalf, firstEq]
    cases before <;> rfl
  have second : secondHalf points = q :: r :: after := by
    rw [secondHalf, secondEq]
    rfl
  rw [first, second]
  rw [split] at grows
  exact grows.between (List.cons_ne_nil r after)

theorem verdictOf_eq_leak {rng slopeFirst slopeSecond : ℚ} :
    verdictOf rng slopeFirst slopeSecond = .leak ↔
      1 ≤ rng ∧ slopeFirst * (3 / 10) < slopeSecond := by
  unfold verdictOf
  by_cases flat : rng < 1
  · simp [flat]
  · by_cases levels : slopeSecond ≤ slopeFirst * (3 / 10)
    · simp [flat, levels]
    · simp [flat, levels, not_lt.mp flat, not_le.mp levels]

/-- Growth by a megabyte at least that never slows down is reported. -/
theorem sustained_growth_reported (timesS rssMb : List ℚ) (paired : timesS.length = rssMb.length)
    (enough : 3 ≤ timesS.length) (increasing : timesS.Pairwise (· < ·))
    (positive : ∀ slope ∈ successiveSlopes (timesS.zip rssMb), 0 < slope)
    (nondecreasing : (successiveSlopes (timesS.zip rssMb)).Pairwise (· ≤ ·))
    (wide : ∃ y ∈ rssMb, ∃ z ∈ rssMb, 1 ≤ y - z) :
    ∃ found, classify timesS rssMb = .ok found ∧ found.verdict = .leak := by
  have nonempty : timesS ≠ [] := List.ne_nil_of_length_pos (by omega)
  obtain ⟨places, -, -⟩ := zip_spec paired nonempty
  have size : (timesS.zip rssMb).length = timesS.length := by
    rw [← List.length_map Prod.fst, places]
  have grows : Accelerating (timesS.zip rssMb) := by
    refine ⟨?_, positive, nondecreasing⟩
    rwa [← places, List.pairwise_map] at increasing
  obtain ⟨slope, above, first, second⟩ := grows.halves (size ▸ enough)
  obtain ⟨highest, -, lowest, -, between, returned⟩ := classify_eq paired nonempty
  refine ⟨_, returned, verdictOf_eq_leak.mpr ⟨?_, by linarith⟩⟩
  -- the range covers the two samples that are far apart
  obtain ⟨y, isY, z, isZ, apart⟩ := wide
  have top := (between y isY).2
  have bottom := (between z isZ).1
  linarith

/-- Three samples; the first half is a single one, which has no slope. -/
theorem three_growing_reported :
    ∃ found, classify [0, 1, 3] [100, 101, 105] = .ok found ∧ found.verdict = .leak :=
  sustained_growth_reported [0, 1, 3] [100, 101, 105] rfl (by decide) (by decide +kernel)
    (by decide +kernel) (by decide +kernel) ⟨105, by decide, 100, by decide, by decide +kernel⟩

end Excalibur.RssLeak
