import Excalibur.RssLeak.Classify

/-! # Units and the baseline

Times in another unit and from another origin divide both slopes by the same number, and
a constant on top of the samples changes neither slope nor range.  Where a half does not
spread at all its slope is 0 in every unit, whatever stands in for the denominator.
-/

namespace Excalibur.RssLeak

open Excalibur.Library Excalibur.Python

def rescaled (a b c : ℚ) (points : List (ℚ × ℚ)) : List (ℚ × ℚ) :=
  points.map fun p => (a * p.1 + b, p.2 + c)

theorem firstHalf_rescaled (a b c : ℚ) (points : List (ℚ × ℚ)) :
    firstHalf (rescaled a b c points) = rescaled a b c (firstHalf points) := by
  rw [firstHalf, rescaled, List.length_map, ← List.map_take, orWhole_map]
  rfl

theorem secondHalf_rescaled (a b c : ℚ) (points : List (ℚ × ℚ)) :
    secondHalf (rescaled a b c points) = rescaled a b c (secondHalf points) := by
  rw [secondHalf, rescaled, List.length_map, ← List.map_drop, orWhole_map]
  rfl

theorem range_shifted {values : List ℚ} {highest lowest highest' lowest' c : ℚ}
    (isHigh : highest ∈ values) (isLow : lowest ∈ values)
    (between : ∀ value ∈ values, lowest ≤ value ∧ value ≤ highest)
    (isHigh' : highest' ∈ values.map (· + c)) (isLow' : lowest' ∈ values.map (· + c))
    (between' : ∀ value ∈ values.map (· + c), lowest' ≤ value ∧ value ≤ highest') :
    highest' - lowest' = highest - lowest := by
  obtain ⟨top, topListed, rfl⟩ := List.mem_map.mp isHigh'
  obtain ⟨bottom, bottomListed, rfl⟩ := List.mem_map.mp isLow'
  have sameTop : top = highest := by
    have raised := (between' _ (List.mem_map_of_mem isHigh)).2
    exact le_antisymm (between top topListed).2 (by linarith)
  have sameBottom : bottom = lowest := by
    have raised := (between' _ (List.mem_map_of_mem isLow)).1
    exact le_antisymm (by linarith) (between bottom bottomListed).1
  rw [sameTop, sameBottom]
  ring

theorem verdictOf_div (rng slopeFirst slopeSecond : ℚ) {a : ℚ} (positive : 0 < a) :
    verdictOf rng (slopeFirst / a) (slopeSecond / a) = verdictOf rng slopeFirst slopeSecond := by
  have compared : slopeSecond / a ≤ slopeFirst / a * (3 / 10) ↔
      slopeSecond ≤ slopeFirst * (3 / 10) := by
    rw [div_mul_eq_mul_div, div_le_div_iff_of_pos_right positive]
  simp only [verdictOf, compared]

/-- The same verdict in every unit of time and above every baseline. -/
theorem verdict_independent_of_units (timesS rssMb : List ℚ)
    (paired : timesS.length = rssMb.length) (nonempty : timesS ≠ []) (a b c : ℚ)
    (positive : 0 < a) :
    ∃ found other, classify timesS rssMb = .ok found ∧
      classify (timesS.map fun t => a * t + b) (rssMb.map fun y => y + c) = .ok other ∧
      other.verdict = found.verdict ∧ other.rangeMb = found.rangeMb ∧
      other.mbPerMin = found.mbPerMin / a ∧
      other.slopeFirstHalf = found.slopeFirstHalf / a ∧
      other.slopeSecondHalf = found.slopeSecondHalf / a := by
  have slope : ∀ points, fittedSlope (rescaled a b c points) = fittedSlope points / a :=
    fun points => fittedSlope_map positive.ne' points b c
  have pairedAfter : (timesS.map fun t => a * t + b).length = (rssMb.map fun y => y + c).length := by
    rw [List.length_map, List.length_map, paired]
  obtain ⟨highest, isHigh, lowest, isLow, between, returned⟩ := classify_eq paired nonempty
  obtain ⟨highest', isHigh', lowest', isLow', between', returned'⟩ :=
    classify_eq pairedAfter (mt List.map_eq_nil_iff.mp nonempty)
  -- The baseline shifts the highest and the lowest value alike.
  have sameRange := range_shifted isHigh isLow between isHigh' isLow' between'
  -- The pairs are those of before on another scale, which divides every slope by `a`.
  have points : (timesS.map fun t => a * t + b).zip (rssMb.map fun y => y + c) =
      rescaled a b c (timesS.zip rssMb) := List.zip_map ..
  rw [points, sameRange] at returned'
  refine ⟨_, _, returned, returned', ?_, rfl, ?_, ?_, ?_⟩
  all_goals simp only [fittedClassification, firstHalf_rescaled, secondHalf_rescaled, slope]
  · exact verdictOf_div _ _ _ positive
  · exact div_mul_eq_mul_div ..
  · exact div_mul_eq_mul_div ..
  · exact div_mul_eq_mul_div ..

/-- Two samples at the same time, in minutes instead of seconds. -/
theorem standing_still_in_minutes :
    ∃ found other, classify [3, 3] [100, 250] = .ok found ∧
      classify ([3, 3].map fun t => 1 / 60 * t + 7) ([100, 250].map fun y => y + 50) = .ok other ∧
      other.verdict = found.verdict ∧ other.rangeMb = found.rangeMb ∧
      other.mbPerMin = found.mbPerMin / (1 / 60) ∧
      other.slopeFirstHalf = found.slopeFirstHalf / (1 / 60) ∧
      other.slopeSecondHalf = found.slopeSecondHalf / (1 / 60) :=
  verdict_independent_of_units [3, 3] [100, 250] rfl (by decide) (1 / 60) 7 50 (by norm_num)

end Excalibur.RssLeak
