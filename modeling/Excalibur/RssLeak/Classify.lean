import Excalibur.Library.LeastSquares
import Excalibur.Python.Basic

/-! # The RSS trend

`linfit` and `classify` of the leak detector, over the rationals.  `classify_eq` says
what the verdict rests on for samples that come in pairs: the range, and the least-squares
slopes of the two halves, a half without samples standing for all of them.
-/

namespace Excalibur.RssLeak

open Excalibur.Library Excalibur.Python

def linfit (xs ys : List ℚ) : Except PyError (ℚ × ℚ) :=
  if xs = [] then .error .zeroDivisionError
  else
    let n := xs.length
    let mx := xs.sum / n
    let my := ys.sum / n
    let num := ((xs.zip ys).map fun p => (p.1 - mx) * (p.2 - my)).sum
    let total := (xs.map fun x => (x - mx) ^ 2).sum
    let den := if total = 0 then 1 / 10 ^ 9 else total
    let slope := num / den
    .ok (slope, my - slope * mx)

inductive Verdict where
  /-- "STABLE (flat)" -/
  | stable
  /-- "GROWTH then PLATEAU (likely legit working set)" -/
  | plateau
  /-- "LEAK SUSPECTED (sustained growth)" -/
  | leak
  deriving Repr, DecidableEq

structure Classification where
  mbPerMin : ℚ
  slopeFirstHalf : ℚ
  slopeSecondHalf : ℚ
  rangeMb : ℚ
  verdict : Verdict
  deriving Repr, DecidableEq

/-- `part or whole` -/
def orWhole {α : Type} (part whole : List α) : List α :=
  match part with
  | [] => whole
  | part => part

/-- `max(values) - min(values)` -/
def extent (values : List ℚ) : Except PyError ℚ :=
  match values.max?, values.min? with
  | some highest, some lowest => .ok (highest - lowest)
  | _, _ => .error .valueError

def verdictOf (rng slopeFirst slopeSecond : ℚ) : Verdict :=
  if rng < 1 then .stable
  else if slopeSecond ≤ slopeFirst * (3 / 10) then .plateau
  else .leak

def classify (timesS rssMb : List ℚ) : Except PyError Classification := do
  let (slopeAll, _) ← linfit timesS rssMb
  let mbPerMin := slopeAll * 60
  let half := timesS.length / 2
  let (slopeFirst, _) ← linfit (orWhole (timesS.take half) timesS) (orWhole (rssMb.take half) rssMb)
  let (slopeSecond, _) ← linfit (orWhole (timesS.drop half) timesS) (orWhole (rssMb.drop half) rssMb)
  let rng ← extent rssMb
  return { mbPerMin := mbPerMin
           slopeFirstHalf := slopeFirst * 60
           slopeSecondHalf := slopeSecond * 60
           rangeMb := rng
           verdict := verdictOf rng slopeFirst slopeSecond }

/-! ## Samples in pairs -/

def firstHalf (points : List (ℚ × ℚ)) : List (ℚ × ℚ) :=
  orWhole (points.take (points.length / 2)) points

def secondHalf (points : List (ℚ × ℚ)) : List (ℚ × ℚ) :=
  orWhole (points.drop (points.length / 2)) points

theorem orWhole_map {α β : Type} (f : α → β) (part whole : List α) :
    orWhole (part.map f) (whole.map f) = (orWhole part whole).map f := by
  cases part <;> rfl

theorem orWhole_ne_nil {α : Type} {part whole : List α} (nonempty : whole ≠ []) :
    orWhole part whole ≠ [] := by
  cases part with
  | nil => exact nonempty
  | cons first part => simp [orWhole]

/-- Equally long lists, seen as points. -/
theorem zip_spec {xs ys : List ℚ} (paired : xs.length = ys.length) (nonempty : xs ≠ []) :
    (xs.zip ys).map Prod.fst = xs ∧ (xs.zip ys).map Prod.snd = ys ∧ xs.zip ys ≠ [] := by
  have places : (xs.zip ys).map Prod.fst = xs := List.map_fst_zip paired.le
  refine ⟨places, List.map_snd_zip paired.ge, fun empty => nonempty ?_⟩
  rw [← places, empty, List.map_nil]

/-- The substitute for a zero denominator is never seen: the numerator is zero as well. -/
theorem linfit_eq {points : List (ℚ × ℚ)} (nonempty : points ≠ []) :
    linfit (points.map Prod.fst) (points.map Prod.snd) =
      .ok (fittedSlope points,
        mean (points.map Prod.snd) - fittedSlope points * mean (points.map Prod.fst)) := by
  have means : (points.map Prod.snd).sum / (points.map Prod.fst).length =
      mean (points.map Prod.snd) := by
    rw [mean, List.length_map, List.length_map]
  have zipped : (points.map Prod.fst).zip (points.map Prod.snd) = points := by
    rw [List.zip_map', List.map_id']
  have quotient : covariation points / (if variation points = 0 then 1 / 10 ^ 9 else variation points) =
      fittedSlope points := by
    split
    · rename_i still
      rw [fittedSlope, covariation_of_variation still, zero_div, zero_div]
    · rfl
  have squares : ((points.map Prod.fst).map fun x => (x - mean (points.map Prod.fst)) ^ 2).sum =
      variation points := by
    rw [List.map_map]
    rfl
  rw [linfit, if_neg (by simpa using nonempty)]
  dsimp only
  rw [zipped, means, ← mean, squares, ← covariation, quotient]

/-- No line through the samples has a smaller sum of squared distances than the returned one,
    also where all samples are taken at one time. -/
theorem linfit_least_squares (xs ys : List ℚ) (paired : xs.length = ys.length)
    (nonempty : xs ≠ []) :
    ∃ slope intercept, linfit xs ys = .ok (slope, intercept) ∧
      ∀ otherSlope otherIntercept,
        residual (xs.zip ys) slope intercept ≤ residual (xs.zip ys) otherSlope otherIntercept := by
  obtain ⟨places, values, somePoints⟩ := zip_spec paired nonempty
  have returned := linfit_eq somePoints
  rw [places, values] at returned
  refine ⟨_, _, returned, fun otherSlope otherIntercept => ?_⟩
  have least := residual_fitted_le somePoints otherSlope otherIntercept
  rwa [fittedIntercept, places, values] at least

/-- Two samples at the time 1: the line is level, halfway between them. -/
theorem linfit_upright_pair :
    ∃ slope intercept, linfit [1, 1] [2, 4] = .ok (slope, intercept) ∧
      ∀ otherSlope otherIntercept,
        residual [(1, 2), (1, 4)] slope intercept ≤
          residual [(1, 2), (1, 4)] otherSlope otherIntercept :=
  linfit_least_squares [1, 1] [2, 4] rfl (by decide)

theorem exists_extent {values : List ℚ} (nonempty : values ≠ []) :
    ∃ highest ∈ values, ∃ lowest ∈ values, extent values = .ok (highest - lowest) ∧
      ∀ value ∈ values, lowest ≤ value ∧ value ≤ highest := by
  obtain ⟨highest, isMax⟩ := Option.ne_none_iff_exists'.mp (mt List.max?_eq_none_iff.mp nonempty)
  obtain ⟨lowest, isMin⟩ := Option.ne_none_iff_exists'.mp (mt List.min?_eq_none_iff.mp nonempty)
  obtain ⟨isHigh, aboveAll⟩ := List.max?_eq_some_iff.mp isMax
  obtain ⟨isLow, belowAll⟩ := List.min?_eq_some_iff.mp isMin
  refine ⟨highest, isHigh, lowest, isLow, ?_, ?_⟩
  · rw [extent, isMax, isMin]
  · intro value member
    exact ⟨belowAll value member, aboveAll value member⟩

/-- What `classify` returns, in terms of the fitted slopes. -/
def fittedClassification (points : List (ℚ × ℚ)) (rng : ℚ) : Classification where
  mbPerMin := fittedSlope points * 60
  slopeFirstHalf := fittedSlope (firstHalf points) * 60
  slopeSecondHalf := fittedSlope (secondHalf points) * 60
  rangeMb := rng
  verdict := verdictOf rng (fittedSlope (firstHalf points)) (fittedSlope (secondHalf points))

theorem classify_points {points : List (ℚ × ℚ)} (nonempty : points ≠ []) {rng : ℚ}
    (ranged : extent (points.map Prod.snd) = .ok rng) :
    classify (points.map Prod.fst) (points.map Prod.snd) = .ok (fittedClassification points rng) := by
  have first : linfit ((firstHalf points).map Prod.fst) ((firstHalf points).map Prod.snd) = _ :=
    linfit_eq (orWhole_ne_nil nonempty)
  have second : linfit ((secondHalf points).map Prod.fst) ((secondHalf points).map Prod.snd) = _ :=
    linfit_eq (orWhole_ne_nil nonempty)
  simp only [firstHalf, secondHalf, ← orWhole_map, List.map_take, List.map_drop] at first second
  simp only [classify, List.length_map, linfit_eq nonempty, first, second, ranged, bind, Except.bind]
  rfl

/-- The range is the distance of two samples that have all others between them. -/
theorem classify_eq {timesS rssMb : List ℚ} (paired : timesS.length = rssMb.length)
    (nonempty : timesS ≠ []) :
    ∃ highest ∈ rssMb, ∃ lowest ∈ rssMb, (∀ value ∈ rssMb, lowest ≤ value ∧ value ≤ highest) ∧
      classify timesS rssMb =
        .ok (fittedClassification (timesS.zip rssMb) (highest - lowest)) := by
  obtain ⟨places, values, somePoints⟩ := zip_spec paired nonempty
  have someRss : rssMb ≠ [] := by
    rw [← values]
    exact mt List.map_eq_nil_iff.mp somePoints
  obtain ⟨highest, isHigh, lowest, isLow, ranged, between⟩ := exists_extent someRss
  refine ⟨highest, isHigh, lowest, isLow, between, ?_⟩
  rw [← values] at ranged
  have returned := classify_points somePoints ranged
  rwa [places, values] at returned

end Excalibur.RssLeak
