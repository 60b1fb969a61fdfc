import Mathlib

/-! # The least-squares line

The slope of the line that fits a list of points best, from the sums that a program
computes for it.  `covariation` and `variation` are taken about the two means; the slope
is their quotient, and 0 where all points stand above one another.

* `covariation_eq` is the usual computation without means.
* `residual_fitted_le` says that the line through the point of the means with this slope is
  the one of least squared distance.
* `covariation_map` and `variation_map` say what becomes of the two sums when both axes are
  rescaled and a line is added.
* `fittedSlope_nonpos` says that the fitted line of a falling series does not rise, however the
  points are spaced, and `fittedSlope_le` and `le_fittedSlope` that the slope lies between
  the slopes from point to point.
-/

namespace Excalibur.Library

variable {K : Type*} [Field K]

def mean (values : List K) : K := values.sum / values.length

/-- The sum of the products of the deviations from the two means. -/
def covariation (points : List (K × K)) : K :=
  (points.map fun p =>
    (p.1 - mean (points.map Prod.fst)) * (p.2 - mean (points.map Prod.snd))).sum

/-- The sum of the squared deviations of the places. -/
def variation (points : List (K × K)) : K :=
  (points.map fun p => (p.1 - mean (points.map Prod.fst)) ^ 2).sum

def fittedSlope (points : List (K × K)) : K := covariation points / variation points

/-- The sum of the squared distances from a line, measured upright. -/
def residual (points : List (K × K)) (slope intercept : K) : K :=
  (points.map fun p => (p.2 - (slope * p.1 + intercept)) ^ 2).sum

/-- The intercept of the line that has the fitted slope and meets the point of the means. -/
def fittedIntercept (points : List (K × K)) : K :=
  mean (points.map Prod.snd) - fittedSlope points * mean (points.map Prod.fst)

/-- The slopes from each point to the next. -/
def successiveSlopes : List (K × K) → List K
  | p :: q :: points => (q.2 - p.2) / (q.1 - p.1) :: successiveSlopes (q :: points)
  | _ => []

theorem successiveSlopes_append (before after : List (K × K)) (p q : K × K) :
    successiveSlopes (before ++ p :: q :: after) =
      successiveSlopes (before ++ [p]) ++
        (q.2 - p.2) / (q.1 - p.1) :: successiveSlopes (q :: after) := by
  induction before using successiveSlopes.induct with
  | case1 first second before ih => simpa [successiveSlopes] using ih
  | case2 before short =>
    match before, short with
    | [], _ => simp [successiveSlopes]
    | [first], _ => simp [successiveSlopes]
    | first :: second :: before, short => exact absurd rfl (short first second before)

theorem sum_sub_mul_sub (points : List (K × K)) (a b : K) :
    (points.map fun p => (p.1 - a) * (p.2 - b)).sum =
      (points.map fun p => p.1 * p.2).sum - a * (points.map Prod.snd).sum -
        b * (points.map Prod.fst).sum + points.length * (a * b) := by
  induction points with
  | nil => simp
  | cons p points ih =>
    simp only [List.map_cons, List.sum_cons, List.length_cons, ih]
    push_cast
    ring

section CharZero

variable [CharZero K]

theorem mean_mul_length {values : List K} (nonempty : values ≠ []) :
    values.length * mean values = values.sum := by
  have positive : (values.length : K) ≠ 0 := by
    exact_mod_cast List.length_pos_iff.mpr nonempty |>.ne'
  rw [mean, mul_div_cancel₀ _ positive]

theorem covariation_eq {points : List (K × K)} (nonempty : points ≠ []) :
    points.length * covariation points =
      points.length * (points.map fun p => p.1 * p.2).sum -
        (points.map Prod.fst).sum * (points.map Prod.snd).sum := by
  have first := mean_mul_length (mt List.map_eq_nil_iff.mp nonempty : points.map Prod.fst ≠ [])
  have second := mean_mul_length (mt List.map_eq_nil_iff.mp nonempty : points.map Prod.snd ≠ [])
  rw [List.length_map] at first second
  rw [covariation, sum_sub_mul_sub, ← first, ← second]
  ring

theorem mean_map {values : List K} (nonempty : values ≠ []) (a b : K) :
    mean (values.map fun x => a * x + b) = a * mean values + b := by
  have positive : (values.length : K) ≠ 0 := by
    exact_mod_cast List.length_pos_iff.mpr nonempty |>.ne'
  rw [mean, mean, List.length_map, List.sum_map_add, List.sum_map_mul_left, List.map_id',
    List.map_const', List.sum_replicate, nsmul_eq_mul]
  field_simp

section Rescaled

variable {points : List (K × K)}

theorem mean_fst_map (nonempty : points ≠ []) (a b c s d : K) :
    mean ((points.map fun p => (a * p.1 + b, c * p.2 + s * p.1 + d)).map Prod.fst) =
      a * mean (points.map Prod.fst) + b := by
  rw [← mean_map (mt List.map_eq_nil_iff.mp nonempty), List.map_map, List.map_map]
  rfl

theorem mean_snd_map (nonempty : points ≠ []) (a b c s d : K) :
    mean ((points.map fun p => (a * p.1 + b, c * p.2 + s * p.1 + d)).map Prod.snd) =
      c * mean (points.map Prod.snd) + s * mean (points.map Prod.fst) + d := by
  have positive : (points.length : K) ≠ 0 := by
    exact_mod_cast List.length_pos_iff.mpr nonempty |>.ne'
  have first : (points.map fun p => c * p.2).sum = c * (points.map Prod.snd).sum :=
    List.sum_map_mul_left ..
  have second : (points.map fun p => s * p.1).sum = s * (points.map Prod.fst).sum :=
    List.sum_map_mul_left ..
  have split : ((points.map fun p => (a * p.1 + b, c * p.2 + s * p.1 + d)).map Prod.snd).sum =
      c * (points.map Prod.snd).sum + s * (points.map Prod.fst).sum + points.length * d := by
    rw [List.map_map, ← first, ← second, ← nsmul_eq_mul, ← List.sum_replicate,
      ← List.map_const', ← List.sum_map_add, ← List.sum_map_add]
    rfl
  simp only [mean, split, List.length_map]
  field_simp

theorem covariation_map (points : List (K × K)) (a b c s d : K) :
    covariation (points.map fun p => (a * p.1 + b, c * p.2 + s * p.1 + d)) =
      a * (c * covariation points + s * variation points) := by
  by_cases nonempty : points = []
  · simp [nonempty, covariation, variation]
  · rw [covariation, mean_fst_map nonempty, mean_snd_map nonempty, List.map_map, covariation,
      variation, ← List.sum_map_mul_left, ← List.sum_map_mul_left, ← List.sum_map_add,
      ← List.sum_map_mul_left]
    congr 1
    apply List.map_congr_left
    intro p _
    simp only [Function.comp]
    ring

theorem variation_map (points : List (K × K)) (a b c s d : K) :
    variation (points.map fun p => (a * p.1 + b, c * p.2 + s * p.1 + d)) =
      a ^ 2 * variation points := by
  by_cases nonempty : points = []
  · simp [nonempty, variation]
  · rw [variation, mean_fst_map nonempty, List.map_map, variation, ← List.sum_map_mul_left]
    congr 1
    apply List.map_congr_left
    intro p _
    simp only [Function.comp]
    ring

/-- The unit of the places divides the slope; shifts do not matter. -/
theorem fittedSlope_map {a : K} (nonzero : a ≠ 0) (points : List (K × K)) (b d : K) :
    fittedSlope (points.map fun p => (a * p.1 + b, p.2 + d)) = fittedSlope points / a := by
  have covaries := covariation_map points a b 1 0 d
  have varies := variation_map points a b 1 0 d
  simp only [one_mul, zero_mul, add_zero] at covaries varies
  rw [fittedSlope, fittedSlope, covaries, varies]
  field_simp

end Rescaled

end CharZero

section Ordered

variable [LinearOrder K] [IsStrictOrderedRing K] {points : List (K × K)}

theorem variation_nonneg (points : List (K × K)) : 0 ≤ variation points := by
  refine List.sum_nonneg fun square member => ?_
  obtain ⟨p, -, rfl⟩ := List.mem_map.mp member
  exact sq_nonneg _

theorem covariation_of_variation (still : variation points = 0) : covariation points = 0 := by
  have square : ∀ s ∈ points.map fun p => (p.1 - mean (points.map Prod.fst)) ^ 2, 0 ≤ s := by
    intro s member
    obtain ⟨p, -, rfl⟩ := List.mem_map.mp member
    exact sq_nonneg _
  refine List.sum_eq_zero fun product member => ?_
  obtain ⟨p, listed, rfl⟩ := List.mem_map.mp member
  have zero : p.1 - mean (points.map Prod.fst) = 0 := by
    have squared := List.all_zero_of_le_zero_le_of_sum_eq_zero square still
      (List.mem_map_of_mem listed)
    exact (pow_eq_zero_iff two_ne_zero).mp squared
  rw [zero, zero_mul]

/-- Chebyshev's inequality for points that fall from left to right. -/
theorem covariation_nonpos
    (falling : points.Pairwise fun p q => p.1 ≤ q.1 ∧ q.2 ≤ p.2) : covariation points ≤ 0 := by
  cases points with
  | nil => simp [covariation]
  | cons first rest =>
    set points := first :: rest with pointsEq
    have opposite : Antivary (fun i : Fin points.length => points[i.1].1) fun i => points[i.1].2 := by
      intro i j lower
      rcases lt_trichotomy i j with before | same | after
      · exact absurd (List.pairwise_iff_getElem.mp falling i j i.2 j.2 before).2 (not_le.mpr lower)
      · exact absurd lower (by simp [same])
      · exact (List.pairwise_iff_getElem.mp falling j i j.2 i.2 after).1
    have chebyshev := opposite.card_mul_sum_le_sum_mul_sum
    rw [Fintype.card_fin, Fin.sum_univ_fun_getElem points fun p => p.1 * p.2,
      Fin.sum_univ_fun_getElem points Prod.fst, Fin.sum_univ_fun_getElem points Prod.snd] at chebyshev
    have nonempty : points ≠ [] := by simp [pointsEq]
    have expanded := covariation_eq nonempty
    have positive : (0 : K) < points.length := by
      exact_mod_cast (by simp [pointsEq] : 0 < points.length)
    refine nonpos_of_mul_nonpos_right (b := covariation points) ?_ positive
    linarith

theorem fittedSlope_nonpos (falling : points.Pairwise fun p q => p.1 ≤ q.1 ∧ q.2 ≤ p.2) :
    fittedSlope points ≤ 0 :=
  div_nonpos_of_nonpos_of_nonneg (covariation_nonpos falling) (variation_nonneg points)

theorem variation_mul_fittedSlope (points : List (K × K)) :
    variation points * fittedSlope points = covariation points := by
  by_cases still : variation points = 0
  · rw [covariation_of_variation still, still, zero_mul]
  · rw [fittedSlope, mul_div_cancel₀ _ still]

theorem variation_pos {p q : K × K} (pListed : p ∈ points) (qListed : q ∈ points)
    (apart : p.1 ≠ q.1) : 0 < variation points := by
  refine lt_of_le_of_ne (variation_nonneg points) ?_
  intro still
  have atMean : ∀ r ∈ points, r.1 = mean (points.map Prod.fst) := by
    intro r listed
    have squared := List.all_zero_of_le_zero_le_of_sum_eq_zero (by
      intro s member
      obtain ⟨t, -, rfl⟩ := List.mem_map.mp member
      exact sq_nonneg _) still.symm (List.mem_map_of_mem listed)
    exact sub_eq_zero.mp ((pow_eq_zero_iff two_ne_zero).mp squared)
  exact apart ((atMean p pListed).trans (atMean q qListed).symm)

/-! ## The line of least squares

The two normal equations: the distances from the fitted line sum to zero, and so do their
products with the places.  Another line then adds the squares of its own distances from
the fitted line. -/

theorem sum_distances (nonempty : points ≠ []) :
    (points.map fun p => p.2 - (fittedSlope points * p.1 + fittedIntercept points)).sum = 0 := by
  have positive : (points.length : K) ≠ 0 := by
    exact_mod_cast List.length_pos_iff.mpr nonempty |>.ne'
  have lowered := mean_snd_map nonempty 1 0 1 (-fittedSlope points) (-fittedIntercept points)
  have atZero : mean ((points.map fun p => (1 * p.1 + 0, 1 * p.2 + -fittedSlope points * p.1 +
      -fittedIntercept points)).map Prod.snd) = 0 := by
    rw [lowered, fittedIntercept]
    ring
  rw [mean, div_eq_zero_iff, List.length_map, List.length_map, or_iff_left positive,
    List.map_map] at atZero
  rw [← atZero]
  congr 1
  apply List.map_congr_left
  intro p _
  simp only [Function.comp]
  ring

theorem sum_distances_mul (nonempty : points ≠ []) :
    (points.map fun p =>
      (p.2 - (fittedSlope points * p.1 + fittedIntercept points)) * p.1).sum = 0 := by
  -- About the mean of the places, the products are those of the two deviations.
  have centred : (points.map fun p =>
      (p.2 - (fittedSlope points * p.1 + fittedIntercept points)) *
        (p.1 - mean (points.map Prod.fst))).sum = 0 := by
    have split : (points.map fun p =>
        (p.2 - (fittedSlope points * p.1 + fittedIntercept points)) *
          (p.1 - mean (points.map Prod.fst))).sum =
        covariation points + -fittedSlope points * variation points := by
      rw [covariation, variation, ← List.sum_map_mul_left, ← List.sum_map_add]
      congr 1
      apply List.map_congr_left
      intro p _
      rw [fittedIntercept]
      ring
    rw [split, ← variation_mul_fittedSlope]
    ring
  have shifted := congrArg (mean (points.map Prod.fst) * ·) (sum_distances nonempty)
  simp only [← List.sum_map_mul_left, mul_zero] at shifted
  calc (points.map fun p => (p.2 - (fittedSlope points * p.1 + fittedIntercept points)) * p.1).sum
    _ = (points.map fun p =>
          (p.2 - (fittedSlope points * p.1 + fittedIntercept points)) *
            (p.1 - mean (points.map Prod.fst)) +
          mean (points.map Prod.fst) *
            (p.2 - (fittedSlope points * p.1 + fittedIntercept points))).sum := by
        congr 1
        apply List.map_congr_left
        intro p _
        ring
    _ = 0 := by rw [List.sum_map_add, centred, shifted, add_zero]

theorem residual_eq (nonempty : points ≠ []) (slope intercept : K) :
    residual points slope intercept =
      residual points (fittedSlope points) (fittedIntercept points) +
        (points.map fun p => (fittedSlope points * p.1 + fittedIntercept points -
          (slope * p.1 + intercept)) ^ 2).sum := by
  have first := congrArg (2 * (fittedSlope points - slope) * ·) (sum_distances_mul nonempty)
  have second := congrArg (2 * (fittedIntercept points - intercept) * ·) (sum_distances nonempty)
  simp only [← List.sum_map_mul_left, mul_zero] at first second
  -- The mixed terms vanish, for the distances are orthogonal to every line.
  have expanded : residual points slope intercept =
      (points.map fun p =>
        (p.2 - (fittedSlope points * p.1 + fittedIntercept points)) ^ 2 +
          (fittedSlope points * p.1 + fittedIntercept points - (slope * p.1 + intercept)) ^ 2 +
        (2 * (fittedSlope points - slope) *
            ((p.2 - (fittedSlope points * p.1 + fittedIntercept points)) * p.1) +
          2 * (fittedIntercept points - intercept) *
            (p.2 - (fittedSlope points * p.1 + fittedIntercept points)))).sum := by
    rw [residual]
    congr 1
    apply List.map_congr_left
    intro p _
    ring
  rw [expanded, List.sum_map_add, List.sum_map_add, List.sum_map_add, first, second, add_zero,
    add_zero, residual]

/-- No line has a smaller sum of squared distances than the fitted one. -/
theorem residual_fitted_le (nonempty : points ≠ []) (slope intercept : K) :
    residual points (fittedSlope points) (fittedIntercept points) ≤
      residual points slope intercept := by
  rw [residual_eq nonempty slope intercept]
  refine le_add_of_nonneg_right (List.sum_nonneg fun square member => ?_)
  obtain ⟨p, -, rfl⟩ := List.mem_map.mp member
  exact sq_nonneg _

/-! ## Between the slopes from point to point -/

/-- The fitted line is no steeper than the steepest chord, nor than 0 where there is none. -/
theorem fittedSlope_le {bound : K} (nonnegative : 0 ≤ bound)
    (chords : points.Pairwise fun p q => p.1 < q.1 ∧ q.2 - p.2 ≤ bound * (q.1 - p.1)) :
    fittedSlope points ≤ bound := by
  have lowered : (points.map fun p => (1 * p.1 + 0, 1 * p.2 + -bound * p.1 + 0)).Pairwise
      fun p q => p.1 ≤ q.1 ∧ q.2 ≤ p.2 := by
    rw [List.pairwise_map]
    refine chords.imp fun {p q} chord => ?_
    constructor <;> linarith [chord.1, chord.2]
  have falls := covariation_nonpos lowered
  rw [covariation_map] at falls
  rcases (variation_nonneg points).eq_or_lt with still | moving
  · rw [fittedSlope, ← still, div_zero]
    exact nonnegative
  · rw [fittedSlope, div_le_iff₀ moving]
    linarith

theorem le_fittedSlope {bound : K} (moving : 0 < variation points)
    (chords : points.Pairwise fun p q => p.1 < q.1 ∧ bound * (q.1 - p.1) ≤ q.2 - p.2) :
    bound ≤ fittedSlope points := by
  have lowered : (points.map fun p => (1 * p.1 + 0, -1 * p.2 + bound * p.1 + 0)).Pairwise
      fun p q => p.1 ≤ q.1 ∧ q.2 ≤ p.2 := by
    rw [List.pairwise_map]
    refine chords.imp fun {p q} chord => ?_
    constructor <;> linarith [chord.1, chord.2]
  have falls := covariation_nonpos lowered
  rw [covariation_map] at falls
  rw [fittedSlope, le_div_iff₀ moving]
  linarith

omit [IsStrictOrderedRing K] in
theorem chain_of_successiveSlopes {P : K → Prop} (increasing : points.Pairwise fun p q => p.1 < q.1)
    (steps : ∀ slope ∈ successiveSlopes points, P slope) :
    points.IsChain fun p q => p.1 < q.1 ∧ P ((q.2 - p.2) / (q.1 - p.1)) := by
  induction points using successiveSlopes.induct with
  | case1 p q points ih =>
    obtain ⟨fromP, rest⟩ := List.pairwise_cons.mp increasing
    refine List.isChain_cons_cons.mpr ⟨⟨fromP q (by simp), ?_⟩, ih rest ?_⟩
    · exact steps _ (by simp [successiveSlopes])
    · intro slope member
      exact steps slope (by simp [successiveSlopes, member])
  | case2 points short =>
    match points, short with
    | [], _ => exact List.isChain_nil
    | [p], _ => exact List.isChain_singleton p
    | p :: q :: points, short => exact absurd rfl (short p q points)

/-- A bound on the slopes from point to point is one on all chords. -/
theorem chords_le {bound : K} (increasing : points.Pairwise fun p q => p.1 < q.1)
    (steps : ∀ slope ∈ successiveSlopes points, slope ≤ bound) :
    points.Pairwise fun p q => p.1 < q.1 ∧ q.2 - p.2 ≤ bound * (q.1 - p.1) := by
  have chain := chain_of_successiveSlopes increasing steps
  have joined : IsTrans (K × K) fun p q => p.1 < q.1 ∧ q.2 - p.2 ≤ bound * (q.1 - p.1) := by
    constructor
    intro p q r first second
    constructor <;> linarith [first.1, first.2, second.1, second.2]
  refine List.isChain_iff_pairwise.mp (chain.imp fun p q step => ⟨step.1, ?_⟩)
  exact (div_le_iff₀ (by linarith [step.1])).mp step.2

theorem le_chords {bound : K} (increasing : points.Pairwise fun p q => p.1 < q.1)
    (steps : ∀ slope ∈ successiveSlopes points, bound ≤ slope) :
    points.Pairwise fun p q => p.1 < q.1 ∧ bound * (q.1 - p.1) ≤ q.2 - p.2 := by
  have chain := chain_of_successiveSlopes increasing steps
  have joined : IsTrans (K × K) fun p q => p.1 < q.1 ∧ bound * (q.1 - p.1) ≤ q.2 - p.2 := by
    constructor
    intro p q r first second
    constructor <;> linarith [first.1, first.2, second.1, second.2]
  refine List.isChain_iff_pairwise.mp (chain.imp fun p q step => ⟨step.1, ?_⟩)
  exact (le_div_iff₀ (by linarith [step.1])).mp step.2

end Ordered

end Excalibur.Library
