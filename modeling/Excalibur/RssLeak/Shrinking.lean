import Excalibur.RssLeak.Classify

/-! # A process that shrinks

The test for a plateau compares the two slopes through a factor, and for negative slopes
a factor of 0.3 asks for more than it does for positive ones: the second half has to fall
on, at three tenths of the rate of the first at least.  A decline that levels off is
reported as sustained growth.
-/

namespace Excalibur.RssLeak

open Excalibur.Library Excalibur.Python

/-- The rate at which the best line through the samples falls. -/
def fallRate (points : List (ℚ × ℚ)) : ℚ := -fittedSlope points

/-- Later samples are not higher. -/
def Falling (points : List (ℚ × ℚ)) : Prop := points.Pairwise fun p q => p.1 < q.1 ∧ q.2 ≤ p.2

theorem sublist_orWhole {α : Type} {part whole : List α} (inside : part.Sublist whole) :
    (orWhole part whole).Sublist whole := by
  cases part with
  | nil => exact List.Sublist.refl whole
  | cons first part => exact inside

theorem fallRate_nonneg {points : List (ℚ × ℚ)} (falling : Falling points) :
    0 ≤ fallRate points :=
  neg_nonneg.mpr (fittedSlope_nonpos (falling.imp fun ordered => ⟨ordered.1.le, ordered.2⟩))

theorem Falling.firstHalf {points : List (ℚ × ℚ)} (falling : Falling points) :
    Falling (firstHalf points) :=
  falling.sublist (sublist_orWhole (List.take_sublist _ _))

theorem Falling.secondHalf {points : List (ℚ × ℚ)} (falling : Falling points) :
    Falling (secondHalf points) :=
  falling.sublist (sublist_orWhole (List.drop_sublist _ _))

theorem falling_zip {times rss : List ℚ} (paired : times.length = rss.length)
    (increasing : times.Pairwise (· < ·)) (nonincreasing : rss.Pairwise (· ≥ ·)) :
    Falling (times.zip rss) := by
  have places : (times.zip rss).map Prod.fst = times := List.map_fst_zip paired.le
  have values : (times.zip rss).map Prod.snd = rss := List.map_snd_zip paired.ge
  rw [← places, List.pairwise_map] at increasing
  rw [← values, List.pairwise_map] at nonincreasing
  exact increasing.and nonincreasing

theorem verdictOf_ne_leak {rng slopeFirst slopeSecond : ℚ} :
    verdictOf rng slopeFirst slopeSecond ≠ .leak ↔
      rng < 1 ∨ 3 / 10 * -slopeFirst ≤ -slopeSecond := by
  unfold verdictOf
  by_cases flat : rng < 1
  · simp [flat]
  · by_cases levels : slopeSecond ≤ slopeFirst * (3 / 10)
    · simp only [flat, levels, if_true, if_false, false_or]
      simp only [ne_eq, reduceCtorEq, not_false_eq_true, true_iff]
      linarith
    · simp only [flat, levels, if_false, false_or]
      simp only [ne_eq, not_true_eq_false, false_iff, not_le]
      linarith

end Excalibur.RssLeak
