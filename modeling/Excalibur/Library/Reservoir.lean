import Mathlib

/-! # Capped reservoirs

A reservoir is filled by a supply up to its cap and drawn from.  It only keeps its
level and the cumulative supply at its last refill, and yet `le_refill_iff` says
what it answers for: there is enough for a draw exactly when there would be, had
the reservoir been full at the start or just before any earlier draw and not been
capped since.  The draws, the supply and the cap are arbitrary.
-/

namespace Excalibur.Library

/-- The level at the cumulative supply `supply`. -/
structure Reservoir (K : Type*) where
  cap : K
  level : K
  supply : K

/-- Draw `amount` when the supply has reached `supply`. -/
structure Draw (K : Type*) where
  supply : K
  amount : K

namespace Reservoir

variable {K : Type*} [AddCommGroup K] [LinearOrder K]

def full (cap supply : K) : Reservoir K := ⟨cap, cap, supply⟩

def refill (r : Reservoir K) (supply : K) : Reservoir K :=
  ⟨r.cap, min r.cap (r.level + (supply - r.supply)), supply⟩

def draw (r : Reservoir K) (d : Draw K) : Reservoir K :=
  ⟨r.cap, (r.refill d.supply).level - d.amount, d.supply⟩

def drawAll (r : Reservoir K) (draws : List (Draw K)) : Reservoir K := draws.foldl draw r

def drawn (draws : List (Draw K)) : K := (draws.map Draw.amount).sum

@[simp] theorem drawAll_nil (r : Reservoir K) : r.drawAll [] = r := rfl

theorem drawAll_snoc (r : Reservoir K) (draws : List (Draw K)) (d : Draw K) :
    r.drawAll (draws ++ [d]) = (r.drawAll draws).draw d := by
  simp [drawAll]

@[simp] theorem drawAll_cap (r : Reservoir K) (draws : List (Draw K)) :
    (r.drawAll draws).cap = r.cap := by
  induction draws using List.reverseRecOn with
  | nil => rfl
  | append_singleton draws d ih => rw [drawAll_snoc, draw, ih]

omit [LinearOrder K] in
@[simp] theorem drawn_nil : drawn ([] : List (Draw K)) = 0 := rfl

omit [LinearOrder K] in
@[simp] theorem drawn_cons (d : Draw K) (draws : List (Draw K)) :
    drawn (d :: draws) = d.amount + drawn draws := by
  simp [drawn]

omit [LinearOrder K] in
@[simp] theorem drawn_append (first second : List (Draw K)) :
    drawn (first ++ second) = drawn first + drawn second := by
  simp [drawn]

/-- `amount` is within what a full reservoir would hold at `supply`, counted from the
    start and from every earlier draw. -/
structure Covered (cap start supply : K) (draws : List (Draw K)) (amount : K) : Prop where
  capped : amount ≤ cap
  fromStart : drawn draws + amount ≤ cap + (supply - start)
  fromDraw : ∀ before d after, draws = before ++ d :: after →
    drawn (d :: after) + amount ≤ cap + (supply - d.supply)

variable [IsOrderedAddMonoid K]

/-- What was covered before a draw, with the draw itself on top, is what is covered
    after it. -/
theorem covered_snoc {cap start supply amount : K} {draws : List (Draw K)} {d : Draw K} :
    Covered cap start supply (draws ++ [d]) amount ↔
      amount ≤ cap ∧ Covered cap start d.supply draws (amount + d.amount - (supply - d.supply)) := by
  constructor
  · intro covered
    refine ⟨covered.capped, ?_, ?_, ?_⟩
    · have last := covered.fromDraw draws d [] rfl
      simp only [drawn_cons, drawn_nil, add_zero] at last
      rw [sub_le_iff_le_add, add_comm amount]
      exact last
    · have whole := covered.fromStart
      simp only [drawn_append, drawn_cons, drawn_nil, add_zero] at whole
      have shifted := sub_le_sub_right whole (supply - d.supply)
      refine le_of_eq_of_le ?_ (shifted.trans_eq ?_) <;> abel
    · rintro before e after rfl
      have whole := covered.fromDraw before e (after ++ [d]) (by simp)
      simp only [drawn_cons, drawn_append, drawn_nil, add_zero] at whole ⊢
      have shifted := sub_le_sub_right whole (supply - d.supply)
      refine le_of_eq_of_le ?_ (shifted.trans_eq ?_) <;> abel
  · rintro ⟨capped, covered⟩
    refine ⟨capped, ?_, ?_⟩
    · simp only [drawn_append, drawn_cons, drawn_nil, add_zero]
      have shifted := add_le_add_left covered.fromStart (supply - d.supply)
      refine le_of_eq_of_le ?_ (shifted.trans_eq ?_) <;> abel
    · intro before e after split
      -- The starting draw is the last one or an earlier one.
      obtain ⟨rfl, rfl⟩ | ⟨rest, rfl, rfl⟩ : (after = [] ∧ e = d) ∨
          ∃ rest, after = rest ++ [d] ∧ draws = before ++ e :: rest := by
        obtain rfl | ⟨rest, last, rfl⟩ := List.eq_nil_or_concat after
        · left
          have ends := (List.append_inj' split rfl).2
          exact ⟨rfl, by simpa [eq_comm] using ends⟩
        · right
          have regrouped : draws ++ [d] = (before ++ e :: rest) ++ [last] := by
            simpa using split
          obtain ⟨same, lastSame⟩ := List.append_inj' regrouped rfl
          cases lastSame
          exact ⟨rest, by simp, same⟩
      · simp only [drawn_cons, drawn_nil, add_zero]
        have last := covered.capped
        rw [sub_le_iff_le_add, add_comm amount] at last
        exact last
      · have earlier := covered.fromDraw before e rest rfl
        simp only [drawn_cons, drawn_append, drawn_nil, add_zero] at earlier ⊢
        have shifted := add_le_add_left earlier (supply - d.supply)
        refine le_of_eq_of_le ?_ (shifted.trans_eq ?_) <;> abel

/-- The level after a refill is the most that is covered. -/
theorem le_refill_iff {cap start supply amount : K} (draws : List (Draw K)) :
    amount ≤ (((full cap start).drawAll draws).refill supply).level ↔
      Covered cap start supply draws amount := by
  induction draws using List.reverseRecOn generalizing supply amount with
  | nil =>
    simp only [drawAll_nil, refill, full, le_min_iff]
    constructor
    · rintro ⟨capped, supplied⟩
      exact ⟨capped, by simpa using supplied, by simp⟩
    · intro covered
      exact ⟨covered.capped, by simpa using covered.fromStart⟩
  | append_singleton draws d ih =>
    have moved (level : K) : amount ≤ level - d.amount + (supply - d.supply) ↔
        amount + d.amount - (supply - d.supply) ≤ level := by
      rw [sub_add_eq_add_sub, le_sub_iff_add_le, sub_le_iff_le_add]
    have before : ((full cap start).drawAll (draws ++ [d])).refill supply =
        ⟨cap, min cap ((((full cap start).drawAll draws).refill d.supply).level - d.amount +
          (supply - d.supply)), supply⟩ := by
      rw [drawAll_snoc]
      simp [refill, draw, full]
    rw [before, covered_snoc, ← ih, le_min_iff, moved]

end Reservoir

end Excalibur.Library
