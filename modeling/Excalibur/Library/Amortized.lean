import Excalibur.Library.Run

/-! # Counting the steps of a run

How often a run takes a step of some kind is bounded by a credit: every such step spends
one unit of it, and only the steps of a second kind add to it.  When these come no more
often than once a period, a run with many of them takes long.
-/

namespace Excalibur.Library

variable {σ ε : Type*}

/-- The number of steps of the run for which `counts` says yes. -/
def countTaken (step : σ → ε → Option σ) (counts : σ → ε → Bool) : σ → List ε → Nat
  | _, [] => 0
  | state, event :: events =>
    match step state event with
    | some next => (counts state event).toNat + countTaken step counts next events
    | none => 0

section Rules

variable {step : σ → ε → Option σ} {counts refills : σ → ε → Bool}

@[simp] theorem countTaken_nil (start : σ) : countTaken step counts start [] = 0 := rfl

theorem countTaken_cons {start next : σ} {event : ε} (stepped : step start event = some next)
    (events : List ε) : countTaken step counts start (event :: events) =
      (counts start event).toNat + countTaken step counts next events := by
  rw [countTaken, stepped]

/-- The steps that spend credit are paid for by what there was and by the refills. -/
theorem countTaken_add_le (credit : σ → Nat) (refill : Nat) {start finish : σ} {events : List ε}
    (reached : run step start events = some finish)
    (pays : ∀ state event, Taken step start events state event → ∀ next,
      step state event = some next →
        (counts state event).toNat + credit next ≤
          credit state + refill * (refills state event).toNat) :
    countTaken step counts start events + credit finish ≤
      credit start + refill * countTaken step refills start events := by
  induction events generalizing start with
  | nil =>
    cases reached
    simp
  | cons event events ih =>
    rw [run_cons] at reached
    obtain ⟨next, stepped, reached⟩ := Option.bind_eq_some_iff.mp reached
    obtain ⟨first, others⟩ := forall_taken_cons.mp pays next stepped
    have now := first next stepped
    have later := ih reached others
    rw [countTaken_cons stepped, countTaken_cons stepped, Nat.mul_add]
    omega

/-- A deficit that every step of a kind lowers until it is made up. -/
theorem le_sub_countTaken (deficit : σ → Nat) {start finish : σ} {events : List ε}
    (reached : run step start events = some finish)
    (lowers : ∀ state event, Taken step start events state event → ∀ next,
      step state event = some next →
        deficit next ≤ deficit state - (counts state event).toNat) :
    deficit finish ≤ deficit start - countTaken step counts start events := by
  induction events generalizing start with
  | nil =>
    cases reached
    simp
  | cons event events ih =>
    rw [run_cons] at reached
    obtain ⟨next, stepped, reached⟩ := Option.bind_eq_some_iff.mp reached
    obtain ⟨first, others⟩ := forall_taken_cons.mp lowers next stepped
    have now := first next stepped
    have later := ih reached others
    rw [countTaken_cons stepped]
    omega

/-- Steps that come a period apart, on a clock that does not go back. -/
theorem add_countTaken_nsmul_le {T : Type*} [AddCommMonoid T] [PartialOrder T]
    [IsOrderedAddMonoid T] (clock : σ → T) (period : T) {start finish : σ} {events : List ε}
    (reached : run step start events = some finish)
    (advances : ∀ state event, Taken step start events state event → ∀ next,
      step state event = some next →
        clock state + (counts state event).toNat • period ≤ clock next) :
    clock start + countTaken step counts start events • period ≤ clock finish := by
  induction events generalizing start with
  | nil =>
    cases reached
    simp
  | cons event events ih =>
    rw [run_cons] at reached
    obtain ⟨next, stepped, reached⟩ := Option.bind_eq_some_iff.mp reached
    obtain ⟨first, others⟩ := forall_taken_cons.mp advances next stepped
    rw [countTaken_cons stepped, add_nsmul, ← add_assoc]
    calc clock start + (counts start event).toNat • period +
          countTaken step counts next events • period
        ≤ clock next + countTaken step counts next events • period := by
          gcongr
          exact first next stepped
      _ ≤ clock finish := ih reached others

end Rules

end Excalibur.Library
