import Excalibur.Library.Run

/-! # The deadlock on purpose

The two threads of `demonstrate_deadlock` meet at a barrier with one lock each and then try
for the other's, for a second.  A waiting thread is one that takes no step; the step of a
thread whose lock is still locked is its timeout.  Which of the two gives up first is up to
the schedule, and so is whether the other one is then in time for its lock.
-/

namespace Excalibur.Deadlock.Demonstration

open Excalibur.Library

inductive Phase where
  | starting
  | holdsOwn
  | waiting
  | trying
  | holdsOther
  | timedOut
  | leaving
  | finished
  deriving Repr, DecidableEq

/-- Thread `t1` and `lock_a` are `false`, `t2` and `lock_b` are `true`, so a thread takes
    the lock of its own name first.  `arrived` counts the calls of `barrier.wait`. -/
structure State where
  phase : Bool → Phase
  locked : Bool → Bool
  arrived : Nat
  deadlocked : Bool → Bool

def start : State where
  phase := fun _ => .starting
  locked := fun _ => false
  arrived := 0
  deadlocked := fun _ => false

@[simp] def State.goto (s : State) (i : Bool) (next : Phase) : State :=
  { s with phase := Function.update s.phase i next }

/-- The next step of thread `i`. -/
def step (s : State) (i : Bool) : Option State :=
  match s.phase i with
  | .starting =>
    if s.locked i then none
    else some { s.goto i .holdsOwn with locked := Function.update s.locked i true }
  | .holdsOwn => some { s.goto i .waiting with arrived := s.arrived + 1 }
  | .waiting => if s.arrived = 2 then some (s.goto i .trying) else none
  | .trying =>
    if s.locked (!i) then some (s.goto i .timedOut)
    else some { s.goto i .holdsOther with locked := Function.update s.locked (!i) true }
  | .holdsOther => some { s.goto i .leaving with locked := Function.update s.locked (!i) false }
  | .timedOut => some { s.goto i .leaving with deadlocked := Function.update s.deadlocked i true }
  | .leaving => some { s.goto i .finished with locked := Function.update s.locked i false }
  | .finished => none

/-- What `demonstrate_deadlock` returns after the threads. -/
def State.result (s : State) : Bool := s.deadlocked false || s.deadlocked true

/-! ## What the phases say -/

namespace Phase

/-- Whether a thread holds the lock of its own name. -/
@[simp] def Owns (p : Phase) : Prop := p ≠ .starting ∧ p ≠ .finished

/-- Whether a thread has called `barrier.wait`. -/
@[simp] def Arrived (p : Phase) : Prop := p ≠ .starting ∧ p ≠ .holdsOwn

/-- Whether a thread has come through the barrier. -/
@[simp] def Passed (p : Phase) : Prop := p.Arrived ∧ p ≠ .waiting

/-- Whether a thread is done with the other lock. -/
@[simp] def Settled (p : Phase) : Prop := p = .leaving ∨ p = .finished

instance (p : Phase) : Decidable p.Arrived := inferInstanceAs (Decidable (_ ∧ _))

def remaining : Phase → Nat
  | .starting => 6
  | .holdsOwn => 5
  | .waiting => 4
  | .trying => 3
  | .holdsOther => 2
  | .timedOut => 2
  | .leaving => 1
  | .finished => 0

end Phase

/-- A thread gets the other lock only after the other thread has given up. -/
structure Invariant (s : State) : Prop where
  locks : ∀ i, s.locked i = true ↔ (s.phase i).Owns ∨ s.phase (!i) = .holdsOther
  count : ∀ i, s.arrived =
    (if (s.phase i).Arrived then 1 else 0) + if (s.phase (!i)).Arrived then 1 else 0
  together : ∀ i, (s.phase i).Passed → (s.phase (!i)).Arrived
  afterOther : ∀ i, s.phase i = .holdsOther →
    s.phase (!i) = .finished ∧ s.deadlocked (!i) = true
  settled : ∀ i, (s.phase i).Settled →
    s.deadlocked i = true ∨ s.phase (!i) = .finished ∧ s.deadlocked (!i) = true

theorem start_invariant : Invariant start := by
  refine ⟨?_, ?_, ?_, ?_, ?_⟩ <;> simp [start]

theorem forall_thread (i : Bool) {motive : Bool → Prop} :
    (∀ j, motive j) ↔ motive i ∧ motive (!i) := by
  cases i <;> simp [Bool.forall_bool, and_comm]

theorem step_keeps_invariant {s next : State} {i : Bool} (stepped : step s i = some next)
    (invariant : Invariant s) : Invariant next := by
  have locks := (forall_thread i).mp invariant.locks
  have count := invariant.count i
  have together := (forall_thread i).mp invariant.together
  have afterOther := (forall_thread i).mp invariant.afterOther
  have settled := (forall_thread i).mp invariant.settled
  rw [Bool.not_not] at locks together afterOther settled
  have apart : (!i) ≠ i := by simp
  unfold step at stepped
  -- Each field is about the thread that steps and about the other one.
  cases phase : s.phase i with
  | starting =>
    simp only [phase, Option.ite_none_left_eq_some, Option.some.injEq] at stepped
    obtain ⟨free, rfl⟩ := stepped
    constructor <;> refine (forall_thread i).mpr ?_
    all_goals simp_all
    all_goals grind
  | holdsOwn =>
    simp only [phase, Option.some.injEq] at stepped
    subst stepped
    constructor <;> refine (forall_thread i).mpr ?_
    all_goals simp_all
    all_goals grind
  | waiting =>
    simp only [phase, Option.ite_none_right_eq_some, Option.some.injEq] at stepped
    obtain ⟨all, rfl⟩ := stepped
    constructor <;> refine (forall_thread i).mpr ?_
    all_goals simp_all
    all_goals grind
  | trying =>
    simp only [phase] at stepped
    split at stepped
    · cases stepped
      constructor <;> refine (forall_thread i).mpr ?_
      all_goals simp_all
    · cases stepped
      constructor <;> refine (forall_thread i).mpr ?_
      all_goals simp_all
  | holdsOther =>
    simp only [phase, Option.some.injEq] at stepped
    subst stepped
    constructor <;> refine (forall_thread i).mpr ?_
    all_goals simp_all
  | timedOut =>
    simp only [phase, Option.some.injEq] at stepped
    subst stepped
    constructor <;> refine (forall_thread i).mpr ?_
    all_goals simp_all
  | leaving =>
    simp only [phase, Option.some.injEq] at stepped
    subst stepped
    constructor <;> refine (forall_thread i).mpr ?_
    all_goals simp_all
  | finished =>
    rw [phase] at stepped
    cases stepped

theorem run_keeps_invariant {s : State} {events : List Bool}
    (reached : run step start events = some s) : Invariant s :=
  run_invariant start_invariant (fun _ _ _ => step_keeps_invariant) events s
    (visited_finish reached)

/-! ## Getting to the end -/

def remaining (s : State) : Nat := (s.phase false).remaining + (s.phase true).remaining

theorem remaining_step {s next : State} {i : Bool} (stepped : step s i = some next) :
    remaining next + 1 = remaining s := by
  have own : ∃ after, next.phase = Function.update s.phase i after ∧
      after.remaining + 1 = (s.phase i).remaining := by
    unfold step at stepped
    cases phase : s.phase i <;> simp only [phase] at stepped
    case trying => split at stepped <;> cases stepped <;> exact ⟨_, rfl, rfl⟩
    case finished => cases stepped
    case starting | waiting =>
      split at stepped <;> cases stepped
      exact ⟨_, rfl, rfl⟩
    all_goals
      cases stepped
      exact ⟨_, rfl, rfl⟩
  obtain ⟨after, moved, lower⟩ := own
  cases i <;> simp [remaining, moved, ← lower] <;> omega

theorem blocked {s : State} {i : Bool} (stuck : step s i = none) :
    s.phase i = .finished ∨ (s.phase i = .starting ∧ s.locked i = true) ∨
      (s.phase i = .waiting ∧ s.arrived ≠ 2) := by
  unfold step at stuck
  cases phase : s.phase i with
  | trying =>
    simp only [phase] at stuck
    split at stuck <;> contradiction
  | _ => simp_all

/-- Whoever stands before a lock or the barrier has another thread to wait for, which can
    go on. -/
theorem exists_step {s : State} (invariant : Invariant s) {i : Bool}
    (unfinished : s.phase i ≠ .finished) : ∃ j next, step s j = some next := by
  cases stepped : step s i with
  | some next => exact ⟨i, next, stepped⟩
  | none =>
    cases steppedOther : step s (!i) with
    | some next => exact ⟨!i, next, steppedOther⟩
    | none =>
      have locks := (forall_thread i).mp invariant.locks
      have count := invariant.count i
      rcases blocked stepped with finished | ⟨starting, locked⟩ | ⟨waiting, closed⟩
      · exact absurd finished unfinished
      -- The lock is taken, but not by the thread that is named like it.
      · rcases blocked steppedOther with other | ⟨other, -⟩ | ⟨other, -⟩
        all_goals simp_all
      -- The barrier is closed, so the other thread is still before it.
      · rcases blocked steppedOther with other | ⟨other, locked⟩ | ⟨other, -⟩
        all_goals simp_all

/-- Whatever the order of the steps, the demonstration comes to an end, with both locks
    free, and reports a deadlock. -/
theorem deadlock_always_reported {s : State} (events : List Bool)
    (reached : run step start events = some s) :
    events.length ≤ 12 ∧
    ((∃ i, s.phase i ≠ .finished) → ∃ j next, step s j = some next) ∧
    ((∀ i, step s i = none) → (∀ i, s.phase i = .finished) ∧ s.result = true ∧
      ∀ lock, s.locked lock = false) := by
  have invariant := run_keeps_invariant reached
  have spent := length_add_rank remaining (fun _ _ _ => remaining_step) reached
  have all : remaining start = 12 := rfl
  refine ⟨by omega, ?_, ?_⟩
  · rintro ⟨i, unfinished⟩
    exact exists_step invariant unfinished
  · intro halted
    have finished (i : Bool) : s.phase i = .finished := by
      by_contra unfinished
      obtain ⟨j, next, stepped⟩ := exists_step invariant unfinished
      rw [halted j] at stepped
      contradiction
    refine ⟨finished, ?_, ?_⟩
    · rcases invariant.settled false (.inr (finished false)) with own | ⟨-, other⟩
      · simp [State.result, own]
      · simp [State.result, show s.deadlocked true = true from other]
    · intro lock
      rw [Bool.eq_false_iff, ne_eq, invariant.locks]
      simp [finished]

/-- `t1` gives up, and its lock is free in time for `t2`. -/
def firstGivesUp : List Bool :=
  [false, true, false, true, false, false, false, false, true, true, true, true]

theorem first_gives_up_alone :
    ∃ s, run step start firstGivesUp = some s ∧
      (s.deadlocked false = true ∧ s.deadlocked true = false) ∧ firstGivesUp.length ≤ 12 ∧
      s.result = true ∧ ∀ lock, s.locked lock = false := by
  have settled := deadlock_always_reported firstGivesUp rfl
  exact ⟨_, rfl, ⟨rfl, rfl⟩, settled.1, (settled.2.2 (by decide)).2⟩

end Excalibur.Deadlock.Demonstration
