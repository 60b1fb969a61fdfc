import Mathlib

/-! # Runs of a deterministic step function

A system is a partial step function: `step s e` is the state after event `e`, or
`none` when `e` cannot happen in `s`.  All nondeterminism (who moves next, what
the environment answers) is in the events, so a run is a list of events and a
state that it visits is the state after one of its initial parts.

* `run_invariant` packages the induction over a run once: what one step
  preserves, every visited state has.
* `all_states_iff_all_steps` is the guarded form.  When a property is kept by
  every step that meets a guard and broken by every step that does not, it holds
  in all visited states exactly of the runs whose steps all meet the guard.
-/

namespace Excalibur.Library

variable {σ ε : Type*}

/-- The state after the events of `events`, when each of them can happen in turn. -/
def run (step : σ → ε → Option σ) (start : σ) : List ε → Option σ
  | [] => some start
  | event :: events =>
    match step start event with
    | some next => run step next events
    | none => none

section Rules

variable {step : σ → ε → Option σ}

@[simp] theorem run_nil (start : σ) : run step start [] = some start := rfl

theorem run_cons {start : σ} {event : ε} {events : List ε} :
    run step start (event :: events) =
      (step start event).bind fun next => run step next events := by
  simp only [run]
  cases step start event <;> rfl

theorem run_append (start : σ) (first second : List ε) :
    run step start (first ++ second) =
      (run step start first).bind fun middle => run step middle second := by
  induction first generalizing start with
  | nil => rfl
  | cons event events ih =>
    simp only [List.cons_append, run_cons]
    cases step start event with
    | none => rfl
    | some next => exact ih next

theorem run_snoc {start finish : σ} {events : List ε} {event : ε} :
    run step start (events ++ [event]) = some finish ↔
      ∃ middle, run step start events = some middle ∧ step middle event = some finish := by
  rw [run_append]
  simp only [Option.bind_eq_some_iff, run_cons, run_nil]
  constructor
  · rintro ⟨middle, reached, next, stepped, ends⟩
    cases ends
    exact ⟨middle, reached, stepped⟩
  · rintro ⟨middle, reached, stepped⟩
    exact ⟨middle, reached, finish, stepped, rfl⟩

/-- `state` is the state after some initial part of `events`. -/
def Visited (step : σ → ε → Option σ) (start : σ) (events : List ε) (state : σ) : Prop :=
  ∃ before, before <+: events ∧ run step start before = some state

/-- In the run of `events`, the event `event` is taken in `state`. -/
def Taken (step : σ → ε → Option σ) (start : σ) (events : List ε) (state : σ) (event : ε) : Prop :=
  ∃ before after next, events = before ++ event :: after ∧
    run step start before = some state ∧ step state event = some next

theorem Taken.next {start state next : σ} {events : List ε} {event : ε}
    (taken : Taken step start events state event) (stepped : step state event = some next) :
    Visited step start events next := by
  obtain ⟨before, after, _, rfl, reached, -⟩ := taken
  refine ⟨before ++ [event], ⟨after, by simp⟩, ?_⟩
  exact run_snoc.mpr ⟨state, reached, stepped⟩

theorem Taken.visited {start state : σ} {events : List ε} {event : ε}
    (taken : Taken step start events state event) : Visited step start events state := by
  obtain ⟨before, after, _, rfl, reached, -⟩ := taken
  exact ⟨before, List.prefix_append _ _, reached⟩

theorem forall_taken_nil {start : σ} {motive : σ → ε → Prop} :
    ∀ state event, Taken step start [] state event → motive state event := by
  rintro state event ⟨before, after, _, split, -⟩
  simp at split

theorem forall_taken_cons {start : σ} {event : ε} {events : List ε} {motive : σ → ε → Prop} :
    (∀ state other, Taken step start (event :: events) state other → motive state other) ↔
      ∀ next, step start event = some next → motive start event ∧
        ∀ state other, Taken step next events state other → motive state other := by
  constructor
  · intro holds next stepped
    constructor
    · exact holds start event ⟨[], events, next, rfl, rfl, stepped⟩
    · rintro state other ⟨before, after, final, rfl, reached, steps⟩
      refine holds state other ⟨event :: before, after, final, rfl, ?_, steps⟩
      rw [run_cons, stepped]
      exact reached
  · rintro holds state other ⟨before, after, final, split, reached, steps⟩
    cases before with
    | nil =>
      cases split
      cases reached
      exact (holds final steps).1
    | cons first before =>
      cases split
      rw [run_cons] at reached
      obtain ⟨next, stepped, reached⟩ := Option.bind_eq_some_iff.mp reached
      exact (holds next stepped).2 state other ⟨before, after, final, rfl, reached, steps⟩

instance decidableForallTaken {motive : σ → ε → Prop} [∀ s e, Decidable (motive s e)] :
    (start : σ) → (events : List ε) →
      Decidable (∀ state event, Taken step start events state event → motive state event)
  | _, [] => .isTrue forall_taken_nil
  | start, event :: events =>
    match stepped : step start event with
    | none => .isTrue (forall_taken_cons.mpr (by simp [stepped]))
    | some next =>
      have rest : Decidable (∀ state other, Taken step next events state other →
          motive state other) := decidableForallTaken next events
      decidable_of_iff (motive start event ∧
          ∀ state other, Taken step next events state other → motive state other)
        (by simp [forall_taken_cons, stepped])

/-- Induction along a run, with the taken steps at hand: what holds at the start
    and is kept by every step the run takes holds in every state it visits. -/
theorem visited_induction {motive : σ → Prop} {start : σ} {events : List ε}
    (initial : motive start)
    (preserved : ∀ state event next, Taken step start events state event →
      step state event = some next → motive state → motive next) :
    ∀ state, Visited step start events state → motive state := by
  rintro state ⟨before, ⟨after, rfl⟩, reached⟩
  -- Induction from the end of the part that has been run: its last step is one that is taken.
  induction before using List.reverseRecOn generalizing state after with
  | nil =>
    cases reached
    exact initial
  | append_singleton earlier event ih =>
    obtain ⟨middle, reachedMiddle, stepped⟩ := run_snoc.mp reached
    have taken : Taken step start (earlier ++ [event] ++ after) middle event :=
      ⟨earlier, after, state, by simp, reachedMiddle, stepped⟩
    have atMiddle : motive middle := by
      apply ih middle reachedMiddle (event :: after)
      intro state other next takenHere
      exact preserved state other next (by simpa using takenHere)
    exact preserved middle event state taken stepped atMiddle

theorem forall_visited_iff {motive : σ → Prop} {start : σ} {events : List ε} :
    (∀ state, Visited step start events state → motive state) ↔
      motive start ∧
        ∀ state event, Taken step start events state event → ∀ next ∈ step state event,
          motive next := by
  constructor
  · intro holds
    refine ⟨holds start ⟨[], List.nil_prefix, rfl⟩, ?_⟩
    intro state event taken next stepped
    exact holds next (taken.next stepped)
  · rintro ⟨initial, steps⟩
    apply visited_induction initial
    intro state event next taken stepped _
    exact steps state event taken next stepped

/-- An invariant of the step function holds in every visited state. -/
theorem run_invariant {invariant : σ → Prop} {start : σ} (initial : invariant start)
    (preserved : ∀ state event next, step state event = some next → invariant state →
      invariant next) (events : List ε) :
    ∀ state, Visited step start events state → invariant state :=
  visited_induction initial fun state event next _ => preserved state event next

/-- When every step lowers a rank, a run can always be brought to a halt. -/
theorem exists_halted (rank : σ → Nat)
    (lowers : ∀ state event next, step state event = some next → rank next < rank state)
    (start : σ) :
    ∃ events finish, run step start events = some finish ∧ ∀ event, step finish event = none := by
  induction start using (measure rank).wf.induction with
  | _ start ih =>
    by_cases halted : ∀ event, step start event = none
    · exact ⟨[], start, rfl, halted⟩
    · obtain ⟨event, moves⟩ := not_forall.mp halted
      obtain ⟨next, stepped⟩ := Option.ne_none_iff_exists'.mp moves
      obtain ⟨events, finish, reached, ends⟩ := ih next (lowers start event next stepped)
      refine ⟨event :: events, finish, ?_, ends⟩
      rw [run_cons, stepped]
      exact reached

/-- When every step lowers a rank by one, the rank at the start counts the steps. -/
theorem length_add_rank (rank : σ → Nat)
    (lowers : ∀ state event next, step state event = some next → rank next + 1 = rank state)
    {start finish : σ} {events : List ε} (reached : run step start events = some finish) :
    events.length + rank finish = rank start := by
  induction events generalizing start with
  | nil =>
    cases reached
    exact Nat.zero_add _
  | cons event events ih =>
    rw [run_cons] at reached
    obtain ⟨next, stepped, reached⟩ := Option.bind_eq_some_iff.mp reached
    have rest := ih reached
    have first := lowers start event next stepped
    rw [List.length_cons]
    omega

/-- One party that comes nearer to its goal with every step gets there by itself. -/
theorem exists_run_alone {background goal : σ → Prop} {event : ε} (rank : σ → Nat)
    (nearer : ∀ state, background state → ¬ goal state → ∃ next, step state event = some next ∧
      background next ∧ rank next < rank state) {start : σ} (holds : background start) :
    ∃ count finish, count ≤ rank start ∧
      run step start (List.replicate count event) = some finish ∧ background finish ∧
      goal finish := by
  induction start using (measure rank).wf.induction with
  | _ start ih =>
    by_cases done : goal start
    · exact ⟨0, start, Nat.zero_le _, rfl, holds, done⟩
    · obtain ⟨next, stepped, kept, lower⟩ := nearer start holds done
      obtain ⟨count, finish, few, reached, ends⟩ := ih next lower kept
      refine ⟨count + 1, finish, by omega, ?_, ends⟩
      rw [List.replicate_succ, run_cons, stepped]
      exact reached

/-- Goals that are reached one after the other, each without giving up another. -/
theorem exists_run_each {ι : Type*} {background : σ → Prop} {goal : ι → σ → Prop}
    (each : ∀ i start, background start → ∃ events finish, run step start events = some finish ∧
      background finish ∧ goal i finish ∧ ∀ j, goal j start → goal j finish)
    (parties : List ι) {start : σ} (holds : background start) :
    ∃ events finish, run step start events = some finish ∧ background finish ∧
      ∀ i ∈ parties, goal i finish := by
  induction parties with
  | nil => exact ⟨[], start, rfl, holds, by simp⟩
  | cons i parties ih =>
    obtain ⟨first, middle, reachedMiddle, middleHolds, others⟩ := ih
    obtain ⟨second, finish, reached, finishHolds, own, kept⟩ := each i middle middleHolds
    refine ⟨first ++ second, finish, ?_, finishHolds, ?_⟩
    · rw [run_append, reachedMiddle]
      exact reached
    · intro j member
      rcases List.mem_cons.mp member with rfl | other
      · exact own
      · exact kept j (others j other)

theorem visited_finish {start finish : σ} {events : List ε}
    (reached : run step start events = some finish) : Visited step start events finish :=
  ⟨events, List.prefix_refl _, reached⟩

/-- The guarded invariant rule.  `good` is what is asked of the visited states,
    `invariant` strengthens it, and a step off the guard is visible in the state
    it leads to; `background` holds in every run, whatever its steps. -/
theorem all_states_iff_all_steps (background invariant : σ → Prop) {good : σ → Prop}
    {guard : σ → ε → Prop} {start : σ} {events : List ε}
    (backgroundRun : ∀ state, Visited step start events state → background state)
    (initial : invariant start)
    (implies : ∀ state, background state → invariant state → good state)
    (kept : ∀ state event next, background state → invariant state → guard state event →
      step state event = some next → invariant next)
    (broken : ∀ state event next, background state → ¬ guard state event →
      step state event = some next → ¬ good next) :
    (∀ state, Visited step start events state → good state) ↔
      ∀ state event, Taken step start events state event → guard state event := by
  constructor
  · intro allGood state event taken
    -- A step off the guard would lead to a visited state that is not good.
    by_contra offGuard
    obtain ⟨_, _, next, _, _, stepped⟩ := id taken
    exact broken state event next (backgroundRun state taken.visited) offGuard stepped
      (allGood next (taken.next stepped))
  · intro allGuarded state visited
    apply implies state (backgroundRun state visited)
    refine visited_induction initial ?_ state visited
    intro state event next taken stepped holds
    exact kept state event next (backgroundRun state taken.visited) holds
      (allGuarded state event taken) stepped

end Rules

end Excalibur.Library
