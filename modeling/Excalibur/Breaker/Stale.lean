import Excalibur.Breaker.History

/-! # Results of calls from before the last state change

A completion carries no record of the state its call was admitted in.  A late
failure can trip the breaker again or restart its cooldown, and a late success
counts as a probe.  `stale_results_inert_iff` names the steps that do so: stale
results drive the breaker exactly in the runs that take one of them.
-/

namespace Excalibur.Breaker

open Excalibur.Library

variable {T : Type}

/-! ## What is asked of a step -/

def freshSuccesses (completions : List Completion) : Nat :=
  completions.countP fun completion => !completion.stale && !completion.failed

theorem length_le_freshSuccesses_iff {completions : List Completion}
    (succeeded : ∀ completion ∈ completions, completion.failed = false) :
    completions.length ≤ freshSuccesses completions ↔
      ∀ completion ∈ completions, completion.stale = false := by
  have most : freshSuccesses completions ≤ completions.length := List.countP_le_length
  have full : completions.length ≤ freshSuccesses completions ↔
      freshSuccesses completions = completions.length :=
    ⟨fun least => Nat.le_antisymm most least, fun equal => equal.ge⟩
  rw [full, freshSuccesses, List.countP_eq_length]
  apply forall₂_congr
  intro completion member
  simp [succeeded completion member]

/-- Stale completions change neither the state nor `_opened_at`; the half-open
    state is closed only after enough successes of calls admitted since it was
    entered; and once the cooldown has elapsed since the trip, at or after its
    clock reading plus `cooldown`, an admission check lets its call through. -/
structure StaleInert [LinearOrder T] [Sub T] (o : Observed T) (event : Event T)
    (next : Observed T) : Prop where
  inert : ∀ completion, completionOf o.system event = some completion → completion.stale = true →
    next.system.breaker.state = o.system.breaker.state ∧
      next.system.breaker.openedAt = o.system.breaker.openedAt
  closes : o.system.breaker.state = .halfOpen → next.system.breaker.state = .closed →
    o.system.breaker.successThreshold ≤
      freshSuccesses ((completionOf o.system event).toList ++ o.since)
  admits : ∀ id now, event = .arrive id now → o.system.breaker.state = .opened →
    o.system.breaker.cooldown ≤ now - o.changedAt → (admission o.system.breaker now).1 = true

/-- A stale failure does not come while the breaker is half open and does not fill
    the failure count, unless the breaker is open and its clock reading is
    `_opened_at`; and a success does not close the breaker when it is stale or a
    success before it in the half-open state was. -/
def Harmless (o : Observed T) : Event T → Prop
  | .arrive _ _ => True
  | .succeed id =>
    o.system.breaker.state = .halfOpen →
      o.system.breaker.successThreshold ≤ o.system.breaker.successes + 1 →
        ¬ Stale o.system id ∧ ∀ completion ∈ o.since, completion.stale = false
  | .fail id now =>
    Stale o.system id → o.system.breaker.state ≠ .halfOpen ∧
      (o.system.breaker.failThreshold ≤ o.system.breaker.failures + 1 →
        o.system.breaker.state = .opened ∧ now = o.system.breaker.openedAt)

/-! ## What holds in every run -/

/-- In the half-open state the successes are counted one by one and are too few;
    while the breaker is open, all running calls are stale. -/
structure Tracked (o : Observed T) : Prop where
  admittedBefore : AdmittedBefore o.system
  allStale : o.system.breaker.state = .opened →
    ∀ call ∈ o.system.running, call.admitted < o.system.changes
  succeeded : o.system.breaker.state = .halfOpen →
    ∀ completion ∈ o.since, completion.failed = false
  successes : o.system.breaker.state = .halfOpen →
    o.system.breaker.successes = o.since.length
  tooFew : o.system.breaker.state = .halfOpen → o.since ≠ [] →
    o.system.breaker.successes < o.system.breaker.successThreshold

theorem tracked_start [Zero T] (failThreshold : Int) (cooldown : T) (successThreshold : Int)
    (now : T) : Tracked (observedStart failThreshold cooldown successThreshold now) where
  admittedBefore := by simp [AdmittedBefore, observedStart, start]
  allStale := by simp [observedStart, start]
  succeeded := by simp [observedStart, start, newBreaker]
  successes := by simp [observedStart, start, newBreaker]
  tooFew := by simp [observedStart]

/-- A success that does not close the breaker is counted. -/
theorem onSuccess_counts {b : CircuitBreaker T} (halfOpen : b.state = .halfOpen)
    (few : ¬ b.successThreshold ≤ b.successes + 1) :
    (onSuccess b).successes = b.successes + 1 ∧
      (onSuccess b).successThreshold = b.successThreshold := by
  simp [onSuccess, halfOpen, few]

theorem tracked_succeed {o : Observed T} {id : Nat} {now : T} (tracked : Tracked o)
    (admitted : AdmittedBefore (o.system.complete id (onSuccess o.system.breaker) now)) :
    Tracked (o.after (.succeed id) (o.system.complete id (onSuccess o.system.breaker) now)) := by
  have state : (o.system.complete id (onSuccess o.system.breaker) now).breaker.state = _ :=
    onSuccess_state o.system.breaker
  by_cases closing : o.system.breaker.state = .halfOpen ∧
      o.system.breaker.successThreshold ≤ o.system.breaker.successes + 1
  · rw [if_pos closing] at state
    have changed : (o.system.complete id (onSuccess o.system.breaker) now).breaker.state ≠
        o.system.breaker.state := by
      rw [state, closing.1]
      decide
    -- the success that closes the breaker starts a new history
    rw [Observed.after_changed changed]
    refine ⟨admitted, ?_, ?_, ?_, ?_⟩
    · simp [state]
    · simp [state]
    · simp [state]
    · simp
  · rw [if_neg closing] at state
    -- any other success joins the history of the state it leaves as it is
    rw [Observed.after_same state]
    refine ⟨admitted, ?_, ?_, ?_, ?_⟩
    · intro opened call member
      have unchanged : (o.system.complete id (onSuccess o.system.breaker) now).changes =
          o.system.changes := if_pos state
      rw [unchanged]
      exact tracked.allStale (state.symm.trans opened) call (List.mem_of_mem_filter member)
    · intro halfOpen completion member
      rcases List.mem_cons.mp member with rfl | earlier
      · rfl
      · exact tracked.succeeded (state.symm.trans halfOpen) completion earlier
    · intro halfOpen
      have before := state.symm.trans halfOpen
      have counted := onSuccess_counts before fun enough => closing ⟨before, enough⟩
      simp [System.complete, counted, completionOf, tracked.successes before]
    · intro halfOpen _
      have before := state.symm.trans halfOpen
      have few : ¬ o.system.breaker.successThreshold ≤ o.system.breaker.successes + 1 :=
        fun enough => closing ⟨before, enough⟩
      simp only [System.complete, onSuccess_counts before few]
      omega

theorem tracked_fail {o : Observed T} {id : Nat} {now : T} (tracked : Tracked o)
    (admitted : AdmittedBefore (o.system.complete id (onFailure o.system.breaker now) now)) :
    Tracked (o.after (.fail id now) (o.system.complete id (onFailure o.system.breaker now) now)) := by
  have state : (o.system.complete id (onFailure o.system.breaker now) now).breaker.state = _ :=
    onFailure_state o.system.breaker now
  have notProbing : (o.system.complete id (onFailure o.system.breaker now) now).breaker.state ≠
      .halfOpen := by
    rw [state]
    split
    · decide
    · rename_i quiet
      exact fun halfOpen => quiet (.inl halfOpen)
  -- a failure leads to no half-open state, so only the open one asks for anything
  refine ⟨?_, ?_, ?_, ?_, ?_⟩
  · rw [Observed.after_system]
    exact admitted
  · rw [Observed.after_system]
    intro opened call member
    have inRunning : call ∈ o.system.running := List.mem_of_mem_filter member
    by_cases same : (o.system.complete id (onFailure o.system.breaker now) now).breaker.state =
        o.system.breaker.state
    · have unchanged : (o.system.complete id (onFailure o.system.breaker now) now).changes =
          o.system.changes := if_pos same
      rw [unchanged]
      exact tracked.allStale (same.symm.trans opened) call inRunning
    · -- The trip itself makes every running call stale.
      have counted : (o.system.complete id (onFailure o.system.breaker now) now).changes =
          o.system.changes + 1 := if_neg same
      rw [counted]
      exact Nat.lt_succ_of_le (tracked.admittedBefore call inRunning)
  · rw [Observed.after_system]
    exact fun halfOpen => absurd halfOpen notProbing
  · rw [Observed.after_system]
    exact fun halfOpen => absurd halfOpen notProbing
  · rw [Observed.after_system]
    exact fun halfOpen => absurd halfOpen notProbing

variable [LinearOrder T] [Sub T]

theorem tracked_arrive {o : Observed T} {id : Nat} {now : T} (tracked : Tracked o)
    (admitted : AdmittedBefore (o.system.arrive id now)) :
    Tracked (o.after (.arrive id now) (o.system.arrive id now)) := by
  cases state : o.system.breaker.state with
  | closed =>
    have closed : (admission o.system.breaker now).2.state = .closed := by
      simp [admission_state, state]
    have still : (o.system.arrive id now).breaker.state = .closed := closed
    rw [Observed.after_same (still.trans state.symm)]
    refine ⟨admitted, ?_, ?_, ?_, ?_⟩
    · simp [still]
    · simp [still]
    · simp [still]
    · simp [still]
  | opened =>
    by_cases elapsed : o.system.breaker.cooldown ≤ now - o.system.breaker.openedAt
    · -- The probe: nothing has been processed since the change that it makes.
      have probing : (o.system.arrive id now).breaker.state = .halfOpen := by
        simp [System.arrive, admission, state, elapsed]
      have changed : (o.system.arrive id now).breaker.state ≠ o.system.breaker.state := by
        rw [probing, state]
        decide
      rw [Observed.after_changed changed]
      refine ⟨admitted, ?_, ?_, ?_, ?_⟩
      · simp [probing]
      · simp
      · simp [System.arrive, admission, state, elapsed]
      · simp
    · have stays : (o.system.arrive id now).breaker.state = .opened := by
        simp [System.arrive, admission, state, elapsed]
      have running : (o.system.arrive id now).running = o.system.running := by
        simp [System.arrive, admission, state, elapsed]
      have changes : (o.system.arrive id now).changes = o.system.changes := by
        simp [System.arrive, admission, state, elapsed, System.changesAfter]
      rw [Observed.after_same (stays.trans state.symm)]
      refine ⟨admitted, ?_, ?_, ?_, ?_⟩
      · simpa [running, changes] using fun _ => tracked.allStale state
      · simp [stays]
      · simp [stays]
      · simp [stays]
  | halfOpen =>
    -- the half-open breaker admits every call and stays as it is
    have same : (o.system.arrive id now).breaker = o.system.breaker := by
      simp [System.arrive, admission, state]
    rw [Observed.after_same (by rw [same])]
    refine ⟨admitted, ?_, ?_, ?_, ?_⟩
    · simp [same, state]
    · simpa [same, completionOf] using tracked.succeeded
    · simpa [same, completionOf] using tracked.successes
    · simpa [same, completionOf] using tracked.tooFew

theorem tracked_step {o next : Observed T} {event : Event T} (stepped : observe o event = some next)
    (tracked : Tracked o) : Tracked next := by
  obtain ⟨s, taken, rfl⟩ := observe_eq_some.mp stepped
  have admitted := admittedBefore_step taken tracked.admittedBefore
  obtain ⟨id, now, rfl, -, -, rfl⟩ | ⟨id, rfl, -, rfl⟩ | ⟨id, now, rfl, -, -, rfl⟩ :=
    step_cases taken
  · exact tracked_arrive tracked admitted
  · exact tracked_succeed tracked admitted
  · exact tracked_fail tracked admitted

/-! ## Harmless steps -/

theorem harmless_of_staleInert {o next : Observed T} {event : Event T} (tracked : Tracked o)
    (stepped : observe o event = some next) (inert : StaleInert o event next) :
    Harmless o event := by
  obtain ⟨s, taken, rfl⟩ := observe_eq_some.mp stepped
  obtain ⟨id, now, rfl, -, -, rfl⟩ | ⟨id, rfl, -, rfl⟩ | ⟨id, now, rfl, -, -, rfl⟩ :=
    step_cases taken
  · exact trivial
  · intro halfOpen enough
    have closed : (onSuccess o.system.breaker).state = .closed := by
      rw [onSuccess_state, if_pos ⟨halfOpen, enough⟩]
    have fresh := inert.closes halfOpen (by rw [Observed.after_system]; exact closed)
    have notStale : ¬ Stale o.system id := by
      intro stale
      have kept := (inert.inert _ rfl (by simpa using stale)).1
      rw [Observed.after_system] at kept
      rw [halfOpen] at kept
      exact absurd (closed.symm.trans kept) (by decide)
    refine ⟨notStale, ?_⟩
    by_cases first : o.since = []
    · simp [first]
    · -- The count was one short, so every success before this one was needed.
      have few := tracked.tooFew halfOpen first
      rw [tracked.successes halfOpen] at few enough
      apply (length_le_freshSuccesses_iff (tracked.succeeded halfOpen)).mp
      simp only [completionOf, notStale, freshSuccesses] at fresh ⊢
      simp at fresh
      omega
  · intro stale
    obtain ⟨state, openedAt⟩ := inert.inert _ rfl (by simpa using stale)
    rw [Observed.after_system] at state openedAt
    have stateAfter : (onFailure o.system.breaker now).state = o.system.breaker.state := state
    have openedAtAfter : (onFailure o.system.breaker now).openedAt = o.system.breaker.openedAt :=
      openedAt
    rw [onFailure_state] at stateAfter
    rw [onFailure_openedAt] at openedAtAfter
    refine ⟨fun halfOpen => ?_, fun full => ?_⟩
    -- a stale failure would open the half-open breaker
    · rw [if_pos (.inl halfOpen), halfOpen] at stateAfter
      contradiction
    -- or trip the closed one, or move the clock of the open one
    · rw [if_pos (.inr full)] at stateAfter openedAtAfter
      exact ⟨stateAfter.symm, openedAtAfter⟩

/-- The cooldown counts from the trip. -/
def Settled (o : Observed T) : Prop :=
  o.system.breaker.state = .opened → o.system.breaker.openedAt = o.changedAt

theorem staleInert_arrive {o : Observed T} {id : Nat} {now : T} (settled : Settled o) :
    StaleInert o (.arrive id now) (o.after (.arrive id now) (o.system.arrive id now)) := by
  refine ⟨by simp [completionOf], ?_, ?_⟩
  · intro halfOpen closed
    rw [Observed.after_system] at closed
    have before : o.system.breaker.state = .closed := closed_of_admission closed
    rw [halfOpen] at before
    contradiction
  · rintro _ _ ⟨⟩ opened elapsed
    rw [← settled opened] at elapsed
    simp [admission, opened, elapsed]

theorem staleInert_succeed {o : Observed T} {id : Nat} {now : T} (tracked : Tracked o)
    (harmless : Harmless o (.succeed id)) :
    StaleInert o (.succeed id)
      (o.after (.succeed id) (o.system.complete id (onSuccess o.system.breaker) now)) := by
  refine ⟨?_, ?_, by simp⟩
  · rintro _ ⟨⟩ stale
    rw [Observed.after_system]
    refine ⟨?_, onSuccess_openedAt _⟩
    -- A stale success that closed the breaker would not be harmless.
    have closing : ¬ (o.system.breaker.state = .halfOpen ∧
        o.system.breaker.successThreshold ≤ o.system.breaker.successes + 1) := by
      rintro ⟨halfOpen, enough⟩
      exact (harmless halfOpen enough).1 (by simpa using stale)
    exact (onSuccess_state _).trans (if_neg closing)
  · intro halfOpen closed
    rw [Observed.after_system] at closed
    have enough : o.system.breaker.successThreshold ≤ o.system.breaker.successes + 1 :=
      enough_of_onSuccess_closed halfOpen closed
    obtain ⟨fresh, before⟩ := harmless halfOpen enough
    have counted := (length_le_freshSuccesses_iff (tracked.succeeded halfOpen)).mpr before
    rw [tracked.successes halfOpen] at enough
    simp only [completionOf, fresh, freshSuccesses] at counted ⊢
    simp
    omega

theorem staleInert_fail {o : Observed T} {id : Nat} {now : T} (harmless : Harmless o (.fail id now)) :
    StaleInert o (.fail id now)
      (o.after (.fail id now) (o.system.complete id (onFailure o.system.breaker now) now)) := by
  refine ⟨?_, ?_, by simp⟩
  · rintro _ ⟨⟩ stale
    obtain ⟨notHalfOpen, full⟩ := harmless (by simpa using stale)
    rw [Observed.after_system]
    have state := onFailure_state o.system.breaker now
    have openedAt := onFailure_openedAt o.system.breaker now
    simp only [notHalfOpen, false_or] at state openedAt
    by_cases fills : o.system.breaker.failThreshold ≤ o.system.breaker.failures + 1
    -- the trip sets the state and the clock to what they are already
    · obtain ⟨opened, atTrip⟩ := full fills
      rw [if_pos fills] at state openedAt
      exact ⟨state.trans opened.symm, openedAt.trans atTrip⟩
    · rw [if_neg fills] at state openedAt
      exact ⟨state, openedAt⟩
  · intro halfOpen closed
    rw [Observed.after_system] at closed
    exact absurd closed (onFailure_ne_closed halfOpen)

theorem staleInert_of_harmless {o next : Observed T} {event : Event T} (tracked : Tracked o)
    (settled : Settled o) (stepped : observe o event = some next) (harmless : Harmless o event) :
    StaleInert o event next := by
  obtain ⟨s, taken, rfl⟩ := observe_eq_some.mp stepped
  obtain ⟨id, now, rfl, -, -, rfl⟩ | ⟨id, rfl, -, rfl⟩ | ⟨id, now, rfl, -, -, rfl⟩ :=
    step_cases taken
  · exact staleInert_arrive settled
  · exact staleInert_succeed tracked harmless
  · exact staleInert_fail harmless

/-- A failure that trips the breaker sets the clock that the cooldown counts from. -/
theorem settled_fail {o : Observed T} {id : Nat} {now : T} (tracked : Tracked o)
    (settled : Settled o) (harmless : Harmless o (.fail id now)) :
    Settled (o.after (.fail id now) (o.system.complete id (onFailure o.system.breaker now) now)) := by
  intro opened
  rw [Observed.after_system] at opened
  by_cases before : o.system.breaker.state = .opened
  · -- All calls that run while the breaker is open are stale, this one too.
    have stale : Stale o.system id := fun call member _ => tracked.allStale before call member
    have kept := ((staleInert_fail harmless).inert _ rfl (by simpa using stale)).2
    rw [Observed.after_system] at kept
    rw [Observed.after_same (opened.trans before.symm)]
    exact kept.trans (settled before)
  · have changed : (o.system.complete id (onFailure o.system.breaker now) now).breaker.state ≠
        o.system.breaker.state := by
      rw [opened]
      exact fun same => before same.symm
    rw [Observed.after_changed changed]
    exact (onFailure_openedAt _ _).trans (if_pos (trips_of_onFailure_opened before opened))

theorem settled_step {o next : Observed T} {event : Event T} (tracked : Tracked o)
    (settled : Settled o) (stepped : observe o event = some next) (harmless : Harmless o event) :
    Settled next := by
  obtain ⟨s, taken, rfl⟩ := observe_eq_some.mp stepped
  obtain ⟨id, now, rfl, -, -, rfl⟩ | ⟨id, rfl, -, rfl⟩ | ⟨id, now, rfl, -, -, rfl⟩ :=
    step_cases taken
  · intro opened
    rw [Observed.after_system] at opened
    -- neither an arrival nor a success opens the breaker
    have before : o.system.breaker.state = .opened := opened_of_admission opened
    rw [Observed.after_same (opened.trans before.symm)]
    exact admission_openedAt.trans (settled before)
  · intro opened
    rw [Observed.after_system] at opened
    have before : o.system.breaker.state = .opened := opened_of_onSuccess opened
    rw [Observed.after_same (opened.trans before.symm)]
    exact (onSuccess_openedAt _).trans (settled before)
  · exact settled_fail tracked settled harmless

/-! ## Whole runs -/

/-- Stale results drive nothing in a run exactly when all its steps are harmless. -/
theorem stale_results_inert_iff [Zero T] (failThreshold : Int) (cooldown : T)
    (successThreshold : Int) (now : T) (events : List (Event T)) :
    (∀ o event next,
      Taken observe (observedStart failThreshold cooldown successThreshold now) events o event →
      observe o event = some next → StaleInert o event next) ↔
    ∀ o event,
      Taken observe (observedStart failThreshold cooldown successThreshold now) events o event →
      Harmless o event := by
  have tracked : ∀ o,
      Visited observe (observedStart failThreshold cooldown successThreshold now) events o →
        Tracked o :=
    run_invariant (tracked_start failThreshold cooldown successThreshold now)
      (fun o event next stepped before => tracked_step stepped before) events
  constructor
  · intro inert o event taken
    obtain ⟨_, _, next, _, _, stepped⟩ := id taken
    exact harmless_of_staleInert (tracked o taken.visited) stepped (inert o event next taken stepped)
  · intro harmless o event next taken stepped
    -- While every step is harmless, an open breaker opened at the last change of its state.
    have begins : Settled (observedStart failThreshold cooldown successThreshold now) := by
      simp [Settled, observedStart, start, newBreaker]
    have settled := visited_induction begins
      (fun o event next taken stepped settled =>
        settled_step (tracked o taken.visited) settled stepped (harmless o event taken))
      o taken.visited
    exact staleInert_of_harmless (tracked o taken.visited) settled stepped (harmless o event taken)

/-- Two calls are admitted and fail, the second of them five ticks after the first
    has tripped the breaker; a call arrives when the cooldown of ten is over. -/
def lateFailure : List (Event Int) :=
  [.arrive 0 0, .arrive 1 0, .fail 0 0, .fail 1 5, .arrive 2 10]

/-- The late failure restarts the cooldown, and the probe is rejected. -/
theorem lateFailure_restarts_cooldown :
    (run observe (observedStart 1 10 1 0) (lateFailure.take 3)).map
        (fun o => (o.system.breaker.openedAt, o.changedAt)) = some (0, 0) ∧
      (run observe (observedStart 1 10 1 0) (lateFailure.take 4)).map
        (fun o => (o.system.breaker.openedAt, o.changedAt)) = some (5, 0) ∧
      (run observe (observedStart 1 10 1 0) lateFailure).map
        (fun o => (o.system.breaker.state, o.system.breaker.rejectedCalls)) = some (.opened, 1) ∧
      ¬ ∀ o event next, Taken observe (observedStart 1 10 1 0) lateFailure o event →
        observe o event = some next → StaleInert o event next := by
  refine ⟨by decide, by decide, by decide, fun inert => ?_⟩
  have late : Taken observe (observedStart 1 10 1 (0 : Int)) lateFailure
      ((run observe (observedStart 1 10 1 0) (lateFailure.take 3)).get (by decide)) (.fail 1 5) :=
    ⟨lateFailure.take 3, [.arrive 2 10], _, rfl, rfl, rfl⟩
  have kept := (inert _ _ _ late rfl).inert ⟨true, true⟩ (by decide) rfl
  exact absurd kept.2 (by decide)

end Excalibur.Breaker
