import Excalibur.Breaker.History

/-! # Tripping and failing fast

While the breaker is closed its failure counter is the length of the current run
of failures in the observed history, so it trips exactly at the completion that
makes the last `fail_threshold` of them failures.  Completions that arrive while
it is open or half open move the counter too, but the half-open state is the only
way back and resets it.
-/

namespace Excalibur.Breaker

open Excalibur.Library

variable {T : Type}

/-! ## Runs of failures -/

def failureRun (completions : List Completion) : Nat :=
  (completions.takeWhile fun completion => completion.failed).length

/-- The last `count` completions are there and are all failures. -/
def LastFailed (count : Int) (completions : List Completion) : Prop :=
  count ≤ completions.length ∧
    ∀ completion ∈ completions.take count.toNat, completion.failed = true

theorem le_failureRun_iff {n : Nat} {completions : List Completion} :
    n ≤ failureRun completions ↔
      n ≤ completions.length ∧ ∀ completion ∈ completions.take n, completion.failed = true := by
  induction completions generalizing n with
  | nil => simp [failureRun]
  | cons completion completions ih =>
    cases n with
    | zero => simp
    | succ n =>
      cases failed : completion.failed with
      | false => simp [failureRun, failed]
      | true =>
        simp only [failureRun, List.takeWhile_cons, failed, if_true, List.length_cons,
          Nat.add_le_add_iff_right, List.take_succ_cons, List.mem_cons, forall_eq_or_imp, true_and]
        exact ih

theorem lastFailed_iff {count : Int} {completions : List Completion} :
    LastFailed count completions ↔ count ≤ failureRun completions := by
  have nat : count ≤ failureRun completions ↔ count.toNat ≤ failureRun completions := by omega
  rw [nat, le_failureRun_iff, LastFailed]
  have length : count ≤ completions.length ↔ count.toNat ≤ completions.length := by omega
  rw [length]

theorem failureRun_failed {completion : Completion} (failed : completion.failed = true)
    (completions : List Completion) :
    failureRun (completion :: completions) = failureRun completions + 1 := by
  simp [failureRun, failed]

theorem failureRun_succeeded {completion : Completion} (succeeded : completion.failed = false)
    (completions : List Completion) : failureRun (completion :: completions) = 0 := by
  simp [failureRun, succeeded]

/-! ## The rules -/

/-- While closed, `_failures` is the length of the current run of failures and is
    below the threshold. -/
structure CountsFailures (failThreshold : Int) (o : Observed T) : Prop where
  threshold : o.system.breaker.failThreshold = failThreshold
  counted : o.system.breaker.state = .closed →
    o.system.breaker.failures = failureRun o.since ∧ o.system.breaker.failures < failThreshold

/-- From closed the breaker goes to open only, at exactly the completion that makes
    the last `failThreshold` completions since it closed all failures. -/
structure TripsExactly (failThreshold : Int) (o : Observed T) (event : Event T)
    (next : Observed T) : Prop where
  opens : o.system.breaker.state = .closed →
    next.system.breaker.state = .closed ∨ next.system.breaker.state = .opened
  trips : o.system.breaker.state = .closed →
    (next.system.breaker.state ≠ .closed ↔ ∃ completion,
      completionOf o.system event = some completion ∧
        LastFailed failThreshold (completion :: o.since))

/-! ## The counter after a completion -/

theorem onSuccess_rejectedCalls (b : CircuitBreaker T) :
    (onSuccess b).rejectedCalls = b.rejectedCalls := by
  unfold onSuccess
  split
  · simp only
    split <;> rfl
  · rfl

theorem onFailure_rejectedCalls (b : CircuitBreaker T) (now : T) :
    (onFailure b now).rejectedCalls = b.rejectedCalls := by
  unfold onFailure
  split
  · rfl
  · simp only
    split <;> rfl

theorem onSuccess_failures {b : CircuitBreaker T} (closed : (onSuccess b).state = .closed) :
    (onSuccess b).failures = 0 := by
  unfold onSuccess at closed ⊢
  split
  · rename_i halfOpen
    simp only [halfOpen] at closed ⊢
    split
    · rfl
    · rename_i few
      simp [few] at closed
  · rfl

theorem onFailure_failures {b : CircuitBreaker T} (closed : b.state = .closed) (now : T) :
    (onFailure b now).failures = b.failures + 1 := by
  simp only [onFailure, closed]
  split <;> rfl

theorem countsFailures_succeed {failThreshold : Int} (positive : 1 ≤ failThreshold) {o : Observed T}
    {id : Nat} {next : System T} (breaker : next.breaker = onSuccess o.system.breaker)
    (counts : CountsFailures failThreshold o) :
    TripsExactly failThreshold o (.succeed id) (o.after (.succeed id) next) ∧
      CountsFailures failThreshold (o.after (.succeed id) next) := by
  have threshold : (onSuccess o.system.breaker).failThreshold = failThreshold :=
    (onSuccess_failThreshold _).trans counts.threshold
  have state := onSuccess_state o.system.breaker
  refine ⟨⟨fun closed => ?_, fun closed => ?_⟩, ⟨?_, fun closed => ?_⟩⟩
  · left
    rw [Observed.after_system, breaker, state, closed]
    simp
  · rw [Observed.after_system, breaker, state, closed]
    -- a success ends the run of failures, and the threshold is positive
    have notFailed : ¬ LastFailed failThreshold
        (⟨decide (Stale o.system id), false⟩ :: o.since) := by
      rw [lastFailed_iff, failureRun_succeeded rfl]
      omega
    simp [completionOf, notFailed]
  · simpa [breaker] using threshold
  · rw [Observed.after_system] at closed ⊢
    rw [breaker] at closed ⊢
    rw [onSuccess_failures closed]
    -- whether or not the history begins anew, no failure is in front
    have nothing : failureRun (o.after (.succeed id) next).since = 0 := by
      unfold Observed.after
      split
      · exact failureRun_succeeded rfl _
      · rfl
    rw [nothing]
    exact ⟨rfl, by omega⟩

theorem countsFailures_fail {failThreshold : Int} {o : Observed T} {id : Nat} {now : T}
    {next : System T} (breaker : next.breaker = onFailure o.system.breaker now)
    (counts : CountsFailures failThreshold o) :
    TripsExactly failThreshold o (.fail id now) (o.after (.fail id now) next) ∧
      CountsFailures failThreshold (o.after (.fail id now) next) := by
  have threshold : (onFailure o.system.breaker now).failThreshold = failThreshold :=
    (onFailure_failThreshold _ _).trans counts.threshold
  have state := onFailure_state o.system.breaker now
  rw [counts.threshold] at state
  by_cases closed : o.system.breaker.state = .closed
  · obtain ⟨failures, below⟩ := counts.counted closed
    have full : LastFailed failThreshold (⟨decide (Stale o.system id), true⟩ :: o.since) ↔
        failThreshold ≤ o.system.breaker.failures + 1 := by
      rw [lastFailed_iff, failureRun_failed rfl, failures]
      simp
    simp only [closed, reduceCtorEq, false_or] at state
    by_cases trips : failThreshold ≤ o.system.breaker.failures + 1
    -- the failure that fills the threshold opens the breaker
    · rw [if_pos trips] at state
      refine ⟨⟨fun _ => ?_, fun _ => ?_⟩, ⟨?_, fun stays => ?_⟩⟩
      · exact .inr (by rw [Observed.after_system, breaker, state])
      · simp [breaker, state, completionOf, full, trips]
      · simpa [breaker] using threshold
      · rw [Observed.after_system, breaker, state] at stays
        contradiction
    · rw [if_neg trips] at state
      -- one failure more, and still too few
      have same : next.breaker.state = o.system.breaker.state := by
        rw [breaker, state, closed]
      rw [Observed.after_same same]
      refine ⟨⟨fun _ => ?_, fun _ => ?_⟩, ⟨?_, fun _ => ?_⟩⟩
      · exact .inl (by rw [breaker, state])
      · simp [breaker, state, completionOf, full, trips]
      · simpa [breaker] using threshold
      · simp only [breaker, onFailure_failures closed, completionOf, Option.toList_some,
          List.singleton_append, failureRun_failed, failures]
        omega
  · refine ⟨⟨fun now => absurd now closed, fun now => absurd now closed⟩, ⟨?_, fun entered => ?_⟩⟩
    · simpa [breaker] using threshold
    · -- A failure never closes the breaker.
      rw [Observed.after_system, breaker, state] at entered
      split at entered
      · contradiction
      · exact absurd entered closed

/-! ## Failing fast -/

variable [LinearOrder T] [Sub T]

/-- The event is an admission check that finds the breaker open before the cooldown
    is over. -/
def SeesOpen (s : System T) : Event T → Prop
  | .arrive _ now => s.breaker.state = .opened ∧ now - s.breaker.openedAt < s.breaker.cooldown
  | .succeed _ => False
  | .fail _ _ => False

/-- A call that sees the breaker open is rejected, counted and not invoked; any
    other call is invoked, and nothing else is counted. -/
structure FailsFast (s : System T) (event : Event T) (next : System T) : Prop where
  rejected : ∀ id now, event = .arrive id now →
    ((admission s.breaker now).1 = false ↔ SeesOpen s event)
  invoked : ∀ id now, event = .arrive id now → (next.IsRunning id ↔ ¬ SeesOpen s event)
  counted : SeesOpen s event → next.breaker.rejectedCalls = s.breaker.rejectedCalls + 1
  uncounted : ¬ SeesOpen s event → next.breaker.rejectedCalls = s.breaker.rejectedCalls

theorem admission_eq_of_seesOpen {s : System T} {id : Nat} {now : T}
    (sees : SeesOpen s (.arrive id now)) :
    admission s.breaker now =
      (false, { s.breaker with rejectedCalls := s.breaker.rejectedCalls + 1 }) := by
  obtain ⟨opened, early⟩ := sees
  simp [admission, opened, not_le.mpr early]

theorem admission_of_not_seesOpen {s : System T} {id : Nat} {now : T}
    (free : ¬ SeesOpen s (.arrive id now)) :
    (admission s.breaker now).1 = true ∧
      (admission s.breaker now).2.rejectedCalls = s.breaker.rejectedCalls := by
  cases state : s.breaker.state with
  | closed => simp [admission, state]
  | halfOpen => simp [admission, state]
  | opened =>
    have elapsed : s.breaker.cooldown ≤ now - s.breaker.openedAt := by
      simpa [SeesOpen, state] using free
    simp [admission, state, elapsed]

theorem failsFast_step {s next : System T} {event : Event T} (stepped : step s event = some next) :
    FailsFast s event next := by
  obtain ⟨id, now, rfl, -, notRunning, rfl⟩ | ⟨id, rfl, -, rfl⟩ | ⟨id, now, rfl, -, -, rfl⟩ :=
    step_cases stepped
  · by_cases sees : SeesOpen s (.arrive id now)
    · have refused := admission_eq_of_seesOpen sees
      refine ⟨?_, ?_, fun _ => ?_, fun free => absurd sees free⟩
      · rintro _ _ ⟨⟩
        simp [refused, sees]
      · rintro _ _ ⟨⟩
        simpa [System.arrive, System.IsRunning, refused, sees] using notRunning
      · simp [System.arrive, refused]
    · obtain ⟨admitted, kept⟩ := admission_of_not_seesOpen sees
      refine ⟨?_, ?_, fun seen => absurd seen sees, fun _ => kept⟩
      · rintro _ _ ⟨⟩
        simp [admitted, sees]
      · rintro _ _ ⟨⟩
        simp [System.arrive, System.IsRunning, admitted, sees]
  · exact ⟨by simp, by simp, False.elim, fun _ => onSuccess_rejectedCalls _⟩
  · exact ⟨by simp, by simp, False.elim, fun _ => onFailure_rejectedCalls _ _⟩

/-! ## The counter after any step -/

theorem admission_closed {b : CircuitBreaker T} (closed : b.state = .closed) (now : T) :
    admission b now = (true, b) := by
  simp [admission, closed]

theorem countsFailures_arrive {failThreshold : Int} {o : Observed T} {id : Nat} {now : T}
    (counts : CountsFailures failThreshold o) :
    TripsExactly failThreshold o (.arrive id now) (o.after (.arrive id now) (o.system.arrive id now)) ∧
      CountsFailures failThreshold (o.after (.arrive id now) (o.system.arrive id now)) := by
  have breaker : (o.system.arrive id now).breaker = (admission o.system.breaker now).2 := rfl
  have threshold : (admission o.system.breaker now).2.failThreshold = failThreshold :=
    admission_failThreshold.trans counts.threshold
  by_cases closed : o.system.breaker.state = .closed
  · rw [admission_closed closed] at breaker
    rw [Observed.after_same (by rw [breaker])]
    refine ⟨⟨fun _ => ?_, fun _ => ?_⟩, ⟨?_, fun _ => ?_⟩⟩
    · exact .inl (by rw [breaker, closed])
    · simp [breaker, closed, completionOf]
    · simp only [breaker, counts.threshold]
    · simpa [breaker, completionOf] using counts.counted closed
  · have still : (admission o.system.breaker now).2.state ≠ .closed := mt closed_of_admission closed
    refine ⟨⟨fun now => absurd now closed, fun now => absurd now closed⟩, ⟨?_, ?_⟩⟩
    · simpa [breaker] using threshold
    · intro entered
      rw [Observed.after_system, breaker] at entered
      exact absurd entered still

theorem countsFailures_step {failThreshold : Int} (positive : 1 ≤ failThreshold)
    {o next : Observed T} {event : Event T} (stepped : observe o event = some next)
    (counts : CountsFailures failThreshold o) :
    TripsExactly failThreshold o event next ∧ CountsFailures failThreshold next := by
  obtain ⟨s, taken, rfl⟩ := observe_eq_some.mp stepped
  obtain ⟨id, now, rfl, -, -, rfl⟩ | ⟨id, rfl, -, rfl⟩ | ⟨id, now, rfl, -, -, rfl⟩ :=
    step_cases taken
  · exact countsFailures_arrive counts
  · exact countsFailures_succeed positive rfl counts
  · exact countsFailures_fail rfl counts

/-! ## Whole runs -/

/-- In every run: the counter is the current run of failures while the breaker is
    closed, every step follows the trip rule, and every call that sees the breaker
    open fails fast. -/
theorem trips_and_fails_fast [Zero T] (failThreshold : Int) (positive : 1 ≤ failThreshold)
    (cooldown : T) (successThreshold : Int) (now : T) (events : List (Event T)) :
    (∀ o, Visited observe (observedStart failThreshold cooldown successThreshold now) events o →
      CountsFailures failThreshold o) ∧
    ∀ o event next,
      Taken observe (observedStart failThreshold cooldown successThreshold now) events o event →
      observe o event = some next →
        TripsExactly failThreshold o event next ∧ FailsFast o.system event next.system := by
  have counts : ∀ o,
      Visited observe (observedStart failThreshold cooldown successThreshold now) events o →
        CountsFailures failThreshold o := by
    have begins : CountsFailures failThreshold
        (observedStart failThreshold cooldown successThreshold now) :=
      ⟨rfl, fun _ => ⟨rfl, Int.lt_of_lt_of_le Int.one_pos positive⟩⟩
    apply run_invariant begins
    intro o event next stepped before
    exact (countsFailures_step positive stepped before).2
  refine ⟨counts, fun o event next taken stepped => ?_⟩
  refine ⟨(countsFailures_step positive stepped (counts o taken.visited)).1, ?_⟩
  obtain ⟨s, systemStepped, rfl⟩ := observe_eq_some.mp stepped
  rw [Observed.after_system]
  exact failsFast_step systemStepped

/-- Two failures in a row trip a breaker with threshold 2, and a call five ticks
    later is rejected. -/
def trippingCalls : List (Event Int) :=
  [.arrive 0 0, .arrive 1 0, .fail 0 1, .fail 1 2, .arrive 2 7]

theorem trippingCalls_rejected :
    (∀ o, Visited observe (observedStart 2 10 1 0) trippingCalls o → CountsFailures 2 o) ∧
      (run observe (observedStart 2 10 1 0) trippingCalls).map
        (fun o => (o.system.breaker.state, o.system.breaker.rejectedCalls)) =
          some (.opened, 1) :=
  ⟨(trips_and_fails_fast 2 (by decide) 10 1 0 trippingCalls).1, by decide⟩

end Excalibur.Breaker
