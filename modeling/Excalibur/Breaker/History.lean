import Excalibur.Breaker.Calls

/-! # What has happened since the state last changed

The breaker keeps counters and no history.  An observer that follows a run can
keep one: the completions processed since the state last changed and the clock
reading of that change.  Observing changes nothing (`observe_system`), and what
is known of the observed history in every run is collected here once.
-/

namespace Excalibur.Breaker

open Excalibur.Library

variable {T : Type}

/-- The call was admitted before the state last changed. -/
def Stale (s : System T) (id : Nat) : Prop :=
  ∀ call ∈ s.running, call.id = id → call.admitted < s.changes

instance (s : System T) (id : Nat) : Decidable (Stale s id) :=
  inferInstanceAs (Decidable (∀ call ∈ s.running, call.id = id → call.admitted < s.changes))

structure Completion where
  stale : Bool
  failed : Bool
deriving DecidableEq

/-- The system, the completions since the state last changed with the latest in
    front, and the clock reading of that change. -/
structure Observed (T : Type) where
  system : System T
  since : List Completion
  changedAt : T

def completionOf (s : System T) : Event T → Option Completion
  | .arrive _ _ => none
  | .succeed id => some ⟨decide (Stale s id), false⟩
  | .fail id _ => some ⟨decide (Stale s id), true⟩

def Observed.after (o : Observed T) (event : Event T) (next : System T) : Observed T :=
  if next.breaker.state = o.system.breaker.state then
    ⟨next, (completionOf o.system event).toList ++ o.since, o.changedAt⟩
  else ⟨next, [], next.clock⟩

@[simp] theorem Observed.after_system (o : Observed T) (event : Event T) (next : System T) :
    (o.after event next).system = next := by
  unfold Observed.after
  split <;> rfl

theorem Observed.after_same {o : Observed T} {event : Event T} {next : System T}
    (same : next.breaker.state = o.system.breaker.state) :
    o.after event next =
      ⟨next, (completionOf o.system event).toList ++ o.since, o.changedAt⟩ :=
  if_pos same

theorem Observed.after_changed {o : Observed T} {event : Event T} {next : System T}
    (changed : next.breaker.state ≠ o.system.breaker.state) :
    o.after event next = ⟨next, [], next.clock⟩ :=
  if_neg changed

/-! ## The breaker in one step -/

section Transitions

variable {b : CircuitBreaker T} {now : T}

/-- A success changes the state only when the breaker is half open and has counted
    enough of them. -/
theorem onSuccess_state (b : CircuitBreaker T) : (onSuccess b).state =
    if b.state = .halfOpen ∧ b.successThreshold ≤ b.successes + 1 then .closed else b.state := by
  cases state : b.state with
  | closed => simp [onSuccess, state]
  | opened => simp [onSuccess, state]
  | halfOpen =>
    by_cases enough : b.successThreshold ≤ b.successes + 1
    · simp [onSuccess, state, enough]
    · simp [onSuccess, state, enough]

@[simp] theorem onSuccess_openedAt (b : CircuitBreaker T) : (onSuccess b).openedAt = b.openedAt := by
  unfold onSuccess
  split
  · simp only
    split <;> rfl
  · rfl

@[simp] theorem onSuccess_failThreshold (b : CircuitBreaker T) :
    (onSuccess b).failThreshold = b.failThreshold := by
  unfold onSuccess
  split
  · simp only
    split <;> rfl
  · rfl

theorem opened_of_onSuccess (opened : (onSuccess b).state = .opened) : b.state = .opened := by
  rw [onSuccess_state] at opened
  split at opened
  · contradiction
  · exact opened

theorem enough_of_onSuccess_closed (halfOpen : b.state = .halfOpen)
    (closed : (onSuccess b).state = .closed) : b.successThreshold ≤ b.successes + 1 := by
  rw [onSuccess_state, halfOpen] at closed
  by_contra few
  simp [few] at closed

/-- A failure opens the breaker when it was half open or the count is full. -/
theorem onFailure_state (b : CircuitBreaker T) (now : T) : (onFailure b now).state =
    if b.state = .halfOpen ∨ b.failThreshold ≤ b.failures + 1 then .opened else b.state := by
  cases state : b.state with
  | halfOpen => simp [onFailure, state]
  | closed =>
    by_cases full : b.failThreshold ≤ b.failures + 1
    · simp [onFailure, state, full]
    · simp [onFailure, state, full]
  | opened =>
    by_cases full : b.failThreshold ≤ b.failures + 1
    · simp [onFailure, state, full]
    · simp [onFailure, state, full]

theorem onFailure_openedAt (b : CircuitBreaker T) (now : T) : (onFailure b now).openedAt =
    if b.state = .halfOpen ∨ b.failThreshold ≤ b.failures + 1 then now else b.openedAt := by
  cases state : b.state with
  | halfOpen => simp [onFailure, state]
  | closed =>
    by_cases full : b.failThreshold ≤ b.failures + 1
    · simp [onFailure, state, full]
    · simp [onFailure, state, full]
  | opened =>
    by_cases full : b.failThreshold ≤ b.failures + 1
    · simp [onFailure, state, full]
    · simp [onFailure, state, full]

@[simp] theorem onFailure_failThreshold (b : CircuitBreaker T) (now : T) :
    (onFailure b now).failThreshold = b.failThreshold := by
  unfold onFailure
  split
  · rfl
  · simp only
    split <;> rfl

theorem onFailure_ne_closed (halfOpen : b.state = .halfOpen) : (onFailure b now).state ≠ .closed := by
  rw [onFailure_state, if_pos (.inl halfOpen)]
  decide

theorem trips_of_onFailure_opened (before : b.state ≠ .opened)
    (opened : (onFailure b now).state = .opened) :
    b.state = .halfOpen ∨ b.failThreshold ≤ b.failures + 1 := by
  by_contra quiet
  rw [onFailure_state, if_neg quiet] at opened
  exact before opened

variable [LinearOrder T] [Sub T]

/-- The admission check changes the state only to let the probe through. -/
theorem admission_state : (admission b now).2.state =
    if b.state = .opened ∧ b.cooldown ≤ now - b.openedAt then .halfOpen else b.state := by
  cases state : b.state with
  | closed => simp [admission, state]
  | halfOpen => simp [admission, state]
  | opened =>
    by_cases elapsed : b.cooldown ≤ now - b.openedAt
    · simp [admission, state, elapsed]
    · simp [admission, state, elapsed]

theorem admission_openedAt : (admission b now).2.openedAt = b.openedAt := by
  unfold admission
  split
  · split <;> rfl
  · rfl

@[simp] theorem admission_failThreshold : (admission b now).2.failThreshold = b.failThreshold := by
  unfold admission
  split
  · split <;> rfl
  · rfl

theorem opened_of_admission (opened : (admission b now).2.state = .opened) : b.state = .opened := by
  rw [admission_state] at opened
  split at opened
  · contradiction
  · exact opened

/-- No admission leads into the closed state. -/
theorem closed_of_admission (closed : (admission b now).2.state = .closed) : b.state = .closed := by
  rw [admission_state] at closed
  split at closed
  · contradiction
  · exact closed

end Transitions

/-! ## Observed runs -/

section Runs

variable [LinearOrder T] [Sub T]

def observe (o : Observed T) (event : Event T) : Option (Observed T) :=
  (step o.system event).map (o.after event)

def observedStart [Zero T] (failThreshold : Int) (cooldown : T) (successThreshold : Int) (now : T) :
    Observed T :=
  ⟨start failThreshold cooldown successThreshold now, [], now⟩

theorem observe_eq_some {o next : Observed T} {event : Event T} :
    observe o event = some next ↔
      ∃ s, step o.system event = some s ∧ next = o.after event s := by
  rw [observe, Option.map_eq_some_iff]
  constructor
  · rintro ⟨s, stepped, rfl⟩
    exact ⟨s, stepped, rfl⟩
  · rintro ⟨s, stepped, rfl⟩
    exact ⟨s, stepped, rfl⟩

/-- The observer sees the runs of the system, all of them and as they are. -/
theorem observe_system (o : Observed T) (events : List (Event T)) :
    (run observe o events).map Observed.system = run step o.system events := by
  induction events generalizing o with
  | nil => rfl
  | cons event events ih =>
    rw [run_cons, run_cons, observe]
    cases step o.system event with
    | none => rfl
    | some s => simpa using ih (o.after event s)

end Runs

end Excalibur.Breaker
