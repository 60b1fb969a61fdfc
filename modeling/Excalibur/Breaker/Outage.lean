import Excalibur.Breaker.Trip
import Excalibur.Library.Amortized

/-! # Outages

At most `crowd` calls run at the same time, in any interleaving.  While the downstream is
broken, it is called until the failures are counted and the calls that run beside the last
of them are over, and from then on by one crowd of probes a cooldown.  Once it works again
and the cooldown is over, no call is rejected and `success_threshold` of them close the
breaker.
-/

namespace Excalibur.Breaker

open Excalibur.Library

section Shapes

variable {T : Type} [LinearOrder T] [Sub T] {b : CircuitBreaker T} {now : T}

theorem admission_cases (b : CircuitBreaker T) (now : T) :
    (b.state ≠ .opened ∧ admission b now = (true, b)) ∨
    (b.state = .opened ∧ b.cooldown ≤ now - b.openedAt ∧
      admission b now = (true, { b with state := .halfOpen, successes := 0 })) ∨
    (b.state = .opened ∧ ¬ b.cooldown ≤ now - b.openedAt ∧
      admission b now = (false, { b with rejectedCalls := b.rejectedCalls + 1 })) := by
  cases state : b.state with
  | closed => simp [admission, state]
  | halfOpen => simp [admission, state]
  | opened =>
    by_cases elapsed : b.cooldown ≤ now - b.openedAt
    · simp [admission, state, elapsed]
    · simp [admission, state, elapsed]

omit [LinearOrder T] [Sub T] in
theorem onSuccess_cases (b : CircuitBreaker T) :
    (b.state = .halfOpen ∧ b.successThreshold ≤ b.successes + 1 ∧ onSuccess b =
      { b with successes := b.successes + 1, state := .closed, failures := 0 }) ∨
    (b.state = .halfOpen ∧ ¬ b.successThreshold ≤ b.successes + 1 ∧
      onSuccess b = { b with successes := b.successes + 1 }) ∨
    (b.state ≠ .halfOpen ∧ onSuccess b = { b with failures := 0 }) := by
  cases state : b.state with
  | closed => simp [onSuccess, state]
  | opened => simp [onSuccess, state]
  | halfOpen =>
    by_cases enough : b.successThreshold ≤ b.successes + 1
    · simp [onSuccess, state, enough]
    · simp [onSuccess, state, enough]

omit [LinearOrder T] [Sub T] in
theorem onFailure_cases (b : CircuitBreaker T) (now : T) :
    (b.state = .halfOpen ∧ onFailure b now = { b with state := .opened, openedAt := now }) ∨
    (b.state ≠ .halfOpen ∧ b.failThreshold ≤ b.failures + 1 ∧ onFailure b now =
      { b with failures := b.failures + 1, state := .opened, openedAt := now }) ∨
    (b.state ≠ .halfOpen ∧ ¬ b.failThreshold ≤ b.failures + 1 ∧
      onFailure b now = { b with failures := b.failures + 1 }) := by
  cases state : b.state with
  | halfOpen => simp [onFailure, state]
  | closed =>
    by_cases full : b.failThreshold ≤ b.failures + 1
    · simp [onFailure, state, full]
    · simp [onFailure, state, full]
  | opened =>
    by_cases full : b.failThreshold ≤ b.failures + 1
    · simp [onFailure, state, full]
    · simp [onFailure, state, full]

end Shapes

variable {T : Type} [AddCommGroup T] [LinearOrder T] [IsOrderedAddMonoid T]

/-- Whether the step is an arrival whose function is called. -/
def invokes (s : System T) : Event T → Bool
  | .arrive _ now => (admission s.breaker now).1
  | _ => false

/-- Whether the step is the arrival of a probe that finds the breaker open. -/
def probes (s : System T) : Event T → Bool
  | .arrive _ now => decide (s.breaker.state = .opened) && (admission s.breaker now).1
  | _ => false

/-! ## What is kept in every run -/

omit [AddCommGroup T] [LinearOrder T] [IsOrderedAddMonoid T] in
/-- The arguments of `__init__`. -/
def settings (b : CircuitBreaker T) : Int × T × Int := (b.failThreshold, b.cooldown, b.successThreshold)

structure Counting (b : CircuitBreaker T) (clock : T) : Prop where
  tripped : b.state ≠ .closed → b.openedAt ≤ clock
  failures : 0 ≤ b.failures
  successes : 0 ≤ b.successes

section Counting

variable {b : CircuitBreaker T} {clock now : T}

omit [IsOrderedAddMonoid T] in
theorem counting_admission (counting : Counting b clock) (later : clock ≤ now) :
    Counting (admission b now).2 now ∧ settings (admission b now).2 = settings b := by
  obtain ⟨tripped, failures, successes⟩ := counting
  obtain ⟨-, shape⟩ | ⟨opened, -, shape⟩ | ⟨opened, -, shape⟩ := admission_cases b now
  · rw [shape]
    exact ⟨⟨fun open_ => (tripped open_).trans later, failures, successes⟩, rfl⟩
  · rw [shape]
    exact ⟨⟨fun _ => (tripped (by simp [opened])).trans later, failures, le_refl _⟩, rfl⟩
  · rw [shape]
    exact ⟨⟨fun open_ => (tripped open_).trans later, failures, successes⟩, rfl⟩

omit [AddCommGroup T] [IsOrderedAddMonoid T] in
theorem counting_onSuccess (counting : Counting b clock) :
    Counting (onSuccess b) clock ∧ settings (onSuccess b) = settings b := by
  obtain ⟨tripped, failures, successes⟩ := counting
  obtain ⟨-, -, shape⟩ | ⟨-, -, shape⟩ | ⟨-, shape⟩ := onSuccess_cases b
  · rw [shape]
    exact ⟨⟨fun open_ => absurd rfl open_, le_refl _, Int.add_nonneg successes Int.one_nonneg⟩, rfl⟩
  · rw [shape]
    exact ⟨⟨tripped, failures, Int.add_nonneg successes Int.one_nonneg⟩, rfl⟩
  · rw [shape]
    exact ⟨⟨tripped, le_refl _, successes⟩, rfl⟩

omit [AddCommGroup T] [IsOrderedAddMonoid T] in
theorem counting_onFailure (counting : Counting b clock) (later : clock ≤ now) :
    Counting (onFailure b now) now ∧ settings (onFailure b now) = settings b := by
  obtain ⟨tripped, failures, successes⟩ := counting
  obtain ⟨-, shape⟩ | ⟨-, -, shape⟩ | ⟨-, -, shape⟩ := onFailure_cases b now
  · rw [shape]
    exact ⟨⟨fun _ => le_refl _, failures, successes⟩, rfl⟩
  · rw [shape]
    exact ⟨⟨fun _ => le_refl _, Int.add_nonneg failures Int.one_nonneg, successes⟩, rfl⟩
  · rw [shape]
    refine ⟨⟨fun open_ => (tripped open_).trans later, ?_, successes⟩, rfl⟩
    exact Int.add_nonneg failures Int.one_nonneg

end Counting

structure Sound (failThreshold : Int) (cooldown : T) (successThreshold : Int) (s : System T) :
    Prop where
  distinct : (s.running.map Running.id).Nodup
  counting : Counting s.breaker s.clock
  settings : settings s.breaker = (failThreshold, cooldown, successThreshold)

omit [AddCommGroup T] [LinearOrder T] [IsOrderedAddMonoid T] in
theorem distinct_complete {s : System T} (distinct : (s.running.map Running.id).Nodup) (id : Nat)
    (b : CircuitBreaker T) (now : T) : ((s.complete id b now).running.map Running.id).Nodup :=
  distinct.sublist (List.filter_sublist.map _)

omit [IsOrderedAddMonoid T] in
theorem distinct_arrive {s : System T} (distinct : (s.running.map Running.id).Nodup) {id : Nat}
    (arrives : ¬ s.IsRunning id) (now : T) : ((s.arrive id now).running.map Running.id).Nodup := by
  simp only [System.arrive]
  split
  · refine List.nodup_cons.mpr ⟨fun member => arrives ?_, distinct⟩
    obtain ⟨call, running, same⟩ := List.mem_map.mp member
    exact ⟨call, running, same⟩
  · exact distinct

section Sound

variable {failThreshold : Int} {cooldown : T} {successThreshold : Int}

omit [IsOrderedAddMonoid T] in
theorem sound_step {s next : System T} {event : Event T} (stepped : step s event = some next)
    (sound : Sound failThreshold cooldown successThreshold s) :
    Sound failThreshold cooldown successThreshold next := by
  obtain ⟨distinct, counting, settings⟩ := sound
  obtain ⟨id, now, rfl, later, arrives, rfl⟩ | ⟨id, rfl, -, rfl⟩ | ⟨id, now, rfl, later, -, rfl⟩ :=
    step_cases stepped
  · obtain ⟨kept, same⟩ := counting_admission counting later
    exact ⟨distinct_arrive distinct arrives now, kept, same.trans settings⟩
  · obtain ⟨kept, same⟩ := counting_onSuccess counting
    exact ⟨distinct_complete distinct _ _ _, kept, same.trans settings⟩
  · obtain ⟨kept, same⟩ := counting_onFailure counting later
    exact ⟨distinct_complete distinct _ _ _, kept, same.trans settings⟩

omit [IsOrderedAddMonoid T] in
theorem sound_run {now : T} {before : List (Event T)} {s : System T}
    (reached : run step (start failThreshold cooldown successThreshold now) before = some s) :
    Sound failThreshold cooldown successThreshold s := by
  have begins : Sound failThreshold cooldown successThreshold
      (start failThreshold cooldown successThreshold now) :=
    ⟨List.nodup_nil, ⟨fun open_ => absurd rfl open_, le_refl _, le_refl _⟩, rfl⟩
  exact run_invariant begins (fun _ _ _ stepped => sound_step stepped) before s
    (visited_finish reached)

omit [IsOrderedAddMonoid T] in
theorem sound_visited {s : System T} (sound : Sound failThreshold cooldown successThreshold s)
    {events : List (Event T)} {state : System T} (visited : Visited step s events state) :
    Sound failThreshold cooldown successThreshold state :=
  run_invariant sound (fun _ _ _ stepped => sound_step stepped) events state visited

/-! ## While the downstream is broken -/

/-- How many calls there can be before the next probe. -/
def credit (failThreshold : Int) (crowd : Nat) (s : System T) : Nat :=
  match s.breaker.state with
  | .closed =>
    (max 1 (failThreshold - s.breaker.failures)).toNat + (crowd - 1) - s.running.length
  | .halfOpen => crowd - s.running.length
  | .opened => 0

/-- A clock that has not counted the cooldown that the breaker still waits for. -/
def waited (cooldown : T) (s : System T) : T :=
  match s.breaker.state with
  | .opened => max s.breaker.openedAt (s.clock - cooldown)
  | _ => s.clock

theorem waited_le_clock {s : System T} (sound : Sound failThreshold cooldown successThreshold s)
    (nonneg : 0 ≤ cooldown) : waited cooldown s ≤ s.clock := by
  unfold waited
  split
  · rename_i opened
    exact max_le (sound.counting.tripped (by simp [opened])) (sub_le_self _ nonneg)
  · exact le_refl _

omit [AddCommGroup T] [LinearOrder T] [IsOrderedAddMonoid T] in
/-- The call that reports is one of the running calls. -/
theorem length_complete {s : System T} (distinct : (s.running.map Running.id).Nodup) {id : Nat}
    (isRunning : s.IsRunning id) (b : CircuitBreaker T) (now : T) :
    (s.complete id b now).running.length + 1 = s.running.length := by
  have once : s.running.countP (fun call => decide (call.id = id)) = 1 := by
    have counted := List.count_eq_one_of_mem distinct (List.mem_map.mpr isRunning)
    rw [List.count, List.countP_map] at counted
    exact counted
  have others := s.running.length_eq_countP_add_countP (fun call => decide (call.id = id))
  simp only [System.complete, ne_eq, decide_eq_true_eq, ← List.countP_eq_length_filter] at others ⊢
  omega

/-- An arrival pays for its call out of the credit, except for the probe that finds the
    breaker open: it comes a cooldown after the clock of the last one. -/
theorem outage_arrive {s : System T} {id : Nat} {now : T} (later : s.clock ≤ now)
    (sound : Sound failThreshold cooldown successThreshold s) {crowd : Nat}
    (after : (s.arrive id now).running.length ≤ crowd) :
    (invokes s (.arrive id now)).toNat + credit failThreshold crowd (s.arrive id now) ≤
        credit failThreshold crowd s + crowd * (probes s (.arrive id now)).toNat ∧
      waited cooldown s + (probes s (.arrive id now)).toNat • cooldown ≤
        waited cooldown (s.arrive id now) := by
  have sameCooldown : s.breaker.cooldown = cooldown := congrArg (·.2.1) sound.settings
  obtain ⟨notOpen, shape⟩ | ⟨opened, elapsed, shape⟩ | ⟨opened, early, shape⟩ :=
    admission_cases s.breaker now
  · have room : s.running.length + 1 ≤ crowd := by simpa [System.arrive, shape] using after
    cases state : s.breaker.state with
    | opened => exact absurd state notOpen
    | closed =>
      constructor
      · simp only [invokes, probes, credit, System.arrive, shape, state, List.length_cons, if_true,
          Bool.toNat_true]
        omega
      · simpa [probes, waited, System.arrive, shape, state] using later
    | halfOpen =>
      constructor
      · simp only [invokes, probes, credit, System.arrive, shape, state, List.length_cons, if_true,
          Bool.toNat_true]
        omega
      · simpa [probes, waited, System.arrive, shape, state] using later
  · have room : s.running.length + 1 ≤ crowd := by simpa [System.arrive, shape] using after
    constructor
    · simp only [invokes, probes, credit, System.arrive, shape, opened, List.length_cons, if_true,
        Bool.toNat_true, decide_true, Bool.and_true]
      omega
    · simp only [probes, waited, System.arrive, shape, opened, Bool.toNat_true, decide_true,
        Bool.and_true, one_nsmul, max_add, sub_add_cancel]
      rw [sameCooldown] at elapsed
      exact max_le (add_comm cooldown s.breaker.openedAt ▸ (le_sub_iff_add_le.mp elapsed)) later
  · constructor
    · simp [invokes, credit, System.arrive, shape, opened]
    · simp only [probes, waited, System.arrive, shape, opened, Bool.and_false, Bool.toNat_false,
        zero_nsmul, add_zero]
      gcongr

theorem outage_fail {s : System T} {id : Nat} {now : T} (later : s.clock ≤ now)
    (isRunning : s.IsRunning id) (sound : Sound failThreshold cooldown successThreshold s)
    {crowd : Nat} (before : s.running.length ≤ crowd) (nonneg : 0 ≤ cooldown) :
    credit failThreshold crowd (s.complete id (onFailure s.breaker now) now) ≤
        credit failThreshold crowd s ∧
      waited cooldown s ≤ waited cooldown (s.complete id (onFailure s.breaker now) now) := by
  have one := length_complete sound.distinct isRunning (onFailure s.breaker now) now
  have sameThreshold : s.breaker.failThreshold = failThreshold := congrArg (·.1) sound.settings
  have inTime : waited cooldown s ≤ now := (waited_le_clock sound nonneg).trans later
  obtain ⟨-, shape⟩ | ⟨-, -, shape⟩ | ⟨notHalfOpen, few, shape⟩ := onFailure_cases s.breaker now
  · rw [shape]
    exact ⟨Nat.zero_le _, inTime.trans (le_max_left _ _)⟩
  · rw [shape]
    exact ⟨Nat.zero_le _, inTime.trans (le_max_left _ _)⟩
  · rw [shape] at one ⊢
    cases state : s.breaker.state with
    | halfOpen => exact absurd state notHalfOpen
    | opened =>
      constructor
      · simp [credit, System.complete, state]
      · simp only [waited, System.complete, state]
        gcongr
    | closed =>
      constructor
      · simp only [credit, System.complete, state] at one ⊢
        omega
      · simpa [waited, System.complete, state] using later

theorem outage_step {s next : System T} {event : Event T} (stepped : step s event = some next)
    (sound : Sound failThreshold cooldown successThreshold s) {crowd : Nat}
    (before : s.running.length ≤ crowd) (after : next.running.length ≤ crowd)
    (nonneg : 0 ≤ cooldown) (down : ∀ id, event ≠ .succeed id) :
    (invokes s event).toNat + credit failThreshold crowd next ≤
        credit failThreshold crowd s + crowd * (probes s event).toNat ∧
      waited cooldown s + (probes s event).toNat • cooldown ≤ waited cooldown next := by
  obtain ⟨id, now, rfl, later, -, rfl⟩ | ⟨id, rfl, -, -⟩ | ⟨id, now, rfl, later, isRunning, rfl⟩ :=
    step_cases stepped
  · exact outage_arrive later sound after
  · exact absurd rfl (down id)
  · simpa [invokes, probes] using outage_fail later isRunning sound before nonneg

omit [IsOrderedAddMonoid T] in
/-- What a run can start with: the calls of a crowd, or the rest of a cooldown. -/
theorem outage_start {s : System T} (sound : Sound failThreshold cooldown successThreshold s)
    (crowd : Nat) :
    (credit failThreshold crowd s ≤ (max 1 failThreshold).toNat + (crowd - 1) ∧
      waited cooldown s = s.clock) ∨
    (credit failThreshold crowd s = 0 ∧ s.clock - cooldown ≤ waited cooldown s) := by
  have failures := sound.counting.failures
  cases state : s.breaker.state with
  | opened =>
    refine .inr ⟨by simp [credit, state], ?_⟩
    simp only [waited, state]
    exact le_max_right _ _
  | closed =>
    refine .inl ⟨?_, by simp [waited, state]⟩
    simp only [credit, state]
    omega
  | halfOpen =>
    refine .inl ⟨?_, by simp [waited, state]⟩
    simp only [credit, state]
    omega

omit [IsOrderedAddMonoid T] in
theorem clock_step {s next : System T} {event : Event T} (stepped : step s event = some next) :
    s.clock ≤ next.clock := by
  obtain ⟨id, now, rfl, later, -, rfl⟩ | ⟨id, rfl, -, rfl⟩ | ⟨id, now, rfl, later, -, rfl⟩ :=
    step_cases stepped
  · exact later
  · exact le_refl _
  · exact later

omit [IsOrderedAddMonoid T] in
theorem clock_run {s finish : System T} {events : List (Event T)}
    (goes : run step s events = some finish) : s.clock ≤ finish.clock := by
  have kept : ∀ state event next, step state event = some next → s.clock ≤ state.clock →
      s.clock ≤ next.clock :=
    fun _ _ _ stepped earlier => earlier.trans (clock_step stepped)
  exact run_invariant (by exact le_refl _) kept events finish (visited_finish goes)

end Sound

/-- Two calls at a time: the second failure trips the breaker, a call is rejected, and after
    the cooldown two probes overlap. -/
def overlappingOutage : List (Event Int) :=
  [.arrive 0 0, .arrive 1 0, .fail 0 1, .fail 1 2, .arrive 2 5, .arrive 3 12, .arrive 4 12,
    .fail 3 13, .fail 4 14]

/-- Whether the step is a success that the breaker does not ignore. -/
def heard (s : System T) : Event T → Bool
  | .succeed _ => decide (s.breaker.state ≠ .opened)
  | _ => false

/-- How many successes close the breaker. -/
def missing (s : System T) : Nat :=
  match s.breaker.state with
  | .closed => 0
  | .halfOpen => (max 1 (s.breaker.successThreshold - s.breaker.successes)).toNat
  | .opened => (max 1 s.breaker.successThreshold).toNat

/-- No call comes before the cooldown of an open breaker is over. -/
def Ready (cooldown : T) (calls : List (Event T)) (s : System T) : Prop :=
  ∀ id now, .arrive id now ∈ calls → s.breaker.state = .opened →
    cooldown ≤ now - s.breaker.openedAt

section Recovery

variable {failThreshold : Int} {cooldown : T} {successThreshold : Int} {calls : List (Event T)}

omit [IsOrderedAddMonoid T] in
theorem recovery_arrive {s : System T} {id : Nat} {now : T} (comes : .arrive id now ∈ calls)
    (sound : Sound failThreshold cooldown successThreshold s) (ready : Ready cooldown calls s) :
    invokes s (.arrive id now) = true ∧ Ready cooldown calls (s.arrive id now) ∧
      missing (s.arrive id now) = missing s := by
  have sameCooldown : s.breaker.cooldown = cooldown := congrArg (·.2.1) sound.settings
  obtain ⟨notOpen, shape⟩ | ⟨opened, -, shape⟩ | ⟨opened, early, shape⟩ :=
    admission_cases s.breaker now
  · refine ⟨by simp [invokes, shape], fun _ _ _ opened => absurd ?_ notOpen, ?_⟩
    · simpa [System.arrive, shape] using opened
    · simp [missing, System.arrive, shape]
  · refine ⟨by simp [invokes, shape], fun _ _ _ still => ?_, ?_⟩
    · simp [System.arrive, shape] at still
    · simp [missing, System.arrive, shape, opened]
  · rw [sameCooldown] at early
    exact absurd (ready id now comes opened) early

omit [IsOrderedAddMonoid T] in
theorem recovery_succeed {s : System T} {id : Nat} (ready : Ready cooldown calls s) :
    Ready cooldown calls (s.complete id (onSuccess s.breaker) s.clock) ∧
      missing (s.complete id (onSuccess s.breaker) s.clock) ≤
        missing s - (heard s (.succeed id)).toNat := by
  obtain ⟨halfOpen, -, shape⟩ | ⟨halfOpen, few, shape⟩ | ⟨notHalfOpen, shape⟩ :=
    onSuccess_cases s.breaker
  · rw [shape]
    exact ⟨fun _ _ _ opened => (nomatch opened), Nat.zero_le _⟩
  · rw [shape]
    refine ⟨fun _ _ _ opened => ?_, ?_⟩
    · simp [System.complete, halfOpen] at opened
    · have counted : (heard s (.succeed id)).toNat = 1 := by simp [heard, halfOpen]
      simp only [counted, missing, System.complete, halfOpen]
      omega
  · rw [shape]
    refine ⟨ready, ?_⟩
    cases state : s.breaker.state with
    | halfOpen => exact absurd state notHalfOpen
    | closed => simp [missing, System.complete, state]
    | opened => simp [missing, heard, System.complete, state]

omit [IsOrderedAddMonoid T] in
theorem recovery_step {s next : System T} {event : Event T} (stepped : step s event = some next)
    (sound : Sound failThreshold cooldown successThreshold s) (ready : Ready cooldown calls s)
    (comes : event ∈ calls) (up : ∀ id now, .fail id now ∉ calls) :
    (∀ id now, event = .arrive id now → invokes s event = true) ∧ Ready cooldown calls next ∧
      missing next ≤ missing s - (heard s event).toNat := by
  obtain ⟨id, now, rfl, -, -, rfl⟩ | ⟨id, rfl, -, rfl⟩ | ⟨id, now, rfl, -, -, -⟩ :=
    step_cases stepped
  · obtain ⟨invoked, kept, same⟩ := recovery_arrive comes sound ready
    exact ⟨fun _ _ _ => invoked, kept, same.le⟩
  · obtain ⟨kept, fewer⟩ := recovery_succeed ready
    exact ⟨fun _ _ arrives => (nomatch arrives), kept, fewer⟩
  · exact absurd comes (up id now)

omit [AddCommGroup T] [IsOrderedAddMonoid T] in
theorem missing_le {s : System T} (sound : Sound failThreshold cooldown successThreshold s) :
    missing s ≤ (max 1 successThreshold).toNat := by
  have sameThreshold : s.breaker.successThreshold = successThreshold :=
    congrArg (·.2.2) sound.settings
  have successes := sound.counting.successes
  unfold missing
  split <;> omega

omit [AddCommGroup T] [LinearOrder T] [IsOrderedAddMonoid T] in
theorem closed_of_missing {s : System T} (none : missing s = 0) : s.breaker.state = .closed := by
  cases state : s.breaker.state with
  | closed => rfl
  | halfOpen =>
    simp only [missing, state] at none
    omega
  | opened =>
    simp only [missing, state] at none
    omega

end Recovery

/-- The breaker was tripped at time 1 with a call still running, whose success is ignored;
    those of two overlapping probes count. -/
def tripped : List (Event Int) := [.arrive 0 0, .arrive 1 0, .fail 0 1]

def overlappingRecovery : List (Event Int) :=
  [.succeed 1, .arrive 2 11, .arrive 3 12, .succeed 3, .succeed 2]

end Excalibur.Breaker
