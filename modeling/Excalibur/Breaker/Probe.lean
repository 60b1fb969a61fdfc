import Excalibur.Breaker.Calls

/-! # One probe at a time

While the breaker is half open every arriving call is admitted, whether or not
the probe that opened the way is still running.  So there is a single probe
exactly in the runs where calls wait: none arrives in the half-open state while a
call that was admitted since the state changed is running.
-/

namespace Excalibur.Breaker

open Excalibur.Library

variable {T : Type}

/-- In the half-open state at most one call admitted since is running. -/
def SingleProbe (s : System T) : Prop := s.breaker.state = .halfOpen → s.current.length ≤ 1

/-- A call that arrives in the half-open state finds no such call running. -/
def Waits (s : System T) : Event T → Prop
  | .arrive _ _ => s.breaker.state = .halfOpen → s.current = []
  | .succeed _ => True
  | .fail _ _ => True

/-! ## What one step does to the half-open state -/

theorem onSuccess_halfOpen {b : CircuitBreaker T} (after : (onSuccess b).state = .halfOpen) :
    b.state = .halfOpen := by
  unfold onSuccess at after
  split at after
  · assumption
  · exact after

theorem onFailure_halfOpen {b : CircuitBreaker T} {now : T}
    (after : (onFailure b now).state = .halfOpen) : b.state = .halfOpen := by
  unfold onFailure at after
  split at after
  · assumption
  · simp only at after
    split at after
    · contradiction
    · exact after

/-- A completion that leaves the breaker half open admits nobody. -/
theorem singleProbe_complete {s : System T} {id : Nat} {b : CircuitBreaker T} {now : T}
    (entered : b.state = .halfOpen → s.breaker.state = .halfOpen) (single : SingleProbe s) :
    SingleProbe (s.complete id b now) := by
  intro after
  have halfOpen := entered after
  have unchanged : (s.complete id b now).changes = s.changes := by
    simp only [System.complete] at after ⊢
    rw [System.changesAfter, if_pos (by rw [after, halfOpen])]
  have fewer : (s.complete id b now).current.Sublist s.current := by
    simp only [System.current, unchanged]
    exact List.Sublist.filter _ List.filter_sublist
  exact le_trans fewer.length_le (single halfOpen)

variable [LinearOrder T] [Sub T]

theorem current_arrive_halfOpen {s : System T} (halfOpen : s.breaker.state = .halfOpen) (id : Nat)
    (now : T) : (s.arrive id now).current = ⟨id, s.changes⟩ :: s.current := by
  simp [System.arrive, System.current, admission, halfOpen, System.changesAfter]

theorem current_arrive_opened {s : System T} (before : AdmittedBefore s)
    (opened : s.breaker.state = .opened) {id : Nat} {now : T}
    (elapsed : s.breaker.cooldown ≤ now - s.breaker.openedAt) :
    (s.arrive id now).current = [⟨id, s.changes + 1⟩] := by
  have none : s.running.filter (fun call => call.admitted = s.changes + 1) = [] := by
    apply List.filter_eq_nil_iff.mpr
    intro call member
    have earlier := before call member
    simp only [decide_eq_true_eq]
    omega
  simp [System.arrive, System.current, admission, opened, elapsed, System.changesAfter, none]

theorem singleProbe_step {s next : System T} {event : Event T} (before : AdmittedBefore s)
    (single : SingleProbe s) (waits : Waits s event) (stepped : step s event = some next) :
    SingleProbe next := by
  obtain ⟨id, now, rfl, -, -, rfl⟩ | ⟨id, rfl, -, rfl⟩ | ⟨id, now, rfl, -, -, rfl⟩ :=
    step_cases stepped
  · intro after
    -- The state before the arrival decides who is counted as a probe after it.
    cases state : s.breaker.state with
    | closed => simp [System.arrive, admission, state] at after
    | opened =>
      by_cases elapsed : s.breaker.cooldown ≤ now - s.breaker.openedAt
      · rw [current_arrive_opened before state elapsed]
        exact le_refl 1
      · -- Refused: the breaker stays open.
        simp [System.arrive, admission, state, elapsed] at after
    | halfOpen =>
      -- The call waited, so it is the only one.
      rw [current_arrive_halfOpen state, waits state]
      exact le_refl 1
  · exact singleProbe_complete onSuccess_halfOpen single
  · exact singleProbe_complete onFailure_halfOpen single

/-! ## Whole runs -/

/-- A run has a single probe in all its states exactly when all its calls wait. -/
theorem single_probe_iff [Zero T] (failThreshold : Int) (cooldown : T) (successThreshold : Int)
    (now : T) (events : List (Event T)) :
    (∀ s, Visited step (start failThreshold cooldown successThreshold now) events s →
      SingleProbe s) ↔
    ∀ s event, Taken step (start failThreshold cooldown successThreshold now) events s event →
      Waits s event := by
  refine all_states_iff_all_steps AdmittedBefore SingleProbe ?_ ?_ ?_ ?_ ?_
  · refine run_invariant ?_ (fun s event next => admittedBefore_step) events
    intro call member
    simp [start] at member
  · intro halfOpen
    simp [start, newBreaker] at halfOpen
  · exact fun s _ single => single
  · exact fun s event next before single waits => singleProbe_step before single waits
  · intro s event next _ rushes stepped single
    cases event with
    | succeed id => exact rushes trivial
    | fail id now => exact rushes trivial
    | arrive id now =>
      simp only [Waits, Classical.not_imp] at rushes
      obtain ⟨halfOpen, running⟩ := rushes
      obtain ⟨id', now', same, -, -, rfl⟩ | ⟨id', same, -⟩ | ⟨id', now', same, -⟩ :=
        step_cases stepped
      · cases same
        have stays : (s.arrive id now).breaker.state = .halfOpen := by
          simp [System.arrive, admission, halfOpen]
        -- The breaker stays half open, with this call and the one that was running.
        have two := single stays
        rw [current_arrive_halfOpen halfOpen, List.length_cons] at two
        have positive := List.length_pos_iff.mpr running
        omega
      · cases same
      · cases same

/-- One failure opens the breaker; once the cooldown is over, two calls arrive
    before the first of them returns. -/
def overlappingProbes : List (Event Int) := [.arrive 0 0, .fail 0 0, .arrive 1 10, .arrive 2 10]

theorem overlappingProbes_admitted :
    ∃ s, run step (start 1 10 1 0) overlappingProbes = some s ∧ s.breaker.state = .halfOpen ∧
      s.current.length = 2 ∧ ¬ SingleProbe s := by
  refine ⟨_, rfl, by decide, by decide, fun single => ?_⟩
  exact absurd (single (by decide)) (by decide)

end Excalibur.Breaker
