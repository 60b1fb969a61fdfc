import Excalibur.GracefulShutdown.Drain
import Excalibur.Library.Amortized

/-! # How long a drain takes

Once `_shutdown` is set `run` never waits, and each job that is in the queue or still put
there costs it two steps.  So it is back after a number of its own steps that the queue at
the signal and the puts behind it determine, whatever the feeders do in between.
-/

namespace Excalibur.GracefulShutdown

open Excalibur.Library

/-- The steps of `run` to its return when the queue is empty. -/
def Runner.remaining : Runner → Nat
  | .getting => 4
  | .processing _ false => 4
  | .testing => 3
  | .processing _ true => 3
  | .draining => 2
  | .drained => 1
  | .returned => 0

namespace Process

/-- A bound on the steps of `run` to come when nothing more is put. -/
def toReturn (s : Process) : Nat := 2 * s.jobs.items.length + s.runner.remaining

def runs (_ : Process) (move : Move) : Bool := move = .run

/-- Whether the move is a `put` of `feed`. -/
def puts (s : Process) : Move → Bool
  | .feed thread =>
    match s.feeders[thread]? with
    | some (.putting _ _) => true
    | _ => false
  | _ => false

end Process

section Steps

variable {s next : Process} {move : Move}

theorem shutdown_step (stepped : s.step move = some next) (signalled : s.shutdown = true) :
    next.shutdown = true := by
  cases move with
  | signal =>
    cases stepped
    rfl
  | call thread n =>
    simp only [Process.step, Option.ite_none_right_eq_some] at stepped
    cases stepped.2
    exact signalled
  | feed thread =>
    simp only [Process.step] at stepped
    split at stepped
    · next feeder found =>
      cases feeder with
      | idle => cases stepped
      | putting i n =>
        obtain ⟨jobs, -, rfl⟩ := Option.map_eq_some_iff.mp stepped
        exact signalled
      | reading job i n | writing job accepted i n =>
        cases stepped
        exact signalled
    · cases stepped
  | run =>
    obtain ⟨-, -, -, -, -, same⟩ := runStep_keeps stepped
    exact same.trans signalled

/-- A step of `run` brings it nearer to its return. -/
theorem toReturn_run (signalled : s.shutdown = true) (stepped : s.runStep = some next) :
    next.toReturn < s.toReturn := by
  unfold Process.runStep at stepped
  split at stepped
  · next runner =>
    cases stepped
    simp [Process.toReturn, runner, signalled, Runner.remaining]
  · next runner =>
    split at stepped
    · next job jobs got =>
      obtain ⟨rest, items, rfl⟩ := FifoQueue.get_eq_some.mp got
      cases stepped
      simp [Process.toReturn, runner, items, Runner.remaining]
    · cases stepped
      simp [Process.toReturn, runner, Runner.remaining]
  · next job inDrain runner =>
    cases stepped
    cases inDrain
    all_goals simp [Process.toReturn, runner, Runner.remaining]
  · next runner =>
    split at stepped
    -- A job of the drain: one less in the queue, and back to its head in two steps.
    · next job jobs got =>
      obtain ⟨rest, items, rfl⟩ := FifoQueue.get_eq_some.mp got
      cases stepped
      simp only [Process.toReturn, runner, items, Runner.remaining, List.length_cons]
      omega
    · cases stepped
      simp [Process.toReturn, runner, Runner.remaining]
  · next runner =>
    cases stepped
    simp [Process.toReturn, runner, Runner.remaining]
  · cases stepped

theorem toReturn_feed {thread : Nat} (stepped : s.step (.feed thread) = some next) :
    next.toReturn = s.toReturn + 2 * (s.puts (.feed thread)).toNat := by
  simp only [Process.step] at stepped
  split at stepped
  · next feeder found =>
    cases feeder with
    | idle => cases stepped
    | putting i n =>
      obtain ⟨jobs, put, rfl⟩ := Option.map_eq_some_iff.mp stepped
      obtain ⟨-, rfl⟩ := FifoQueue.put_eq_some.mp put
      simp only [Process.toReturn, Process.setFeeder, Process.puts, found, List.length_append,
        List.length_singleton, Bool.toNat_true]
      omega
    | reading job i n | writing job accepted i n =>
      cases stepped
      simp [Process.toReturn, Process.setFeeder, Process.puts, found]
  · cases stepped

theorem toReturn_step (signalled : s.shutdown = true) (stepped : s.step move = some next) :
    (s.runs move).toNat + next.toReturn ≤ s.toReturn + 2 * (s.puts move).toNat := by
  cases move with
  | signal =>
    cases stepped
    simp [Process.runs, Process.toReturn]
  | call thread n =>
    simp only [Process.step, Option.ite_none_right_eq_some] at stepped
    cases stepped.2
    simp [Process.runs, Process.toReturn, Process.setFeeder]
  | feed thread =>
    rw [toReturn_feed stepped]
    simp [Process.runs]
  | run =>
    have nearer := toReturn_run signalled stepped
    simp only [Process.runs, decide_true, Bool.toNat_true]
    omega

theorem run_never_waits (goesOn : s.runner ≠ .returned) : ∃ next, s.step .run = some next := by
  simp only [Process.step, Process.runStep]
  cases runner : s.runner with
  | getting | draining =>
    cases s.jobs.get with
    | none => exact ⟨_, rfl⟩
    | some got => exact ⟨_, rfl⟩
  | testing | processing | drained => exact ⟨_, rfl⟩
  | returned => exact absurd runner goesOn

theorem remaining_le (runner : Runner) : runner.remaining ≤ 4 := by
  rcases runner with _ | _ | ⟨_, _ | _⟩ | _ | _ | _
  all_goals simp [Runner.remaining]

theorem remaining_pos {runner : Runner} (goesOn : runner ≠ .returned) : 0 < runner.remaining := by
  rcases runner with _ | _ | ⟨_, _ | _⟩ | _ | _ | _
  case returned => exact absurd rfl goesOn
  all_goals simp [Runner.remaining]

end Steps

/-- Once `_shutdown` is set, in any interleaving with the feeders: `run` takes at most two
    steps for each job in the queue or put behind the signal, and four more, and as long as
    it has not returned it has steps left and its next one is possible. -/
theorem drains_within {s finish : Process} {moves : List Move} (signalled : s.shutdown = true)
    (goes : run Process.step s moves = some finish) :
    countTaken Process.step Process.runs s moves ≤
        2 * (s.jobs.items.length + countTaken Process.step Process.puts s moves) + 4 ∧
      (finish.runner ≠ .returned →
        countTaken Process.step Process.runs s moves <
            2 * (s.jobs.items.length + countTaken Process.step Process.puts s moves) + 4 ∧
          ∃ next, finish.step .run = some next) := by
  have stays : ∀ state, Visited Process.step s moves state → state.shutdown = true :=
    visited_induction signalled fun _ _ _ _ stepped before => shutdown_step stepped before
  have counted : countTaken Process.step Process.runs s moves + finish.toReturn ≤
      s.toReturn + 2 * countTaken Process.step Process.puts s moves :=
    countTaken_add_le Process.toReturn 2 goes
      fun state move taken next stepped => toReturn_step (stays state taken.visited) stepped
  have first := remaining_le s.runner
  simp only [Process.toReturn] at counted
  refine ⟨by omega, ?_⟩
  intro goesOn
  have left := remaining_pos goesOn
  exact ⟨by omega, run_never_waits goesOn⟩

/-- A job is in the queue when the signal comes, and a feeder puts another one. -/
def signalledEarly : Process :=
  { Process.start 1 with
    jobs := { maxsize := 0, items := [{ ticket := 0, value := 7 }], unfinished := 1 },
    fed := 1, shutdown := true }

def lateFeed : List Move := [.call 0 1, .run, .run, .feed 0, .run, .run, .run, .run, .run]

theorem lateFeed_drains_within : ∃ finish, run Process.step signalledEarly lateFeed = some finish ∧
    finish.runner = .returned ∧
    countTaken Process.step Process.runs signalledEarly lateFeed ≤
      2 * (1 + countTaken Process.step Process.puts signalledEarly lateFeed) + 4 := by
  have goes : run Process.step signalledEarly lateFeed = some _ := rfl
  exact ⟨_, goes, rfl, (drains_within rfl goes).1⟩

end Excalibur.GracefulShutdown
