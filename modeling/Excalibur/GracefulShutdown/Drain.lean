import Excalibur.Library.FifoQueue
import Excalibur.Library.Run

/-! # Draining on a signal

One thread is in `Worker.run`, any threads call `feed`, and the signal handler sets
`_shutdown` at any moment.  `feed` never tests the flag: `drains_cleanly_iff` says that
a run keeps what the drain promises exactly when the signal comes after the last
iteration of every `feed`.
-/

namespace Excalibur.GracefulShutdown

open Excalibur.Library

/-- A job as it is put, with the number of puts before it. -/
structure Job where
  ticket : Nat
  value : Int
  deriving Repr, DecidableEq

structure Worker where
  jobs : FifoQueue Job
  processed : Nat
  accepted : Nat
  deriving Repr, DecidableEq

/-- Where a thread is in `feed`: about to put `i`, about to read `accepted` for its
    `+= 1`, or about to write it back. -/
inductive Feeder where
  | idle
  | putting (i n : Int)
  | reading (job : Job) (i n : Int)
  | writing (job : Job) (accepted : Nat) (i n : Int)
  deriving Repr, DecidableEq

/-- Where the thread in `run` is.  A job is processed in the main loop or in the drain. -/
inductive Runner where
  | testing
  | getting
  | processing (job : Job) (inDrain : Bool)
  | draining
  | drained
  | returned
  deriving Repr, DecidableEq

/-- `done` and `counted` record the jobs that `processed` and `accepted` count, and
    `late` those counted once `_shutdown` was set; `fed` is the number of puts. -/
structure Process extends Worker where
  shutdown : Bool
  runner : Runner
  feeders : List Feeder
  fed : Nat
  done : List Job
  counted : List Job
  late : List Job
  deriving Repr, DecidableEq

inductive Move where
  | signal
  | call (thread : Nat) (n : Int)
  | feed (thread : Nat)
  | run
  deriving Repr, DecidableEq

/-- The state of `feed` at the head of its loop. -/
def Feeder.loop (i n : Int) : Feeder := if i < n then .putting i n else .idle

def Runner.hand : Runner → List Job
  | .processing job _ => [job]
  | _ => []

namespace Process

def start (threads : Nat) : Process :=
  { jobs := .empty 0, processed := 0, accepted := 0, shutdown := false, runner := .testing,
    feeders := List.replicate threads .idle, fed := 0, done := [], counted := [], late := [] }

def setFeeder (s : Process) (thread : Nat) (feeder : Feeder) : Process :=
  { s with feeders := s.feeders.set thread feeder }

def feedStep (s : Process) (thread : Nat) : Feeder → Option Process
  | .idle => none
  | .putting i n =>
    let job : Job := { ticket := s.fed, value := i }
    (s.jobs.put job).map fun jobs =>
      { s with jobs := jobs, fed := s.fed + 1 }.setFeeder thread (.reading job i n)
  | .reading job i n => some (s.setFeeder thread (.writing job s.accepted i n))
  | .writing job accepted i n =>
    some ({ s with
      accepted := accepted + 1, counted := s.counted ++ [job],
      late := if s.shutdown then s.late ++ [job] else s.late }.setFeeder thread (.loop (i + 1) n))

def runStep (s : Process) : Option Process :=
  match s.runner with
  | .testing => some { s with runner := if s.shutdown then .draining else .getting }
  | .getting =>
    match s.jobs.get with
    | some (job, jobs) => some { s with jobs := jobs, runner := .processing job false }
    | none => some { s with runner := .testing }
  | .processing job inDrain =>
    some { s with
      processed := s.processed + 1, done := s.done ++ [job],
      runner := if inDrain then .draining else .testing }
  | .draining =>
    match s.jobs.get with
    | some (job, jobs) => some { s with jobs := jobs, runner := .processing job true }
    | none => some { s with runner := .drained }
  | .drained => some { s with runner := .returned }
  | .returned => none

def step (s : Process) : Move → Option Process
  | .signal => some { s with shutdown := true }
  | .call thread n =>
    if s.feeders[thread]? = some .idle then some (s.setFeeder thread (.loop 0 n)) else none
  | .feed thread =>
    match s.feeders[thread]? with
    | some feeder => s.feedStep thread feeder
    | none => none
  | .run => s.runStep

/-- The jobs put, in order. -/
def entered (s : Process) : List Job := s.done ++ s.runner.hand ++ s.jobs.items

end Process

/-! ## The ledger of a process -/

/-- The jobs a feeder has put and not counted yet. -/
def Feeder.hand : Feeder → List Job
  | .reading job _ _ => [job]
  | .writing job _ _ _ => [job]
  | _ => []

/-- Jobs put are processed, in the runner's hand or queued, in order and once; only
    such jobs are counted. -/
structure Ledger (s : Process) : Prop where
  tickets : s.entered.map Job.ticket = List.range s.fed
  counted : ∀ job ∈ s.counted, job ∈ s.entered
  uncounted : ∀ feeder ∈ s.feeders, ∀ job ∈ feeder.hand, job ∈ s.entered
  processed : s.processed = s.done.length

theorem ledger_start (threads : Nat) : Ledger (.start threads) := by
  refine ⟨rfl, ?_, ?_, rfl⟩
  · intro job counted
    cases counted
  · intro feeder member job held
    rw [List.eq_of_mem_replicate member] at held
    cases held

theorem hand_loop (i n : Int) : (Feeder.loop i n).hand = [] := by
  unfold Feeder.loop
  split <;> rfl

section Steps

variable {s next : Process}

/-- A feeder moves on to hold a job that is in the ledger already, or none. -/
theorem Ledger.setFeeder {thread : Nat} {feeder : Feeder} (ledger : Ledger s)
    (held : ∀ job ∈ feeder.hand, job ∈ s.entered) : Ledger (s.setFeeder thread feeder) := by
  refine ⟨ledger.tickets, ledger.counted, ?_, ledger.processed⟩
  intro other member job inHand
  obtain before | rfl := List.mem_or_eq_of_mem_set member
  · exact ledger.uncounted other before job inHand
  · exact held job inHand

theorem ledger_put (ledger : Ledger s) {i : Int} {jobs : FifoQueue Job}
    (put : s.jobs.put { ticket := s.fed, value := i } = some jobs) :
    Ledger { s with jobs := jobs, fed := s.fed + 1 } ∧
      ({ s with jobs := jobs, fed := s.fed + 1 } : Process).entered =
        s.entered ++ [{ ticket := s.fed, value := i }] := by
  obtain ⟨-, rfl⟩ := FifoQueue.put_eq_some.mp put
  have entered : s.done ++ s.runner.hand ++ (s.jobs.items ++ [{ ticket := s.fed, value := i }]) =
      s.entered ++ [{ ticket := s.fed, value := i }] := by
    rw [Process.entered, List.append_assoc]
    simp
  -- the new job has the next ticket, and the old ones keep their places
  refine ⟨⟨?_, ?_, ?_, ledger.processed⟩, entered⟩
  · show (s.done ++ s.runner.hand ++ _).map Job.ticket = _
    rw [entered, List.map_append, ledger.tickets, List.range_succ]
    rfl
  · intro job counted
    show job ∈ s.done ++ s.runner.hand ++ _
    rw [entered]
    exact List.mem_append_left _ (ledger.counted job counted)
  · intro feeder member job held
    show job ∈ s.done ++ s.runner.hand ++ _
    rw [entered]
    exact List.mem_append_left _ (ledger.uncounted feeder member job held)

theorem ledger_feed {thread : Nat} {feeder : Feeder} (ledger : Ledger s)
    (found : s.feeders[thread]? = some feeder) (stepped : s.feedStep thread feeder = some next) :
    Ledger next := by
  have held := ledger.uncounted feeder (List.mem_of_getElem? found)
  cases feeder with
  | idle => cases stepped
  | putting i n =>
    obtain ⟨jobs, put, rfl⟩ := Option.map_eq_some_iff.mp stepped
    obtain ⟨putLedger, entered⟩ := ledger_put ledger put
    apply putLedger.setFeeder
    intro job inHand
    rw [entered, List.mem_singleton.mp inHand]
    exact List.mem_append_right _ (List.mem_singleton_self _)
  | reading job i n =>
    -- `self.accepted += 1` has read the counter and not written it yet
    cases stepped
    exact ledger.setFeeder held
  | writing job accepted i n =>
    cases stepped
    -- the job is counted; it was in the ledger since its `put`
    have counted : Ledger { s with
        accepted := accepted + 1, counted := s.counted ++ [job],
        late := if s.shutdown then s.late ++ [job] else s.late } := by
      refine ⟨ledger.tickets, ?_, ledger.uncounted, ledger.processed⟩
      intro other member
      obtain before | rfl := List.mem_append.mp member |>.imp_right List.mem_singleton.mp
      · exact ledger.counted other before
      · exact held other (List.mem_singleton_self _)
    apply counted.setFeeder
    rw [hand_loop]
    intro other nothing
    cases nothing

/-- The runner moves jobs from the queue through its hand to those done. -/
theorem runStep_keeps (stepped : s.runStep = some next) :
    next.entered = s.entered ∧ next.counted = s.counted ∧ next.late = s.late ∧
      next.feeders = s.feeders ∧ next.fed = s.fed ∧ next.shutdown = s.shutdown := by
  unfold Process.runStep at stepped
  split at stepped
  -- `while not self._shutdown.is_set()`
  · rename_i runner
    cases stepped
    refine ⟨?_, rfl, rfl, rfl, rfl, rfl⟩
    by_cases shutdown : s.shutdown
    · simp [Process.entered, runner, Runner.hand, shutdown]
    · simp [Process.entered, runner, Runner.hand, shutdown]
  · rename_i runner
    split at stepped
    · rename_i job jobs got
      obtain ⟨rest, items, rfl⟩ := FifoQueue.get_eq_some.mp got
      cases stepped
      exact ⟨by simp [Process.entered, runner, Runner.hand, items], rfl, rfl, rfl, rfl, rfl⟩
    · cases stepped
      exact ⟨by simp [Process.entered, runner, Runner.hand], rfl, rfl, rfl, rfl, rfl⟩
  -- `self.processed += 1`, in the loop or in the drain
  · rename_i job inDrain runner
    cases stepped
    refine ⟨?_, rfl, rfl, rfl, rfl, rfl⟩
    cases inDrain <;> simp [Process.entered, runner, Runner.hand]
  -- the drain goes on until the queue is empty
  · rename_i runner
    split at stepped
    · rename_i job jobs got
      obtain ⟨rest, items, rfl⟩ := FifoQueue.get_eq_some.mp got
      cases stepped
      exact ⟨by simp [Process.entered, runner, Runner.hand, items], rfl, rfl, rfl, rfl, rfl⟩
    · cases stepped
      exact ⟨by simp [Process.entered, runner, Runner.hand], rfl, rfl, rfl, rfl, rfl⟩
  · rename_i runner
    cases stepped
    exact ⟨by simp [Process.entered, runner, Runner.hand], rfl, rfl, rfl, rfl, rfl⟩
  · cases stepped

theorem processed_runStep (processed : s.processed = s.done.length)
    (stepped : s.runStep = some next) : next.processed = next.done.length := by
  unfold Process.runStep at stepped
  split at stepped
  · cases stepped
    exact processed
  · split at stepped
    · cases stepped
      exact processed
    · cases stepped
      exact processed
  · cases stepped
    -- the only branch that counts is the one that is done with a job
    simp [processed]
  · split at stepped
    · cases stepped
      exact processed
    · cases stepped
      exact processed
  · cases stepped
    exact processed
  · cases stepped

theorem ledger_step {move : Move} (ledger : Ledger s) (stepped : s.step move = some next) :
    Ledger next := by
  cases move with
  | signal =>
    cases stepped
    exact ⟨ledger.tickets, ledger.counted, ledger.uncounted, ledger.processed⟩
  | call thread n =>
    simp only [Process.step] at stepped
    split at stepped
    · cases stepped
      -- A feeder that starts has taken no ticket yet.
      apply ledger.setFeeder
      rw [hand_loop]
      intro job nothing
      cases nothing
    · cases stepped
  | feed thread =>
    simp only [Process.step] at stepped
    split at stepped
    · rename_i feeder found
      exact ledger_feed ledger found stepped
    · cases stepped
  | run =>
    obtain ⟨entered, counted, -, feeders, fed, -⟩ := runStep_keeps stepped
    refine ⟨?_, ?_, ?_, processed_runStep ledger.processed stepped⟩
    · rw [entered, fed, ledger.tickets]
    · rw [counted, entered]
      exact ledger.counted
    · rw [feeders, entered]
      exact ledger.uncounted

end Steps

/-! ## Feeding before the signal -/

/-- Every counted job is processed once when `run` has returned, and no job is counted
    once `_shutdown` is set, so none after that either. -/
structure DrainsCleanly (s : Process) : Prop where
  processedOnce : s.runner = .returned → ∀ job ∈ s.counted, s.done.count job = 1
  stopsAccepting : s.late = []

/-- The signal comes when no `feed` has an iteration left, and a `feed` that is called
    once `_shutdown` is set has nothing to put. -/
def InTime (s : Process) : Move → Prop
  | .signal => ∀ feeder ∈ s.feeders, feeder = .idle
  | .call _ n => s.shutdown = true → n ≤ 0
  | .feed _ => True
  | .run => True

/-- The runner is past its main loop. -/
def Runner.stopping : Runner → Bool
  | .processing _ inDrain => inDrain
  | .draining => true
  | .drained => true
  | .returned => true
  | _ => false

/-- Once `_shutdown` is set nobody feeds, so what the drain found empty stays empty. -/
structure Quiet (s : Process) : Prop where
  idle : s.shutdown = true → ∀ feeder ∈ s.feeders, feeder = .idle
  late : s.late = []
  signalled : s.runner.stopping = true → s.shutdown = true
  drained : s.runner = .drained ∨ s.runner = .returned → s.jobs.items = []

theorem quiet_start (threads : Nat) : Quiet (.start threads) := by
  refine ⟨?_, rfl, ?_, ?_⟩
  · intro shutdown
    cases shutdown
  · intro stopping
    cases stopping
  · rintro (drained | returned)
    · cases drained
    · cases returned

section Steps

variable {s next : Process}

theorem quiet_feed {thread : Nat} {feeder : Feeder} (quiet : Quiet s)
    (found : s.feeders[thread]? = some feeder) (stepped : s.feedStep thread feeder = some next) :
    Quiet next := by
  -- A feeder with a step to take is not idle, so the signal has not come yet.
  have running : s.shutdown ≠ true := by
    intro shutdown
    rw [quiet.idle shutdown feeder (List.mem_of_getElem? found)] at stepped
    cases stepped
  have inLoop : ¬ (s.runner = .drained ∨ s.runner = .returned) := by
    rintro (drained | returned)
    · exact running (quiet.signalled (by rw [drained]; rfl))
    · exact running (quiet.signalled (by rw [returned]; rfl))
  cases feeder with
  | idle => cases stepped
  | putting i n =>
    obtain ⟨jobs, put, rfl⟩ := Option.map_eq_some_iff.mp stepped
    exact ⟨fun shutdown => absurd shutdown running, quiet.late, quiet.signalled,
      fun drained => absurd drained inLoop⟩
  | reading job i n =>
    cases stepped
    exact ⟨fun shutdown => absurd shutdown running, quiet.late, quiet.signalled, quiet.drained⟩
  | writing job accepted i n =>
    cases stepped
    refine ⟨fun shutdown => absurd shutdown running, ?_, quiet.signalled, quiet.drained⟩
    show (if s.shutdown = true then s.late ++ [job] else s.late) = []
    rw [if_neg running, quiet.late]

theorem quiet_run (quiet : Quiet s) (stepped : s.runStep = some next) : Quiet next := by
  obtain ⟨-, -, late, feeders, -, shutdown⟩ := runStep_keeps stepped
  have idle : next.shutdown = true → ∀ feeder ∈ next.feeders, feeder = .idle := by
    rw [shutdown, feeders]
    exact quiet.idle
  have stillLate : next.late = [] := late.trans quiet.late
  have signalled := quiet.signalled
  have drained := quiet.drained
  unfold Process.runStep at stepped
  split at stepped
  · cases stepped
    refine ⟨idle, stillLate, ?_, ?_⟩
    -- the runner leaves its loop only when it finds the flag set
    · cases s.shutdown <;> simp [Runner.stopping]
    · cases s.shutdown <;> simp
  · split at stepped
    · cases stepped
      exact ⟨idle, stillLate, by simp [Runner.stopping], by simp⟩
    · cases stepped
      exact ⟨idle, stillLate, by simp [Runner.stopping], by simp⟩
  · rename_i job inDrain runner
    cases stepped
    rw [runner] at signalled
    refine ⟨idle, stillLate, ?_, ?_⟩
    · cases inDrain
      · simp [Runner.stopping]
      · exact signalled
    · cases inDrain <;> simp
  · rename_i runner
    rw [runner] at signalled
    split at stepped
    · cases stepped
      exact ⟨idle, stillLate, signalled, by simp⟩
    · rename_i nothing
      cases stepped
      refine ⟨idle, stillLate, signalled, fun _ => ?_⟩
      -- `get_nowait` found the queue empty, and no `feed` is left to fill it
      cases items : s.jobs.items with
      | nil => rfl
      | cons job rest => simp [FifoQueue.get, items] at nothing
  · rename_i runner
    rw [runner] at signalled
    cases stepped
    exact ⟨idle, stillLate, signalled, fun _ => drained (.inl runner)⟩
  · cases stepped

theorem quiet_step {move : Move} (quiet : Quiet s) (inTime : InTime s move)
    (stepped : s.step move = some next) : Quiet next := by
  cases move with
  | signal =>
    cases stepped
    exact ⟨fun _ => inTime, quiet.late, fun _ => rfl, quiet.drained⟩
  | call thread n =>
    simp only [Process.step] at stepped
    split at stepped
    · cases stepped
      refine ⟨?_, quiet.late, quiet.signalled, quiet.drained⟩
      intro shutdown feeder member
      obtain before | rfl := List.mem_or_eq_of_mem_set member
      · exact quiet.idle shutdown feeder before
      -- a `feed` called now has nothing to put
      · exact if_neg (Int.not_lt.mpr (inTime shutdown))
    · cases stepped
  | feed thread =>
    simp only [Process.step] at stepped
    split at stepped
    · rename_i feeder found
      exact quiet_feed quiet found stepped
    · cases stepped
  | run => exact quiet_run quiet stepped

theorem drainsCleanly_of_quiet (ledger : Ledger s) (quiet : Quiet s) : DrainsCleanly s := by
  refine ⟨?_, quiet.late⟩
  intro returned job counted
  have entered : s.entered = s.done := by
    rw [Process.entered, returned, quiet.drained (.inr returned)]
    simp [Runner.hand]
  -- tickets are distinct, so no job is done twice
  have once : s.done.Nodup := by
    apply List.Nodup.of_map Job.ticket
    rw [← entered, ledger.tickets]
    exact List.nodup_range
  apply List.count_eq_one_of_mem once
  rw [← entered]
  exact ledger.counted job counted

/-! ## Feeding after the signal -/

/-- A job has been counted after the signal, or a `feed` still has to count one. -/
def Overrun (s : Process) : Prop :=
  s.shutdown = true ∧
    (s.late ≠ [] ∨
      ∃ (thread : Nat) (feeder : Feeder), s.feeders[thread]? = some feeder ∧ feeder ≠ .idle)

theorem loop_ne_idle {i n : Int} (more : i < n) : Feeder.loop i n ≠ .idle := by
  simp [Feeder.loop, more]

theorem overrun_of_late {move : Move} (late : ¬ InTime s move) (stepped : s.step move = some next) :
    Overrun next := by
  cases move with
  | signal =>
    cases stepped
    refine ⟨rfl, .inr ?_⟩
    simp only [InTime, not_forall] at late
    obtain ⟨feeder, member, busy⟩ := late
    obtain ⟨thread, found⟩ := List.mem_iff_getElem?.mp member
    exact ⟨thread, feeder, found, busy⟩
  | call thread n =>
    simp only [InTime, not_forall] at late
    obtain ⟨shutdown, more⟩ := late
    simp only [Process.step] at stepped
    split at stepped
    · rename_i idle
      cases stepped
      refine ⟨shutdown, .inr ⟨thread, .loop 0 n, ?_, loop_ne_idle (Int.not_le.mp more)⟩⟩
      exact List.getElem?_set_self (List.getElem?_eq_some_iff.mp idle).1
    · cases stepped
  | feed thread => exact absurd trivial late
  | run => exact absurd trivial late

theorem overrun_feed {thread : Nat} {feeder : Feeder} (overrun : Overrun s)
    (found : s.feeders[thread]? = some feeder) (stepped : s.feedStep thread feeder = some next) :
    Overrun next := by
  obtain ⟨shutdown, late⟩ := overrun
  have inside := (List.getElem?_eq_some_iff.mp found).1
  cases feeder with
  | idle => cases stepped
  | putting i n =>
    obtain ⟨jobs, put, rfl⟩ := Option.map_eq_some_iff.mp stepped
    exact ⟨shutdown, .inr ⟨thread, .reading _ i n, List.getElem?_set_self inside, by simp⟩⟩
  | reading job i n =>
    cases stepped
    exact ⟨shutdown, .inr ⟨thread, .writing job _ i n, List.getElem?_set_self inside, by simp⟩⟩
  | writing job accepted i n =>
    cases stepped
    refine ⟨shutdown, .inl ?_⟩
    show (if s.shutdown = true then s.late ++ [job] else s.late) ≠ []
    rw [if_pos shutdown]
    simp

theorem overrun_step {move : Move} (overrun : Overrun s) (stepped : s.step move = some next) :
    Overrun next := by
  cases move with
  | signal =>
    cases stepped
    exact ⟨rfl, overrun.2⟩
  | call thread n =>
    simp only [Process.step] at stepped
    split at stepped
    · rename_i idle
      cases stepped
      obtain ⟨shutdown, late | ⟨other, feeder, found, busy⟩⟩ := overrun
      · exact ⟨shutdown, .inl late⟩
      -- the thread that is called was idle, so it is not the busy one
      · have different : thread ≠ other := by
          rintro rfl
          exact busy (Option.some.inj (found.symm.trans idle))
        exact ⟨shutdown, .inr ⟨other, feeder, (List.getElem?_set_ne different).trans found, busy⟩⟩
    · cases stepped
  | feed thread =>
    simp only [Process.step] at stepped
    split at stepped
    · rename_i feeder found
      exact overrun_feed overrun found stepped
    · cases stepped
  | run =>
    obtain ⟨-, -, late, feeders, -, shutdown⟩ := runStep_keeps stepped
    rw [Overrun, shutdown, late, feeders]
    exact overrun

end Steps

/-- A run in which every `feed` is over before the signal drains cleanly, and one in
    which all `feed` calls have returned drains cleanly only then. -/
theorem drains_cleanly_iff (threads : Nat) (moves : List Move) :
    ((∀ s move, Taken Process.step (.start threads) moves s move → InTime s move) →
      ∀ s, Visited Process.step (.start threads) moves s → DrainsCleanly s) ∧
    ∀ final, run Process.step (.start threads) moves = some final →
      (∀ feeder ∈ final.feeders, feeder = .idle) →
        (∀ s, Visited Process.step (.start threads) moves s → DrainsCleanly s) →
          ∀ s move, Taken Process.step (.start threads) moves s move → InTime s move := by
  constructor
  · intro inTime s visited
    have kept : Ledger s ∧ Quiet s := by
      apply visited_induction ⟨ledger_start threads, quiet_start threads⟩ ?_ s visited
      rintro state move next taken stepped ⟨ledger, quiet⟩
      exact ⟨ledger_step ledger stepped, quiet_step quiet (inTime state move taken) stepped⟩
    exact drainsCleanly_of_quiet kept.1 kept.2
  · intro final reached ended cleanly s move taken
    -- from the late move on the run is overrun, and at its end every `feed` is over
    by_contra late
    obtain ⟨before, after, next, rfl, reachedHere, stepped⟩ := taken
    have rest : run Process.step next after = some final := by
      rw [run_append, reachedHere, Option.bind_some, run_cons, stepped] at reached
      exact reached
    have overrun : Overrun final := by
      apply run_invariant (overrun_of_late late stepped) ?_ after final (visited_finish rest)
      intro state move following moved overrun
      exact overrun_step overrun moved
    obtain ⟨-, counted | ⟨thread, feeder, found, busy⟩⟩ := overrun
    · exact counted (cleanly final (visited_finish reached)).stopsAccepting
    · exact busy (ended feeder (List.mem_of_getElem? found))

/-- The drain finds the queue empty, then one job is fed, then `run` returns. -/
def feedAfterDrain : List Move :=
  [.signal, .run, .run, .call 0 1, .feed 0, .feed 0, .feed 0, .run]

def jobLeftBehind : Process :=
  { jobs := { maxsize := 0, items := [{ ticket := 0, value := 0 }], unfinished := 1 },
    processed := 0, accepted := 1, shutdown := true, runner := .returned, feeders := [.idle],
    fed := 1, done := [], counted := [{ ticket := 0, value := 0 }],
    late := [{ ticket := 0, value := 0 }] }

theorem feedAfterDrain_loses_job :
    ¬ ∀ moves s, Visited Process.step (.start 1) moves s → DrainsCleanly s := by
  intro cleanly
  have visited : Visited Process.step (.start 1) feedAfterDrain jobLeftBehind := visited_finish rfl
  have once := (cleanly feedAfterDrain jobLeftBehind visited).processedOnce rfl
    { ticket := 0, value := 0 } (List.mem_singleton_self _)
  exact absurd once (by decide)

end Excalibur.GracefulShutdown
