import Excalibur.WorkerPool.Pool
import Excalibur.Library.Run

/-! # Submitting during a shutdown

Any threads may call `submit` while one is in `shutdown`, and nothing but the queue
is between them.  A task put before the last sentinel is reached by a worker on its
way to that sentinel; a task put after it is accepted and stays in the queue when
`shutdown` returns.
-/

namespace Excalibur.WorkerPool

open Excalibur.Library

variable {α β : Type}

/-- `accepted` records the tasks of the `submit` calls that returned. -/
structure Service (α β : Type) where
  pool : Pool α β
  phase : Shutdown
  accepted : List α
  deriving Repr, DecidableEq

inductive ServiceMove (α : Type) where
  | submit (task : α)
  | shutdown
  | worker (move : WorkerMove)
  deriving Repr, DecidableEq

namespace Service

def start (numWorkers : Nat) (maxQueue : Int) : Service α β :=
  { pool := .start numWorkers maxQueue, phase := .joining, accepted := [] }

def step (doWork : α → Option β) (s : Service α β) : ServiceMove α → Option (Service α β)
  | .submit task =>
    (s.pool.submit task).map fun pool =>
      { s with pool := pool, accepted := s.accepted ++ [task] }
  | .shutdown =>
    (s.pool.shutdownStep s.phase).map fun (phase, pool) => { s with pool := pool, phase := phase }
  | .worker move => (s.pool.workerStep doWork move).map fun pool => { s with pool := pool }

structure Invariant (doWork : α → Option β) (numWorkers : Nat) (s : Service α β) : Prop where
  keeps : Keeps doWork s.pool
  shuts : ShutsDown numWorkers s.phase s.pool
  joins : Joins numWorkers s.phase s.pool
  accepted : s.pool.entered.filterMap Message.work = s.accepted

/-- Once the last sentinel is put, nothing is put after it. -/
def Sealed (numWorkers : Nat) (s : Service α β) : Prop :=
  s.phase.pills numWorkers = numWorkers → ∃ front, s.pool.entered = front ++ [.shutdown]

/-- A task is in the queue behind all sentinels. -/
def Stranded (numWorkers : Nat) (s : Service α β) : Prop :=
  s.phase.pills numWorkers = numWorkers ∧ ∃ front task, s.pool.tasks.items = front ++ [.task task]

/-- Every task accepted so far was processed once. -/
structure ProcessedOnce (doWork : α → β) (s : Service α β) : Prop where
  attempted : s.pool.attempted.Perm s.accepted
  recorded : s.pool.results.Perm (s.accepted.map doWork)

end Service

section Steps

variable {doWork : α → Option β} {numWorkers : Nat} {s next : Service α β}

theorem service_start (numWorkers : Nat) (maxQueue : Int) :
    (.start numWorkers maxQueue : Service α β).Invariant doWork numWorkers :=
  ⟨keeps_start _ _, shutsDown_start _ _, fun _ early => absurd early (Nat.not_lt_zero _), rfl⟩

theorem service_step {move : ServiceMove α} (invariant : s.Invariant doWork numWorkers)
    (stepped : s.step doWork move = some next) : next.Invariant doWork numWorkers := by
  obtain ⟨keeps, shuts, joins, accepted⟩ := invariant
  cases move with
  | submit task =>
    obtain ⟨pool, submitted, rfl⟩ := Option.map_eq_some_iff.mp stepped
    have stillShuts := shutsDown_submit shuts submitted
    obtain ⟨queue, put, rfl⟩ := Option.map_eq_some_iff.mp submitted
    -- the task counts as accepted from its `put` on
    refine ⟨keeps_put keeps put, stillShuts, joins, ?_⟩
    rw [entered_put put, List.filterMap_append, accepted]
    rfl
  | shutdown =>
    obtain ⟨⟨phase, pool⟩, shutStep, rfl⟩ := Option.map_eq_some_iff.mp stepped
    have stillShuts := shutsDown_shutdownStep shuts shutStep
    have stillJoins := joins_shutdownStep shuts.size joins shutStep
    obtain ⟨-, -, -, rfl⟩ | ⟨k, queue, -, -, -, put, rfl⟩ | ⟨k, -, -, -, rfl⟩ |
      ⟨k, message, -, -, -, rfl⟩ | ⟨k, -, -, -, rfl⟩ := shutdownStep_cases shutStep
    · exact ⟨keeps, stillShuts, stillJoins, accepted⟩
    -- a sentinel is no task
    · refine ⟨keeps_put keeps put, stillShuts, stillJoins, ?_⟩
      rw [entered_put put, List.filterMap_append, accepted]
      exact List.append_nil _
    · exact ⟨keeps, stillShuts, stillJoins, accepted⟩
    · exact ⟨keeps, stillShuts, stillJoins, accepted⟩
    · exact ⟨keeps, stillShuts, stillJoins, accepted⟩
  | worker move =>
    obtain ⟨pool, workerStepped, rfl⟩ := Option.map_eq_some_iff.mp stepped
    refine ⟨keeps_workerStep keeps workerStepped, shutsDown_workerStep shuts workerStepped,
      joins_workerStep joins workerStepped, ?_⟩
    rw [(workerStep_keeps workerStepped).1, accepted]

/-- Sentinels are put last as long as no task is put after the last one. -/
theorem sealed_step {move : ServiceMove α} (positive : 1 ≤ numWorkers)
    (invariant : s.Invariant doWork numWorkers) (sealed : s.Sealed numWorkers)
    (early : ∀ task, move = .submit task → s.phase.pills numWorkers < numWorkers)
    (stepped : s.step doWork move = some next) : next.Sealed numWorkers := by
  cases move with
  | submit task =>
    obtain ⟨pool, submitted, rfl⟩ := Option.map_eq_some_iff.mp stepped
    -- not all sentinels are put yet, so nothing has to be last
    intro all
    have less := early task rfl
    exact absurd all (Nat.ne_of_lt less)
  | shutdown =>
    obtain ⟨⟨phase, pool⟩, shutStep, rfl⟩ := Option.map_eq_some_iff.mp stepped
    intro all
    have pillsLe := invariant.shuts.pillsLe
    obtain ⟨-, rfl, -, rfl⟩ | ⟨k, queue, -, -, -, put, rfl⟩ | ⟨k, was, -, every, rfl⟩ |
      ⟨k, message, was, -, -, rfl⟩ | ⟨k, was, -, -, rfl⟩ := shutdownStep_cases shutStep
    · simp only [Shutdown.pills] at all
      omega
    -- the last sentinel goes behind everything else
    · exact ⟨s.pool.entered, entered_put put⟩
    · rw [invariant.shuts.size] at every
      rw [was] at pillsLe
      exact sealed (by rw [was]; exact Nat.le_antisymm pillsLe every)
    · exact sealed (by rw [was]; rfl)
    · exact sealed (by rw [was]; rfl)
  | worker move =>
    obtain ⟨pool, workerStepped, rfl⟩ := Option.map_eq_some_iff.mp stepped
    intro all
    obtain ⟨front, entered⟩ := sealed all
    refine ⟨front, ?_⟩
    rw [(workerStep_keeps workerStepped).1, entered]

/-- `pills` counts past the last sentinel only where nothing is put any more. -/
theorem shutdown_after_last {phase : Shutdown} {pool : Pool α β}
    (shuts : ShutsDown numWorkers s.phase s.pool) (all : s.phase.pills numWorkers = numWorkers)
    (positive : 1 ≤ numWorkers) (stepped : s.pool.shutdownStep s.phase = some (phase, pool)) :
    phase.pills numWorkers = numWorkers ∧ pool = s.pool := by
  obtain ⟨was, rfl, -, rfl⟩ | ⟨k, queue, was, rfl, more, put, rfl⟩ | ⟨k, was, rfl, every, rfl⟩ |
    ⟨k, message, was, rfl, gone, rfl⟩ | ⟨k, was, rfl, every, rfl⟩ := shutdownStep_cases stepped
  · rw [was] at all
    simp only [Shutdown.pills] at all
    omega
  -- a sentinel is put only while some are missing
  · rw [was] at all
    rw [shuts.size] at more
    simp only [Shutdown.pills] at all
    omega
  · exact ⟨rfl, rfl⟩
  · exact ⟨rfl, rfl⟩
  · exact ⟨rfl, rfl⟩

/-- A task behind all sentinels stays there. -/
theorem stranded_step {move : ServiceMove α} (positive : 1 ≤ numWorkers)
    (invariant : s.Invariant doWork numWorkers) (stranded : s.Stranded numWorkers)
    (stepped : s.step doWork move = some next) : next.Stranded numWorkers := by
  obtain ⟨all, front, task, items⟩ := stranded
  cases move with
  | submit other =>
    obtain ⟨pool, submitted, rfl⟩ := Option.map_eq_some_iff.mp stepped
    obtain ⟨queue, put, rfl⟩ := Option.map_eq_some_iff.mp submitted
    obtain ⟨-, rfl⟩ := FifoQueue.put_eq_some.mp put
    exact ⟨all, s.pool.tasks.items, other, rfl⟩
  | shutdown =>
    obtain ⟨⟨phase, pool⟩, shutStep, rfl⟩ := Option.map_eq_some_iff.mp stepped
    obtain ⟨still, rfl⟩ := shutdown_after_last invariant.shuts all positive shutStep
    exact ⟨still, front, task, items⟩
  | worker move =>
    obtain ⟨pool, workerStepped, rfl⟩ := Option.map_eq_some_iff.mp stepped
    obtain ⟨i, message, workers, rest, queued, took, rfl⟩ | ⟨i, message, workers, handled, rfl⟩ |
      ⟨i, workers, finished, -, rfl⟩ := workerStep_cases workerStepped
    · refine ⟨all, ?_⟩
      rw [items] at queued
      cases front with
      | nil =>
        -- The stranded task cannot be the first in the queue: nobody is left to take it.
        have noneIdle := nobody_idle invariant.keeps invariant.shuts all (by rw [items]; rfl) i
        exact absurd (Crew.take_eq_some.mp took).1 noneIdle
      | cons first others =>
        obtain ⟨-, rfl⟩ := List.cons.inj queued
        exact ⟨others, task, rfl⟩
    · exact ⟨all, front, task, items⟩
    · exact ⟨all, front, task, items⟩

theorem not_processed_of_stranded {doWork : α → β}
    (invariant : s.Invariant (fun task => some (doWork task)) numWorkers)
    (stranded : s.Stranded numWorkers) : ¬ s.ProcessedOnce doWork := by
  intro processed
  obtain ⟨-, front, task, items⟩ := stranded
  have kept := (invariant.keeps.accounts.kept.filterMap Message.work).length_eq
  have same := processed.attempted.length_eq
  rw [← invariant.accepted, Pool.entered, items] at same
  simp only [List.filterMap_append, List.length_append] at kept same
  have one : ([Message.task task].filterMap Message.work).length = 1 := rfl
  rw [kept, one, Pool.attempted] at same
  omega

theorem processed_of_sealed {doWork : α → β}
    (invariant : s.Invariant (fun task => some (doWork task)) numWorkers)
    (sealed : s.Sealed numWorkers) (returned : s.phase = .returned) : s.ProcessedOnce doWork := by
  have shuts := invariant.shuts
  have joins := invariant.joins
  rw [returned] at shuts joins
  have exited := exited_of_returned shuts.size joins
  have ended := ends_taken invariant.keeps
  rw [Crew.departures_of_gone _ exited, shuts.size, Message.ends_of_noneRaises fun _ => rfl] at ended
  have pills := shuts.pills
  rw [Pool.entered, List.countP_append, ended] at pills
  obtain ⟨front, entered⟩ := sealed (by rw [returned]; rfl)
  -- The sentinel that was put last is taken, so the queue is empty.
  have empty : s.pool.tasks.items = [] := by
    apply eq_nil_of_last_taken entered
    intro left
    have noneLeft : s.pool.tasks.items.countP Message.isShutdown = 0 := by
      simp only [Shutdown.pills] at pills
      omega
    exact List.countP_eq_zero.mp noneLeft _ left rfl
  have attempted : s.pool.attempted.Perm s.accepted := by
    rw [← invariant.accepted, Pool.entered, empty, List.append_nil]
    exact ((invariant.keeps.accounts.handled_of_gone exited).filterMap Message.work).symm
  refine ⟨attempted, ?_⟩
  rw [invariant.keeps.recorded]
  have mapped : s.pool.attempted.filterMap (fun task => some (doWork task)) =
      s.pool.attempted.map doWork := congrFun List.filterMap_eq_map _
  rw [mapped]
  exact attempted.map doWork

end Steps

/-- By the time `shutdown` returns, every accepted task has been processed once
    exactly in the runs where no `submit` takes effect after the last sentinel is put. -/
theorem accepted_processed_iff (numWorkers : Nat) (positive : 1 ≤ numWorkers) (maxQueue : Int)
    (doWork : α → β) (moves : List (ServiceMove α)) (final : Service α β)
    (reached : run (Service.step fun task => some (doWork task)) (.start numWorkers maxQueue) moves =
      some final)
    (returned : final.phase = .returned) :
    final.ProcessedOnce doWork ↔ ∀ s task,
      Taken (Service.step fun task => some (doWork task)) (.start numWorkers maxQueue) moves s
        (.submit task) → s.phase.pills numWorkers < numWorkers := by
  have kept : ∀ s, Visited (Service.step fun task => some (doWork task))
      (.start numWorkers maxQueue) moves s →
        s.Invariant (fun task => some (doWork task)) numWorkers := by
    apply run_invariant (service_start numWorkers maxQueue)
    intro s move next stepped before
    exact service_step before stepped
  constructor
  · intro processed s task taken
    by_contra late
    have invariant := kept s taken.visited
    have all : s.phase.pills numWorkers = numWorkers :=
      Nat.le_antisymm invariant.shuts.pillsLe (Nat.not_lt.mp late)
    obtain ⟨before, after, next, rfl, reachedHere, stepped⟩ := taken
    -- The rest of the run starts with the task behind all sentinels.
    have rest : run (Service.step fun task => some (doWork task)) next after = some final := by
      rw [run_append, reachedHere, Option.bind_some, run_cons, stepped] at reached
      exact reached
    have stranded : next.Stranded numWorkers := by
      obtain ⟨pool, submitted, rfl⟩ := Option.map_eq_some_iff.mp stepped
      obtain ⟨queue, put, rfl⟩ := Option.map_eq_some_iff.mp submitted
      obtain ⟨-, rfl⟩ := FifoQueue.put_eq_some.mp put
      exact ⟨all, s.pool.tasks.items, task, rfl⟩
    have atEnd : final.Invariant (fun task => some (doWork task)) numWorkers ∧
        final.Stranded numWorkers := by
      apply run_invariant ⟨service_step invariant stepped, stranded⟩ ?_ after final
        (visited_finish rest)
      rintro state move following moved ⟨held, behind⟩
      exact ⟨service_step held moved, stranded_step positive held behind moved⟩
    exact not_processed_of_stranded atEnd.1 atEnd.2 processed
  · intro early
    have sealed : final.Sealed numWorkers := by
      apply visited_induction ?_ ?_ final (visited_finish reached)
      · intro none
        simp only [Service.start, Shutdown.pills] at none
        omega
      · intro state move next taken stepped sealed
        apply sealed_step positive (kept state taken.visited) sealed ?_ stepped
        rintro task rfl
        exact early state task taken
    exact processed_of_sealed (kept final (visited_finish reached)) sealed returned

/-- The sentinel is put, one task is submitted, and the worker ends. -/
def lateSubmit : List (ServiceMove Int) :=
  [.shutdown, .shutdown, .submit 3, .worker (.get 0), .worker (.work 0), .worker (.taskDone 0),
    .shutdown, .shutdown, .shutdown]

def lateSubmitDone : Service Int Int :=
  { pool :=
      { tasks := { maxsize := 0, items := [.task 3], unfinished := 1 },
        workers :=
          { members := [.gone .shutdown], taken := [(0, .shutdown)], handled := [.shutdown] },
        completed := 0, results := [] },
    phase := .returned, accepted := [3] }

theorem lateSubmit_iff :
    lateSubmitDone.ProcessedOnce (fun n : Int => n * n) ↔ ∀ s task,
      Taken (Service.step fun n : Int => some (n * n)) (.start 1 0) lateSubmit s (.submit task) →
        s.phase.pills 1 < 1 :=
  accepted_processed_iff 1 (by decide) 0 (fun n => n * n) lateSubmit lateSubmitDone rfl rfl

theorem lateSubmit_loses_task :
    ¬ ∀ moves final, run (Service.step fun n : Int => some (n * n)) (.start 1 0) moves = some final →
      final.phase = .returned → final.ProcessedOnce fun n => n * n := by
  intro processed
  have lost := (processed lateSubmit lateSubmitDone rfl rfl).recorded
  exact absurd lost.length_eq (by decide)

end Excalibur.WorkerPool
