import Excalibur.WorkerPool.Batch

/-! # Tasks that raise

An exception in `_do_work` marks its task as done and ends the worker's thread, and
nothing starts another.  `failing_tasks_harmless_iff` says when that goes unnoticed:
fewer tasks than workers raise before the last task, and the sentinels that the lost
workers leave in the queue fit in it.
-/

namespace Excalibur.WorkerPool

open Excalibur.Library

variable {α β : Type}

/-- What holds of a run in which tasks may raise: nobody waits for ever, and at
    the end every task was taken and attempted once and every result recorded. -/
structure Survives (doWork : α → Option β) (tasks : List α) (s : Batch α β) : Prop where
  live : s.phase ≠ .returned → s.CanMove doWork
  taken : s.phase = .returned → s.taken.Perm tasks
  attempted : s.phase = .returned → s.pool.attempted.Perm tasks
  recorded : s.phase = .returned → s.pool.results.Perm (tasks.filterMap doWork)

/-! ## Every run comes to a halt -/

def Shutdown.rank (numWorkers : Nat) : Shutdown → Nat
  | .joining => 5 * numWorkers + 3
  | .stopping k => 4 * (numWorkers - k) + numWorkers + 2
  | .awaiting k => (numWorkers - k) + 1
  | .returned => 0

/-- What is left to do: each task is put, taken, handled and finished. -/
def Batch.rank (s : Batch α β) : Nat :=
  4 * s.todo.length + 3 * s.pool.tasks.items.length + s.pool.workers.inHand.length +
    s.pool.workers.inWork.length + s.phase.rank s.pool.workers.members.length

section Steps

variable {doWork : α → Option β} {numWorkers : Nat} {maxQueue : Int} {tasks : List α}
  {s next : Batch α β}

theorem rank_worker {move : WorkerMove} {pool : Pool α β}
    (stepped : s.pool.workerStep doWork move = some pool) :
    ({ s with pool := pool } : Batch α β).rank < s.rank := by
  have size := (workerStep_keeps stepped).2.2
  unfold Batch.rank
  rw [size]
  obtain ⟨i, message, workers, rest, items, took, rfl⟩ | ⟨i, message, workers, handled, rfl⟩ |
    ⟨i, workers, finished, some, rfl⟩ := workerStep_cases stepped
  · have inHand := (Crew.inHand_take took).length_eq
    have inWork := (Crew.inWork_take took).length_eq
    simp only [items, inHand, inWork, List.length_cons]
    omega
  · have inHand := (Crew.inHand_handle handled).length_eq
    simp only [inHand, Crew.inWork_handle handled, List.length_cons]
    omega
  · obtain ⟨message, less⟩ := Crew.inWork_finish finished
    have inWork := less.length_eq
    simp only [inWork, Crew.inHand_finish finished, List.length_cons]
    omega

theorem rank_shutdown {phase : Shutdown} {pool : Pool α β}
    (stepped : s.pool.shutdownStep s.phase = some (phase, pool)) :
    ({ s with pool := pool, phase := phase } : Batch α β).rank < s.rank := by
  obtain ⟨was, rfl, -, rfl⟩ | ⟨k, queue, was, rfl, more, put, rfl⟩ | ⟨k, was, rfl, all, rfl⟩ |
    ⟨k, message, was, rfl, gone, rfl⟩ | ⟨k, was, rfl, all, rfl⟩ := shutdownStep_cases stepped
  · simp only [Batch.rank, was, Shutdown.rank]
    omega
  · obtain ⟨-, rfl⟩ := FifoQueue.put_eq_some.mp put
    simp only [Batch.rank, was, Shutdown.rank, List.length_append, List.length_singleton]
    omega
  · simp only [Batch.rank, was, Shutdown.rank]
    omega
  · have inside := (List.getElem?_eq_some_iff.mp gone).1
    simp only [Batch.rank, was, Shutdown.rank]
    omega
  · simp only [Batch.rank, was, Shutdown.rank]
    omega

theorem rank_step {move : BatchMove} (stepped : s.step doWork move = some next) :
    next.rank < s.rank := by
  cases move with
  | submit =>
    simp only [Batch.step] at stepped
    split at stepped
    -- the first of the four moves that are made for the task
    · rename_i task rest todo
      obtain ⟨pool, submitted, rfl⟩ := Option.map_eq_some_iff.mp stepped
      obtain ⟨queue, put, rfl⟩ := Option.map_eq_some_iff.mp submitted
      obtain ⟨-, rfl⟩ := FifoQueue.put_eq_some.mp put
      simp only [Batch.rank, todo, List.length_append, List.length_cons, List.length_nil]
      omega
    · cases stepped
  | shutdown =>
    simp only [Batch.step] at stepped
    split at stepped
    · obtain ⟨⟨phase, pool⟩, shutStep, rfl⟩ := Option.map_eq_some_iff.mp stepped
      exact rank_shutdown shutStep
    · cases stepped
  | timeout =>
    simp only [Batch.step] at stepped
    split at stepped
    · rename_i k awaiting
      split at stepped
      · cases stepped
        simp only [Batch.rank, awaiting, Shutdown.rank]
        omega
      · cases stepped
    · cases stepped
  | worker move =>
    obtain ⟨pool, workerStepped, rfl⟩ := Option.map_eq_some_iff.mp stepped
    exact rank_worker workerStepped

/-! ## What a run that comes to its end shows -/

/-- The last message taken does not count, so neither does the last task. -/
theorem dropLast_work (messages : List (Message α)) :
    ((messages.filterMap Message.work).dropLast).Sublist
      (messages.dropLast.filterMap Message.work) := by
  obtain rfl | ⟨front, last, rfl⟩ := List.eq_nil_or_concat messages
  · exact .slnil
  · rw [List.concat_eq_append, List.dropLast_concat, List.filterMap_append]
    cases last with
    | task t =>
      show ((front.filterMap Message.work ++ [t]).dropLast).Sublist _
      rw [List.dropLast_concat]
    | shutdown =>
      show ((front.filterMap Message.work ++ []).dropLast).Sublist _
      rw [List.append_nil]
      exact List.dropLast_sublist _

theorem fewer_of_returned (invariant : s.Invariant doWork numWorkers maxQueue tasks)
    (returned : s.phase = .returned) : tasks.dropLast.countP (raises doWork) < numWorkers := by
  have past : s.phase ≠ .joining := by simp [returned]
  have room := invariant.room
  rw [Message.countP_ends] at room
  have less := (dropLast_work (s.pool.workers.taken.map Prod.snd)).countP_le (p := raises doWork)
  have all := taken_past_join invariant past
  rw [Batch.taken] at all
  rw [all] at less
  omega

theorem fits_of_returned (invariant : s.Invariant doWork numWorkers maxQueue tasks)
    (returned : s.phase = .returned) (exited : s.pool.Exited) :
    maxQueue ≤ 0 ∨ tasks.countP (raises doWork) ≤ maxQueue := by
  have past : s.phase ≠ .joining := by simp [returned]
  have ended := ended_workers invariant exited
  have pills := invariant.shuts.pills
  have within := invariant.keeps.within
  rw [taken_past_join invariant past] at ended
  rw [returned, Pool.entered, List.countP_append,
    (onlyShutdown (invariant.joined past).2.1).2] at pills
  rw [FifoQueue.WithinBound, invariant.maxsize] at within
  simp only [Shutdown.pills] at pills
  omega

end Steps

/-- Raising tasks cost the pool nothing, in any interleaving, exactly when fewer of
    them than workers come before the last task and no more of them than the queue
    holds come at all. -/
theorem failing_tasks_harmless_iff (numWorkers : Nat) (positive : 1 ≤ numWorkers) (maxQueue : Int)
    (doWork : α → Option β) (tasks : List α) :
    (∀ moves s, Visited (Batch.step doWork) (.start numWorkers maxQueue tasks) moves s →
      Survives doWork tasks s) ↔
    tasks.dropLast.countP (raises doWork) < numWorkers ∧
      (maxQueue ≤ 0 ∨ tasks.countP (raises doWork) ≤ maxQueue) := by
  have kept : ∀ moves s, Visited (Batch.step doWork) (.start numWorkers maxQueue tasks) moves s →
      s.Invariant doWork numWorkers maxQueue tasks := by
    intro moves
    apply run_invariant (invariant_start positive maxQueue tasks)
    intro s move next stepped before
    exact invariant_step before stepped
  constructor
  · intro survives
    -- A run that goes on until nothing can move has returned.
    have lowers (s : Batch α β) (move : BatchMove) (next : Batch α β)
        (stepped : s.step doWork move = some next) : next.rank < s.rank := rank_step stepped
    obtain ⟨moves, finish, reached, halts⟩ :=
      exists_halted Batch.rank lowers (.start numWorkers maxQueue tasks)
    have visited := visited_finish reached
    have returned : finish.phase = .returned := by
      by_contra running
      obtain ⟨move, next, -, stepped⟩ := (survives moves finish visited).live running
      rw [halts move] at stepped
      cases stepped
    have invariant := kept moves finish visited
    have exited : finish.pool.Exited := by
      apply exited_of_stuck invariant.keeps invariant.shuts (by rw [returned]; rfl)
      exact fun move => Option.map_eq_none_iff.mp (halts (.worker move))
    exact ⟨fewer_of_returned invariant returned, fits_of_returned invariant returned exited⟩
  · rintro ⟨fewer, fits⟩ moves s visited
    have invariant := kept moves s visited
    have past (returned : s.phase = .returned) : s.phase ≠ .joining := by simp [returned]
    refine ⟨fun running => ?_, ?_, ?_, ?_⟩
    · exact batch_live invariant fewer fits fun ended => running ended.1
    · intro returned
      exact .of_eq (taken_past_join invariant (past returned))
    · intro returned
      exact attempted_past_join invariant (past returned)
    · intro returned
      exact results_past_join invariant (past returned)

/-- `_do_work` on an int, and on a str, of which `n * n` raises TypeError. -/
def squareOf : Int ⊕ String → Option Int
  | .inl n => some (n * n)
  | .inr _ => none

/-- The only worker is lost on the last task, and its sentinel stays in the queue. -/
def raisingLast : List BatchMove :=
  [.submit, .submit, .worker (.get 0), .worker (.work 0), .worker (.taskDone 0), .worker (.get 0),
    .worker (.work 0), .worker (.taskDone 0), .shutdown, .shutdown, .shutdown, .shutdown, .shutdown]

def raisingLastDone : Batch (Int ⊕ String) Int :=
  { pool :=
      { tasks := { maxsize := 2, items := [.shutdown], unfinished := 1 },
        workers :=
          { members := [.gone (.task (.inr "x"))],
            taken := [(0, .task (.inl 3)), (0, .task (.inr "x"))],
            handled := [.task (.inl 3), .task (.inr "x")] },
        completed := 1, results := [9] },
    todo := [], phase := .returned }

theorem raisingLast_harmless : Survives squareOf [.inl 3, .inr "x"] raisingLastDone :=
  (failing_tasks_harmless_iff 1 (by decide) 2 squareOf [.inl 3, .inr "x"]).mpr (by decide)
    raisingLast raisingLastDone (visited_finish rfl)

/-- The only worker takes the raising task, and the other task stays in the queue. -/
def raisingFirst : List BatchMove :=
  [.submit, .submit, .worker (.get 0), .worker (.work 0), .worker (.taskDone 0)]

def workerLost : Batch (Int ⊕ String) Int :=
  { pool :=
      { tasks := { maxsize := 2, items := [.task (.inl 3)], unfinished := 1 },
        workers :=
          { members := [.gone (.task (.inr "x"))], taken := [(0, .task (.inr "x"))],
            handled := [.task (.inr "x")] },
        completed := 0, results := [] },
    todo := [], phase := .joining }

theorem workerLost_stuck (move : BatchMove) : workerLost.step squareOf move = none := by
  cases move with
  | submit => rfl
  | shutdown => rfl
  | timeout => rfl
  | worker move =>
    cases move with
    | get i => cases i <;> rfl
    | work i => cases i <;> rfl
    | taskDone i => cases i <;> rfl

theorem raisingFirst_hangs :
    ¬ ∀ moves s, Visited (Batch.step squareOf) (.start 1 2 [.inr "x", .inl 3]) moves s →
      Survives squareOf [.inr "x", .inl 3] s := by
  intro survives
  have visited : Visited (Batch.step squareOf) (.start 1 2 [.inr "x", .inl 3]) raisingFirst
      workerLost := visited_finish rfl
  obtain ⟨move, next, -, stepped⟩ := (survives raisingFirst workerLost visited).live (by decide)
  rw [workerLost_stuck move] at stepped
  cases stepped

end Excalibur.WorkerPool
