import Excalibur.WorkerPool.Pool
import Excalibur.Library.Run

/-! # One submitting thread

One thread submits a list of tasks and then calls `shutdown`, as `main` does, while
the workers run.  `batch_live` is the progress argument for any `_do_work`: a worker
is left for every task when fewer tasks than workers raise before the last one, and
the sentinels of the workers lost to an exception fit in the queue.  A
`join(timeout=5.0)` may expire, but no progress rests on it.
-/

namespace Excalibur.WorkerPool

open Excalibur.Library

variable {α β : Type}

structure Batch (α β : Type) where
  pool : Pool α β
  todo : List α
  phase : Shutdown
  deriving Repr, DecidableEq

/-- `timeout` is a `join(timeout=5.0)` that expires. -/
inductive BatchMove where
  | submit
  | shutdown
  | timeout
  | worker (move : WorkerMove)
  deriving Repr, DecidableEq

namespace Batch

def start (numWorkers : Nat) (maxQueue : Int) (tasks : List α) : Batch α β :=
  { pool := .start numWorkers maxQueue, todo := tasks, phase := .joining }

def step (doWork : α → Option β) (s : Batch α β) : BatchMove → Option (Batch α β)
  | .submit =>
    match s.todo with
    | task :: rest => (s.pool.submit task).map fun pool => { s with pool := pool, todo := rest }
    | [] => none
  | .shutdown =>
    match s.todo with
    | [] =>
      (s.pool.shutdownStep s.phase).map fun (phase, pool) =>
        { s with pool := pool, phase := phase }
    | _ :: _ => none
  | .timeout =>
    match s.phase with
    | .awaiting k =>
      if k < s.pool.workers.members.length then some { s with phase := .awaiting (k + 1) } else none
    | _ => none
  | .worker move => (s.pool.workerStep doWork move).map fun pool => { s with pool := pool }

/-- Something can happen besides a join that expires. -/
def CanMove (doWork : α → Option β) (s : Batch α β) : Prop :=
  ∃ move next, move ≠ .timeout ∧ s.step doWork move = some next

/-- The tasks taken from the queue. -/
def taken (s : Batch α β) : List α := (s.pool.workers.taken.map Prod.snd).filterMap Message.work

end Batch

/-! ## What a batch keeps -/

/-- Past `tasks.join()` nothing is left to submit and only sentinels are in the queue
    and in work; a message is only taken while some worker has not come to its end. -/
structure Batch.Invariant (doWork : α → Option β) (numWorkers : Nat) (maxQueue : Int)
    (tasks : List α) (s : Batch α β) : Prop where
  keeps : Keeps doWork s.pool
  shuts : ShutsDown numWorkers s.phase s.pool
  maxsize : s.pool.tasks.maxsize = maxQueue
  submitted : s.pool.entered.filterMap Message.work ++ s.todo = tasks
  joined : s.phase ≠ .joining → s.todo = [] ∧
    (∀ message ∈ s.pool.tasks.items, message = .shutdown) ∧
    ∀ message ∈ s.pool.workers.inWork, message = .shutdown
  room : ((s.pool.workers.taken.map Prod.snd).dropLast).countP (Message.ends doWork) < numWorkers

section Steps

variable {doWork : α → Option β} {numWorkers : Nat} {maxQueue : Int} {tasks : List α}
  {s next : Batch α β}

theorem invariant_start (positive : 1 ≤ numWorkers) (maxQueue : Int) (tasks : List α) :
    (.start numWorkers maxQueue tasks : Batch α β).Invariant doWork numWorkers maxQueue tasks :=
  ⟨keeps_start _ _, shutsDown_start _ _, rfl, rfl, fun past => absurd rfl past, positive⟩

theorem invariant_submit (invariant : s.Invariant doWork numWorkers maxQueue tasks)
    {task : α} {rest : List α} (todo : s.todo = task :: rest) {pool : Pool α β}
    (submitted : s.pool.submit task = some pool) :
    ({ s with pool := pool, todo := rest } : Batch α β).Invariant
      doWork numWorkers maxQueue tasks := by
  have shuts := shutsDown_submit invariant.shuts submitted
  obtain ⟨queue, put, rfl⟩ := Option.map_eq_some_iff.mp submitted
  refine ⟨keeps_put invariant.keeps put, shuts, ?_, ?_, ?_, invariant.room⟩
  · obtain ⟨-, rfl⟩ := FifoQueue.put_eq_some.mp put
    exact invariant.maxsize
  · rw [entered_put put, List.filterMap_append, ← invariant.submitted, todo]
    simp [Message.work]
  · intro past
    have nothing := (invariant.joined past).1
    rw [todo] at nothing
    cases nothing

theorem invariant_worker (invariant : s.Invariant doWork numWorkers maxQueue tasks)
    {move : WorkerMove} {pool : Pool α β} (stepped : s.pool.workerStep doWork move = some pool) :
    ({ s with pool := pool } : Batch α β).Invariant doWork numWorkers maxQueue tasks := by
  obtain ⟨entered, maxsize, -⟩ := workerStep_keeps stepped
  have keeps := keeps_workerStep invariant.keeps stepped
  have shuts := shutsDown_workerStep invariant.shuts stepped
  have submitted : pool.entered.filterMap Message.work ++ s.todo = tasks := by
    rw [entered, invariant.submitted]
  obtain ⟨i, message, workers, rest, items, took, rfl⟩ | ⟨i, message, workers, handled, rfl⟩ |
    ⟨i, workers, finished, some, rfl⟩ := workerStep_cases stepped
  · refine ⟨keeps, shuts, maxsize.trans invariant.maxsize, submitted, ?_, ?_⟩
    · intro past
      -- past the join only sentinels are queued, so the worker takes one
      obtain ⟨todo, queued, inWork⟩ := invariant.joined past
      rw [items] at queued
      refine ⟨todo, fun other member => queued other (List.mem_cons_of_mem _ member), ?_⟩
      intro other member
      obtain rfl | before := List.mem_cons.mp ((Crew.inWork_take took).mem_iff.mp member)
      · exact queued other List.mem_cons_self
      · exact inWork other before
    · -- The worker that takes the message has not come to its end.
      have ends := ends_taken invariant.keeps
      obtain ⟨idle, rfl⟩ := Crew.take_eq_some.mp took
      have notAll : (s.pool.workers.departures (Message.ends doWork)).length ≠
          s.pool.workers.members.length :=
        fun all => Crew.not_idle_of_departures all i idle
      have most := Crew.departures_le (Message.ends doWork) s.pool.workers
      rw [invariant.shuts.size] at notAll most
      simp only [List.map_append, List.map_singleton, List.dropLast_concat, ends]
      omega
  · refine ⟨keeps, shuts, maxsize.trans invariant.maxsize, submitted, ?_, ?_⟩
    · intro past
      obtain ⟨todo, queued, inWork⟩ := invariant.joined past
      exact ⟨todo, queued, by rw [Crew.inWork_handle handled]; exact inWork⟩
    · obtain ⟨-, rfl⟩ := Crew.handle_eq_some.mp handled
      exact invariant.room
  · refine ⟨keeps, shuts, maxsize.trans invariant.maxsize, submitted, ?_, ?_⟩
    · intro past
      obtain ⟨todo, queued, inWork⟩ := invariant.joined past
      refine ⟨todo, queued, fun other member => inWork other ?_⟩
      obtain ⟨message, less⟩ := Crew.inWork_finish finished
      exact less.mem_iff.mpr (List.mem_cons_of_mem _ member)
    · obtain ⟨message, -, rfl⟩ := Crew.finish_eq_some.mp finished
      exact invariant.room

theorem invariant_shutdown (invariant : s.Invariant doWork numWorkers maxQueue tasks)
    (nothing : s.todo = []) {phase : Shutdown} {pool : Pool α β}
    (stepped : s.pool.shutdownStep s.phase = some (phase, pool)) :
    ({ s with pool := pool, phase := phase } : Batch α β).Invariant
      doWork numWorkers maxQueue tasks := by
  have shuts := shutsDown_shutdownStep invariant.shuts stepped
  obtain ⟨keeps, -, maxsize, submitted, joined, room⟩ := invariant
  obtain ⟨-, rfl, none, rfl⟩ | ⟨k, queue, was, rfl, -, put, rfl⟩ | ⟨k, was, rfl, -, rfl⟩ |
    ⟨k, message, was, rfl, -, rfl⟩ | ⟨k, was, rfl, -, rfl⟩ := shutdownStep_cases stepped
  · -- `tasks.join()` is passed: everything is done with.
    refine ⟨keeps, shuts, maxsize, submitted, ?_, room⟩
    intro _
    have unfinished := keeps.unfinished
    rw [none] at unfinished
    have noItems : s.pool.tasks.items = [] := List.length_eq_zero_iff.mp (by omega)
    have noWork : s.pool.workers.inWork = [] := List.length_eq_zero_iff.mp (by omega)
    refine ⟨nothing, ?_, ?_⟩
    · simp [noItems]
    · simp [noWork]
  -- one more sentinel, which is no task
  · obtain ⟨todo, queued, inWork⟩ := joined (by simp [was])
    refine ⟨keeps_put keeps put, shuts, ?_, ?_, ?_, room⟩
    · obtain ⟨-, rfl⟩ := FifoQueue.put_eq_some.mp put
      exact maxsize
    · rw [entered_put put, List.filterMap_append, ← submitted]
      simp [Message.work]
    · intro _
      refine ⟨todo, ?_, inWork⟩
      obtain ⟨-, rfl⟩ := FifoQueue.put_eq_some.mp put
      intro message member
      obtain before | last := List.mem_append.mp member
      · exact queued message before
      · exact List.mem_singleton.mp last
  -- the other phases leave the pool alone
  · exact ⟨keeps, shuts, maxsize, submitted, fun _ => joined (by simp [was]), room⟩
  · exact ⟨keeps, shuts, maxsize, submitted, fun _ => joined (by simp [was]), room⟩
  · exact ⟨keeps, shuts, maxsize, submitted, fun _ => joined (by simp [was]), room⟩

theorem invariant_step {move : BatchMove} (invariant : s.Invariant doWork numWorkers maxQueue tasks)
    (stepped : s.step doWork move = some next) :
    next.Invariant doWork numWorkers maxQueue tasks := by
  cases move with
  | submit =>
    simp only [Batch.step] at stepped
    split at stepped
    · rename_i task rest todo
      obtain ⟨pool, submitted, rfl⟩ := Option.map_eq_some_iff.mp stepped
      exact invariant_submit invariant todo submitted
    · cases stepped
  | shutdown =>
    simp only [Batch.step] at stepped
    split at stepped
    · rename_i nothing
      obtain ⟨⟨phase, pool⟩, shutStep, rfl⟩ := Option.map_eq_some_iff.mp stepped
      exact invariant_shutdown invariant nothing shutStep
    · cases stepped
  | timeout =>
    simp only [Batch.step] at stepped
    split at stepped
    · rename_i k awaiting
      split at stepped
      -- `join(timeout)` gives up on a worker, which changes the phase only
      · cases stepped
        obtain ⟨keeps, shuts, maxsize, submitted, joined, room⟩ := invariant
        rw [awaiting] at shuts
        refine ⟨keeps, ⟨shuts.size, shuts.pills, shuts.pillsLe⟩, maxsize, submitted, ?_, room⟩
        exact fun _ => joined (by simp [awaiting])
      · cases stepped
    · cases stepped
  | worker move =>
    obtain ⟨pool, workerStepped, rfl⟩ := Option.map_eq_some_iff.mp stepped
    exact invariant_worker invariant workerStepped

/-! ## Past the join -/

theorem onlyShutdown {messages : List (Message α)}
    (only : ∀ message ∈ messages, message = .shutdown) :
    messages.filterMap Message.work = [] ∧
      messages.countP Message.isShutdown = messages.length := by
  constructor
  · rw [List.filterMap_eq_nil_iff]
    intro message member
    rw [only message member]
    rfl
  · rw [List.countP_eq_length]
    intro message member
    rw [only message member]
    rfl

theorem taken_past_join (invariant : s.Invariant doWork numWorkers maxQueue tasks)
    (past : s.phase ≠ .joining) : s.taken = tasks := by
  obtain ⟨nothing, queued, -⟩ := invariant.joined past
  rw [← invariant.submitted, nothing, Pool.entered, List.filterMap_append,
    (onlyShutdown queued).1, List.append_nil, List.append_nil]
  rfl

theorem attempted_past_join (invariant : s.Invariant doWork numWorkers maxQueue tasks)
    (past : s.phase ≠ .joining) : s.pool.attempted.Perm tasks := by
  obtain ⟨-, -, inWork⟩ := invariant.joined past
  have inHand : s.pool.workers.inHand.filterMap Message.work = [] :=
    (onlyShutdown fun message member => inWork message (Crew.inWork_of_inHand member)).1
  have kept := invariant.keeps.accounts.kept.filterMap Message.work
  rw [List.filterMap_append, inHand, List.append_nil] at kept
  rw [← taken_past_join invariant past]
  exact kept.symm

theorem results_past_join (invariant : s.Invariant doWork numWorkers maxQueue tasks)
    (past : s.phase ≠ .joining) : s.pool.results.Perm (tasks.filterMap doWork) := by
  rw [invariant.keeps.recorded]
  exact (attempted_past_join invariant past).filterMap doWork

/-- The workers that came to their end took a sentinel or a raising task each. -/
theorem ended_workers (invariant : s.Invariant doWork numWorkers maxQueue tasks)
    (exited : s.pool.Exited) :
    (s.pool.workers.taken.map Prod.snd).countP Message.isShutdown +
      s.taken.countP (raises doWork) = numWorkers := by
  rw [Batch.taken, ← Message.countP_ends, ends_taken invariant.keeps,
    Crew.departures_of_gone _ exited, invariant.shuts.size]

/-! ## Progress -/

/-- Before the join, some worker has not ended while there is a task to take. -/
theorem worker_left (invariant : s.Invariant doWork numWorkers maxQueue tasks)
    (fewer : tasks.dropLast.countP (raises doWork) < numWorkers) (joining : s.phase = .joining)
    (more : s.pool.tasks.items.filterMap Message.work ++ s.todo ≠ []) : ¬ s.pool.Exited := by
  intro exited
  have ended := ended_workers invariant exited
  have noPills := invariant.shuts.pills
  rw [joining, Pool.entered, List.countP_append] at noPills
  have all : tasks = s.taken ++ (s.pool.tasks.items.filterMap Message.work ++ s.todo) := by
    rw [← invariant.submitted, Pool.entered, List.filterMap_append, List.append_assoc]
    rfl
  rw [all, List.dropLast_append_of_ne_nil more, List.countP_append] at fewer
  simp only [Shutdown.pills] at noPills
  omega

/-- When all workers have ended before the last sentinel is put, the queue holds
    fewer sentinels than tasks raised. -/
theorem sentinels_left (invariant : s.Invariant doWork numWorkers maxQueue tasks)
    {k : Nat} (stopping : s.phase = .stopping k) (more : k < numWorkers) (exited : s.pool.Exited) :
    s.pool.tasks.items.length < tasks.countP (raises doWork) := by
  have past : s.phase ≠ .joining := by simp [stopping]
  have ended := ended_workers invariant exited
  have pills := invariant.shuts.pills
  rw [taken_past_join invariant past] at ended
  rw [stopping, Pool.entered, List.countP_append,
    (onlyShutdown (invariant.joined past).2.1).2] at pills
  simp only [Shutdown.pills] at pills
  omega

/-- What the submitting thread waits for before the join is passed: a task in the queue. -/
theorem task_queued (invariant : s.Invariant doWork numWorkers maxQueue tasks)
    (noWork : s.pool.workers.inWork = []) (joining : s.phase = .joining)
    (submit : s.step doWork .submit = none) (shutdown : s.step doWork .shutdown = none) :
    s.pool.tasks.items ≠ [] ∧ s.pool.tasks.items.filterMap Message.work ++ s.todo ≠ [] := by
  cases todo : s.todo with
  | cons task rest =>
    simp only [Batch.step, todo, Pool.submit, Option.map_eq_none_iff] at submit
    exact ⟨FifoQueue.items_ne_nil_of_full (FifoQueue.full_of_blocked submit), by simp⟩
  | nil =>
    have some : s.pool.tasks.unfinished ≠ 0 := by
      intro none
      simp [Batch.step, todo, joining, Pool.shutdownStep, none] at shutdown
    rw [invariant.keeps.unfinished, noWork, List.length_nil, Nat.add_zero] at some
    have noPills := invariant.shuts.pills
    rw [joining, Pool.entered, List.countP_append] at noPills
    simp only [Shutdown.pills] at noPills
    have length := Message.length_eq s.pool.tasks.items
    refine ⟨List.ne_nil_of_length_pos (Nat.pos_of_ne_zero some), ?_⟩
    rw [List.append_nil]
    apply List.ne_nil_of_length_pos
    omega

/-- A queue that takes the sentinels of the lost workers takes the next sentinel. -/
theorem sentinel_fits (invariant : s.Invariant doWork numWorkers maxQueue tasks)
    (fits : maxQueue ≤ 0 ∨ tasks.countP (raises doWork) ≤ maxQueue)
    (waiting : s.pool.tasks.items ≠ [] → s.pool.Exited) {k : Nat}
    (stopping : s.phase = .stopping k) (more : k < numWorkers) : ¬ s.pool.tasks.full := by
  intro full
  have exited := waiting (FifoQueue.items_ne_nil_of_full full)
  have few := sentinels_left invariant stopping more exited
  rw [FifoQueue.full_iff, invariant.maxsize] at full
  omega

theorem batch_live (invariant : s.Invariant doWork numWorkers maxQueue tasks)
    (fewer : tasks.dropLast.countP (raises doWork) < numWorkers)
    (fits : maxQueue ≤ 0 ∨ tasks.countP (raises doWork) ≤ maxQueue)
    (running : ¬ (s.phase = .returned ∧ s.pool.Exited)) : s.CanMove doWork := by
  by_contra halted
  have stuck : ∀ move, move ≠ .timeout → s.step doWork move = none := by
    intro move notTimeout
    by_contra moves
    obtain ⟨next, stepped⟩ := Option.ne_none_iff_exists'.mp moves
    exact halted ⟨move, next, notTimeout, stepped⟩
  have workersStuck (move : WorkerMove) : s.pool.workerStep doWork move = none :=
    Option.map_eq_none_iff.mp (stuck (.worker move) (by simp))
  obtain ⟨noWork, waiting⟩ := resting_of_stuck invariant.keeps workersStuck
  have shutdown := stuck .shutdown (by simp)
  have exited (all : s.phase.pills numWorkers = numWorkers) : s.pool.Exited :=
    exited_of_stuck invariant.keeps invariant.shuts all workersStuck
  -- before the join a task is stranded only if all workers are lost
  by_cases joining : s.phase = .joining
  · obtain ⟨queued, task⟩ :=
      task_queued invariant noWork joining (stuck .submit (by simp)) shutdown
    exact worker_left invariant fewer joining task (waiting queued)
  · have nothing := (invariant.joined joining).1
    simp only [Batch.step, nothing, Option.map_eq_none_iff] at shutdown
    cases phase : s.phase with
    | joining => exact joining phase
    | returned => exact running ⟨phase, exited (by rw [phase]; rfl)⟩
    | stopping k =>
      rw [phase] at shutdown
      -- the next sentinel fits, since lost workers leave theirs in the queue
      by_cases more : k < s.pool.workers.members.length
      · simp only [Pool.shutdownStep, if_pos more, Option.map_eq_none_iff] at shutdown
        rw [invariant.shuts.size] at more
        have full := FifoQueue.full_of_blocked shutdown
        exact sentinel_fits invariant fits waiting phase more full
      · simp [Pool.shutdownStep, more] at shutdown
    | awaiting k =>
      rw [phase] at shutdown
      simp only [Pool.shutdownStep] at shutdown
      -- every worker has its sentinel, so the one that is awaited has ended
      split at shutdown
      · cases shutdown
      · rename_i member notGone found
        obtain ⟨message, gone⟩ := exited (by rw [phase]; rfl) member (List.mem_of_getElem? found)
        exact notGone message gone
      · cases shutdown

/-! ## At the end -/

/-- Every worker that has ended without an exception took one sentinel. -/
theorem one_sentinel_each (invariant : s.Invariant doWork numWorkers maxQueue tasks)
    (noneRaises : ∀ task, raises doWork task = false) (exited : s.pool.Exited) {i : Nat}
    (inside : i < numWorkers) : (s.pool.workers.takenBy i).countP Message.isShutdown = 1 := by
  rw [← invariant.shuts.size] at inside
  obtain ⟨message, gone⟩ := exited _ (List.getElem_mem inside)
  have own := invariant.keeps.accounts.own i
  rw [List.getElem?_eq_getElem inside, gone] at own
  rw [← Message.ends_of_noneRaises noneRaises, List.countP_eq_length_filter, own]
  rfl

/-- A worker that has ended took a sentinel, so the join is passed. -/
theorem past_join_of_exited (invariant : s.Invariant doWork numWorkers maxQueue tasks)
    (positive : 1 ≤ numWorkers) (noneRaises : ∀ task, raises doWork task = false)
    (exited : s.pool.Exited) : s.phase ≠ .joining ∧ s.pool.tasks.items = [] := by
  have ended := ended_workers invariant exited
  have noRaising : s.taken.countP (raises doWork) = 0 := by
    rw [List.countP_eq_zero]
    intro task _
    simp [noneRaises task]
  have pills := invariant.shuts.pills
  have pillsLe := invariant.shuts.pillsLe
  rw [Pool.entered, List.countP_append] at pills
  have past : s.phase ≠ .joining := by
    intro joining
    rw [joining] at pills
    simp only [Shutdown.pills] at pills
    omega
  refine ⟨past, List.length_eq_zero_iff.mp ?_⟩
  rw [← (onlyShutdown (invariant.joined past).2.1).2]
  omega

end Steps

/-- What holds of a run in which no task raises. -/
structure RunsClean (numWorkers : Nat) (tasks : List α) (doWork : α → β) (s : Batch α β) : Prop where
  live : ¬ (s.phase = .returned ∧ s.pool.Exited) → s.CanMove fun task => some (doWork task)
  joined : s.phase ≠ .joining →
    s.pool.completed = tasks.length ∧ s.pool.results.Perm (tasks.map doWork)
  finished : s.pool.Exited →
    s.pool.completed = tasks.length ∧ s.pool.results.Perm (tasks.map doWork) ∧
      s.pool.tasks.items = []
  oneSentinel : s.pool.Exited → ∀ i < numWorkers,
    (s.pool.workers.takenBy i).countP Message.isShutdown = 1

/-- A run in which no task raises is complete and clean, in every interleaving. -/
theorem successful_run_is_clean (numWorkers : Nat) (positive : 1 ≤ numWorkers) (maxQueue : Int)
    (bounded : 1 ≤ maxQueue) (tasks : List α) (doWork : α → β) (moves : List BatchMove)
    (s : Batch α β)
    (visited : Visited (Batch.step fun task => some (doWork task))
      (.start numWorkers maxQueue tasks) moves s) :
    RunsClean numWorkers tasks doWork s := by
  have invariant : s.Invariant (fun task => some (doWork task)) numWorkers maxQueue tasks := by
    apply run_invariant (invariant_start positive maxQueue tasks) ?_ moves s visited
    intro state move next stepped before
    exact invariant_step before stepped
  have noneRaises : ∀ task, raises (fun task => some (doWork task)) task = false := fun _ => rfl
  have noRaising (list : List α) : list.countP (raises fun task => some (doWork task)) = 0 := by
    rw [List.countP_eq_zero]
    intro task _
    simp [noneRaises task]
  -- Past the join every task was handled, and with no failure every one has its result.
  have done (past : s.phase ≠ .joining) :
      s.pool.completed = tasks.length ∧ s.pool.results.Perm (tasks.map doWork) := by
    have results := results_past_join invariant past
    have mapped : tasks.filterMap (fun task => some (doWork task)) = tasks.map doWork :=
      congrFun List.filterMap_eq_map tasks
    rw [mapped] at results
    refine ⟨?_, results⟩
    rw [invariant.keeps.counted, results.length_eq, List.length_map]
  refine ⟨?_, done, ?_, ?_⟩
  · apply batch_live invariant
    · rw [noRaising]
      exact positive
    · right
      rw [noRaising]
      omega
  · intro exited
    obtain ⟨past, empty⟩ := past_join_of_exited invariant positive noneRaises exited
    exact ⟨(done past).1, (done past).2, empty⟩
  · intro exited i inside
    exact one_sentinel_each invariant noneRaises exited inside

/-- One worker squares one task and ends on its sentinel. -/
def oneTask : List BatchMove :=
  [.submit, .worker (.get 0), .worker (.work 0), .worker (.taskDone 0), .shutdown, .shutdown,
    .worker (.get 0), .worker (.work 0), .worker (.taskDone 0)]

def oneTaskDone : Batch Int Int :=
  { pool :=
      { tasks := .empty 1,
        workers :=
          { members := [.gone .shutdown], taken := [(0, .task 3), (0, .shutdown)],
            handled := [.task 3, .shutdown] },
        completed := 1, results := [9] },
    todo := [], phase := .stopping 1 }

theorem oneTask_runs_clean :
    RunsClean 1 [3] (fun n : Int => n * n) oneTaskDone ∧ oneTaskDone.pool.Exited :=
  ⟨successful_run_is_clean 1 (by decide) 1 (by decide) [3] (fun n => n * n) oneTask oneTaskDone
      (visited_finish rfl),
    fun _ inCrew => ⟨.shutdown, List.mem_singleton.mp inCrew⟩⟩

end Excalibur.WorkerPool
