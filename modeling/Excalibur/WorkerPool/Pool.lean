import Excalibur.Library.Crew
import Excalibur.Library.FifoQueue

/-! # The worker pool

`WorkerPool` with `queue.Queue` as a first-in first-out monitor and `_do_work` a
parameter that may raise.  A step is one action of one thread; an exception in
`_do_work` runs the `finally` clause and ends the thread, as `return` on `_SHUTDOWN`
does.  `Keeps` is what every step of the workers preserves.
-/

namespace Excalibur.WorkerPool

open Excalibur.Library

variable {α β : Type}

/-- `_do_work` raises where the parameter has no result. -/
def raises (doWork : α → Option β) (task : α) : Bool := (doWork task).isNone

/-- What the task queue holds. -/
inductive Message (α : Type) where
  | task (task : α)
  | shutdown
  deriving Repr, DecidableEq

namespace Message

def work : Message α → Option α
  | .task t => some t
  | .shutdown => none

def isShutdown : Message α → Bool
  | .task _ => false
  | .shutdown => true

/-- The messages on which a worker's thread ends. -/
def ends (doWork : α → Option β) : Message α → Bool
  | .task t => raises doWork t
  | .shutdown => true

theorem countP_ends (doWork : α → Option β) (messages : List (Message α)) :
    messages.countP (ends doWork) = messages.countP isShutdown +
      (messages.filterMap work).countP (raises doWork) := by
  induction messages with
  | nil => rfl
  | cons message messages ih =>
    cases message with
    | task t =>
      show _ = _ + (t :: messages.filterMap work).countP _
      rw [List.countP_cons, List.countP_cons, List.countP_cons, ih]
      simp only [isShutdown, Bool.false_eq_true, if_false, Nat.add_zero]
      exact Nat.add_assoc _ _ _
    | shutdown =>
      show _ = _ + (messages.filterMap work).countP _
      rw [List.countP_cons, List.countP_cons, ih]
      simp [ends, isShutdown]
      omega

theorem ends_of_noneRaises {doWork : α → Option β}
    (noneRaises : ∀ task, raises doWork task = false) :
    ends doWork = (isShutdown : Message α → Bool) := by
  funext message
  cases message with
  | task t => exact noneRaises t
  | shutdown => rfl

theorem length_eq (messages : List (Message α)) :
    messages.length = messages.countP isShutdown + (messages.filterMap work).length := by
  induction messages with
  | nil => rfl
  | cons message messages ih =>
    cases message with
    | task t =>
      show _ = _ + (t :: messages.filterMap work).length
      rw [List.countP_cons, List.length_cons, List.length_cons, ih]
      simp [isShutdown, Nat.add_assoc]
    | shutdown =>
      show _ = _ + (messages.filterMap work).length
      rw [List.countP_cons, List.length_cons, ih]
      simp [isShutdown]
      omega

end Message

structure Pool (α β : Type) where
  tasks : FifoQueue (Message α)
  workers : Crew (Message α)
  completed : Nat
  results : List β
  deriving Repr, DecidableEq

/-- Where the thread in `shutdown` is: in `tasks.join()`, putting the `k`-th
    sentinel, or joining the `k`-th worker. -/
inductive Shutdown where
  | joining
  | stopping (k : Nat)
  | awaiting (k : Nat)
  | returned
  deriving Repr, DecidableEq

namespace Shutdown

/-- The sentinels put so far. -/
def pills (numWorkers : Nat) : Shutdown → Nat
  | .joining => 0
  | .stopping k => k
  | _ => numWorkers

/-- The workers known to have ended. -/
def awaited (numWorkers : Nat) : Shutdown → Nat
  | .awaiting k => k
  | .returned => numWorkers
  | _ => 0

end Shutdown

inductive WorkerMove where
  | get (i : Nat)
  | work (i : Nat)
  | taskDone (i : Nat)
  deriving Repr, DecidableEq

namespace Pool

/-- `__init__` and `start`. -/
def start (numWorkers : Nat) (maxQueue : Int) : Pool α β :=
  { tasks := .empty maxQueue, workers := .assemble numWorkers, completed := 0, results := [] }

def workerStep (doWork : α → Option β) (p : Pool α β) : WorkerMove → Option (Pool α β)
  | .get i =>
    match p.tasks.get with
    | some (message, tasks) =>
      (p.workers.take i message).map fun workers => { p with tasks := tasks, workers := workers }
    | none => none
  | .work i =>
    match p.workers.handle i with
    | some (.task task, workers) =>
      match doWork task with
      | some result =>
        some { p with
          workers := workers, completed := p.completed + 1, results := p.results ++ [result] }
      | none => some { p with workers := workers }
    | some (.shutdown, workers) => some { p with workers := workers }
    | none => none
  | .taskDone i =>
    match p.workers.finish (Message.ends doWork) i, p.tasks.taskDone with
    | some workers, some tasks => some { p with tasks := tasks, workers := workers }
    | _, _ => none

def submit (p : Pool α β) (task : α) : Option (Pool α β) :=
  (p.tasks.put (.task task)).map fun tasks => { p with tasks := tasks }

/-- One action of the thread in `shutdown`, when a `join(timeout=5.0)` does not expire. -/
def shutdownStep (p : Pool α β) : Shutdown → Option (Shutdown × Pool α β)
  | .joining => if p.tasks.unfinished = 0 then some (.stopping 0, p) else none
  | .stopping k =>
    if k < p.workers.members.length then
      (p.tasks.put .shutdown).map fun tasks => (.stopping (k + 1), { p with tasks := tasks })
    else some (.awaiting 0, p)
  | .awaiting k =>
    match p.workers.members[k]? with
    | some (.gone _) => some (.awaiting (k + 1), p)
    | some _ => none
    | none => some (.returned, p)
  | .returned => none

/-- The messages put, in order. -/
def entered (p : Pool α β) : List (Message α) := p.workers.taken.map Prod.snd ++ p.tasks.items

/-- The tasks that `_do_work` was called on. -/
def attempted (p : Pool α β) : List α := p.workers.handled.filterMap Message.work

def Exited (p : Pool α β) : Prop := ∀ member ∈ p.workers.members, ∃ message, member = .gone message

end Pool

/-! ## What the workers keep -/

structure Keeps (doWork : α → Option β) (p : Pool α β) : Prop where
  accounts : p.workers.Accounts (Message.ends doWork)
  unfinished : p.tasks.unfinished = p.tasks.items.length + p.workers.inWork.length
  within : p.tasks.WithinBound
  recorded : p.results = p.attempted.filterMap doWork
  counted : p.completed = p.results.length

section Workers

variable {doWork : α → Option β} {p next : Pool α β}

theorem keeps_start (numWorkers : Nat) (maxQueue : Int) :
    Keeps doWork (.start numWorkers maxQueue : Pool α β) := by
  refine ⟨Crew.accounts_assemble _ _, ?_, FifoQueue.withinBound_empty _, rfl, rfl⟩
  simp [Pool.start, FifoQueue.empty, Crew.assemble, Crew.inWork, List.filterMap_replicate,
    Member.working]

/-- What a worker's action changes: it takes the first message, handles one or is done
    with one. -/
theorem workerStep_cases {move : WorkerMove} (stepped : p.workerStep doWork move = some next) :
    (∃ i message workers rest, p.tasks.items = message :: rest ∧
      p.workers.take i message = some workers ∧
        next = { p with tasks := { p.tasks with items := rest }, workers := workers }) ∨
    (∃ i message workers, p.workers.handle i = some (message, workers) ∧
      next = { p with
        workers := workers
        completed := p.completed + (message.work.bind doWork).toList.length
        results := p.results ++ (message.work.bind doWork).toList }) ∨
    ∃ i workers, p.workers.finish (Message.ends doWork) i = some workers ∧
      p.tasks.unfinished ≠ 0 ∧
        next = { p with
          tasks := { p.tasks with unfinished := p.tasks.unfinished - 1 }, workers := workers } := by
  cases move with
  | get i =>
    left
    simp only [Pool.workerStep] at stepped
    split at stepped
    · rename_i message tasks got
      obtain ⟨workers, took, rfl⟩ := Option.map_eq_some_iff.mp stepped
      obtain ⟨rest, items, rfl⟩ := FifoQueue.get_eq_some.mp got
      exact ⟨i, message, workers, rest, items, took, rfl⟩
    · cases stepped
  | work i =>
    right; left
    simp only [Pool.workerStep] at stepped
    split at stepped
    · rename_i task workers handled
      refine ⟨i, .task task, workers, handled, ?_⟩
      -- the `try` around `do_work`: a task that raises adds no result
      cases result : doWork task with
      | some value =>
        simp only [result, Option.some.injEq] at stepped
        simp [Message.work, result, stepped]
      | none =>
        simp only [result, Option.some.injEq] at stepped
        simp [Message.work, result, stepped]
    · rename_i workers handled
      cases stepped
      exact ⟨i, .shutdown, workers, handled, by simp [Message.work]⟩
    · cases stepped
  | taskDone i =>
    right; right
    simp only [Pool.workerStep] at stepped
    split at stepped
    · rename_i workers tasks finished done
      cases stepped
      obtain ⟨some, rfl⟩ := FifoQueue.taskDone_eq_some.mp done
      exact ⟨i, workers, finished, some, rfl⟩
    · cases stepped

theorem keeps_workerStep {move : WorkerMove} (keeps : Keeps doWork p)
    (stepped : p.workerStep doWork move = some next) : Keeps doWork next := by
  obtain ⟨accounts, unfinished, within, recorded, counted⟩ := keeps
  obtain ⟨i, message, workers, rest, items, took, rfl⟩ | ⟨i, message, workers, handled, rfl⟩ |
    ⟨i, workers, finished, some, rfl⟩ := workerStep_cases stepped
  -- the message moves from the queue into work
  · refine ⟨Crew.accounts_take accounts took, ?_, ?_, ?_, counted⟩
    · have more := (Crew.inWork_take took).length_eq
      rw [List.length_cons] at more
      simp only [unfinished, items, more, List.length_cons]
      omega
    · exact within.get (FifoQueue.get_eq_some.mpr ⟨rest, items, rfl⟩)
    · obtain ⟨-, rfl⟩ := Crew.take_eq_some.mp took
      exact recorded
  -- it is handled, and a result is recorded if there is one
  · refine ⟨Crew.accounts_handle accounts handled, ?_, within, ?_, ?_⟩
    · simp only [unfinished, Crew.inWork_handle handled]
    · obtain ⟨-, rfl⟩ := Crew.handle_eq_some.mp handled
      show p.results ++ _ = ((p.workers.handled ++ [message]).filterMap Message.work).filterMap doWork
      rw [List.filterMap_append, List.filterMap_append, recorded]
      cases message with
      | task t => cases result : doWork t <;> simp [Pool.attempted, Message.work, result]
      | shutdown => simp [Pool.attempted, Message.work]
    · simp [counted]
  -- `task_done` for the message that leaves the work
  · refine ⟨Crew.accounts_finish accounts finished, ?_, within, ?_, counted⟩
    · obtain ⟨message, less⟩ := Crew.inWork_finish finished
      have fewer := less.length_eq
      rw [List.length_cons] at fewer
      simp only [unfinished, fewer]
      omega
    · obtain ⟨message, -, rfl⟩ := Crew.finish_eq_some.mp finished
      exact recorded

/-- What a worker's action leaves as it is. -/
theorem workerStep_keeps {move : WorkerMove} (stepped : p.workerStep doWork move = some next) :
    next.entered = p.entered ∧ next.tasks.maxsize = p.tasks.maxsize ∧
      next.workers.members.length = p.workers.members.length := by
  obtain ⟨i, message, workers, rest, items, took, rfl⟩ | ⟨i, message, workers, handled, rfl⟩ |
    ⟨i, workers, finished, some, rfl⟩ := workerStep_cases stepped
  · obtain ⟨-, rfl⟩ := Crew.take_eq_some.mp took
    refine ⟨?_, rfl, by simp⟩
    simp [Pool.entered, items]
  · obtain ⟨-, rfl⟩ := Crew.handle_eq_some.mp handled
    exact ⟨rfl, rfl, by simp⟩
  · obtain ⟨message, -, rfl⟩ := Crew.finish_eq_some.mp finished
    exact ⟨rfl, rfl, by simp⟩

theorem keeps_put {message : Message α} {tasks : FifoQueue (Message α)} (keeps : Keeps doWork p)
    (put : p.tasks.put message = some tasks) : Keeps doWork { p with tasks := tasks } := by
  have within := keeps.within.put put
  obtain ⟨-, rfl⟩ := FifoQueue.put_eq_some.mp put
  refine { keeps with unfinished := ?_, within := within }
  simp only [keeps.unfinished, List.length_append, List.length_singleton]
  omega

theorem entered_put {message : Message α} {tasks : FifoQueue (Message α)}
    (put : p.tasks.put message = some tasks) :
    ({ p with tasks := tasks } : Pool α β).entered = p.entered ++ [message] := by
  obtain ⟨-, rfl⟩ := FifoQueue.put_eq_some.mp put
  simp [Pool.entered]

/-- What the thread in `shutdown` does to the pool: it puts a sentinel or nothing. -/
theorem shutdownStep_cases {phase after : Shutdown} (stepped : p.shutdownStep phase = some (after, next)) :
    (phase = .joining ∧ after = .stopping 0 ∧ p.tasks.unfinished = 0 ∧ next = p) ∨
    (∃ k tasks, phase = .stopping k ∧ after = .stopping (k + 1) ∧
      k < p.workers.members.length ∧ p.tasks.put .shutdown = some tasks ∧
        next = { p with tasks := tasks }) ∨
    (∃ k, phase = .stopping k ∧ after = .awaiting 0 ∧ p.workers.members.length ≤ k ∧ next = p) ∨
    (∃ k message, phase = .awaiting k ∧ after = .awaiting (k + 1) ∧
      p.workers.members[k]? = some (.gone message) ∧ next = p) ∨
    ∃ k, phase = .awaiting k ∧ after = .returned ∧ p.workers.members.length ≤ k ∧ next = p := by
  unfold Pool.shutdownStep at stepped
  split at stepped
  · split at stepped
    · rename_i none
      cases stepped
      exact .inl ⟨rfl, rfl, none, rfl⟩
    · cases stepped
  -- the sentinels, one for each worker
  · rename_i k
    split at stepped
    · rename_i more
      obtain ⟨tasks, put, same⟩ := Option.map_eq_some_iff.mp stepped
      cases same
      exact .inr (.inl ⟨k, tasks, rfl, rfl, more, put, rfl⟩)
    · rename_i all
      cases stepped
      exact .inr (.inr (.inl ⟨k, rfl, rfl, Nat.not_lt.mp all, rfl⟩))
  -- `join` of one worker after the other
  · rename_i k
    split at stepped
    · rename_i message gone
      cases stepped
      exact .inr (.inr (.inr (.inl ⟨k, message, rfl, rfl, gone, rfl⟩)))
    · cases stepped
    · rename_i beyond
      cases stepped
      exact .inr (.inr (.inr (.inr ⟨k, rfl, rfl, List.getElem?_eq_none_iff.mp beyond, rfl⟩)))
  · cases stepped

/-- Who has ended stays so. -/
theorem gone_workerStep {move : WorkerMove} {k : Nat} {message : Message α}
    (stepped : p.workerStep doWork move = some next)
    (gone : p.workers.members[k]? = some (.gone message)) :
    next.workers.members[k]? = some (.gone message) := by
  have other {i : Nat} {old new : Member (Message α)} (found : p.workers.members[i]? = some old)
      (notGone : old ≠ .gone message) :
      (p.workers.members.set i new)[k]? = some (.gone message) := by
    have different : i ≠ k := by
      rintro rfl
      rw [found] at gone
      exact notGone (Option.some.inj gone)
    rw [List.getElem?_set_ne different, gone]
  obtain ⟨i, message, workers, rest, items, took, rfl⟩ | ⟨i, message, workers, handled, rfl⟩ |
    ⟨i, workers, finished, some, rfl⟩ := workerStep_cases stepped
  · obtain ⟨idle, rfl⟩ := Crew.take_eq_some.mp took
    exact other idle (by simp)
  · obtain ⟨holding, rfl⟩ := Crew.handle_eq_some.mp handled
    exact other holding (by simp)
  · obtain ⟨message, finishing, rfl⟩ := Crew.finish_eq_some.mp finished
    exact other finishing (by simp)

/-- When no worker can take a step, they have nothing in work, and those that have not
    ended wait at an empty queue. -/
theorem resting_of_stuck (keeps : Keeps doWork p)
    (stuck : ∀ move, p.workerStep doWork move = none) :
    p.workers.inWork = [] ∧ (p.tasks.items ≠ [] → p.Exited) := by
  have resting : ∀ i, p.workers.handle i = none ∧
      p.workers.finish (Message.ends doWork) i = none := by
    intro i
    constructor
    · cases handled : p.workers.handle i with
      | none => rfl
      | some result =>
        obtain ⟨message, workers⟩ := result
        have blocked := stuck (.work i)
        cases message with
        | task t => cases result : doWork t <;> simp [Pool.workerStep, handled, result] at blocked
        | shutdown => simp [Pool.workerStep, handled] at blocked
    · cases finished : p.workers.finish (Message.ends doWork) i with
      | none => rfl
      | some workers =>
        -- A message in work is unfinished, so `task_done` does not raise.
        obtain ⟨message, less⟩ := Crew.inWork_finish finished
        have some : p.tasks.unfinished ≠ 0 := by
          rw [keeps.unfinished, less.length_eq]
          simp
        have done := FifoQueue.taskDone_eq_some.mpr ⟨some, rfl⟩
        have blocked := stuck (.taskDone i)
        simp [Pool.workerStep, finished, done] at blocked
  constructor
  · rw [Crew.inWork, List.filterMap_eq_nil_iff]
    intro member inCrew
    obtain rfl | ⟨message, rfl⟩ := Crew.rest_or_gone resting inCrew
    · rfl
    · rfl
  · intro items member inCrew
    obtain rfl | gone := Crew.rest_or_gone resting inCrew
    · obtain ⟨i, idle⟩ := List.mem_iff_getElem?.mp inCrew
      obtain ⟨message, rest, queued⟩ := List.exists_cons_of_ne_nil items
      have got := FifoQueue.get_eq_some.mpr ⟨rest, queued, rfl⟩
      have took : p.workers.take i message = some _ := Crew.take_eq_some.mpr ⟨idle, rfl⟩
      have blocked := stuck (.get i)
      simp [Pool.workerStep, got, took] at blocked
    · exact gone

/-- The messages on which workers have ended or are about to. -/
theorem ends_taken (keeps : Keeps doWork p) :
    (p.workers.taken.map Prod.snd).countP (Message.ends doWork) =
      (p.workers.departures (Message.ends doWork)).length := by
  rw [List.countP_eq_length_filter]
  exact keeps.accounts.departed.length_eq

end Workers

/-! ## Shutting down -/

/-- The sentinels put are those of the thread in `shutdown`, one a worker at most. -/
structure ShutsDown (numWorkers : Nat) (phase : Shutdown) (p : Pool α β) : Prop where
  size : p.workers.members.length = numWorkers
  pills : p.entered.countP Message.isShutdown = phase.pills numWorkers
  pillsLe : phase.pills numWorkers ≤ numWorkers

/-- The workers joined have ended. -/
def Joins (numWorkers : Nat) (phase : Shutdown) (p : Pool α β) : Prop :=
  ∀ k, k < phase.awaited numWorkers → ∃ message, p.workers.members[k]? = some (.gone message)

section Stopping

variable {doWork : α → Option β} {numWorkers : Nat} {phase : Shutdown} {p next : Pool α β}

theorem shutsDown_start (numWorkers : Nat) (maxQueue : Int) :
    ShutsDown numWorkers .joining (.start numWorkers maxQueue : Pool α β) :=
  ⟨by simp [Pool.start, Crew.assemble], rfl, Nat.zero_le _⟩

theorem shutsDown_workerStep {move : WorkerMove} (shuts : ShutsDown numWorkers phase p)
    (stepped : p.workerStep doWork move = some next) : ShutsDown numWorkers phase next := by
  obtain ⟨entered, -, size⟩ := workerStep_keeps stepped
  exact ⟨by rw [size, shuts.size], by rw [entered, shuts.pills], shuts.pillsLe⟩

theorem shutsDown_submit {task : α} (shuts : ShutsDown numWorkers phase p)
    (submitted : p.submit task = some next) : ShutsDown numWorkers phase next := by
  obtain ⟨tasks, put, rfl⟩ := Option.map_eq_some_iff.mp submitted
  refine { shuts with pills := ?_ }
  rw [entered_put put, List.countP_append, shuts.pills]
  rfl

theorem shutsDown_shutdownStep {after : Shutdown} (shuts : ShutsDown numWorkers phase p)
    (stepped : p.shutdownStep phase = some (after, next)) : ShutsDown numWorkers after next := by
  obtain ⟨size, pills, pillsLe⟩ := shuts
  obtain ⟨rfl, rfl, -, rfl⟩ | ⟨k, tasks, rfl, rfl, more, put, rfl⟩ | ⟨k, rfl, rfl, all, rfl⟩ |
    ⟨k, message, rfl, rfl, gone, rfl⟩ | ⟨k, rfl, rfl, all, rfl⟩ := shutdownStep_cases stepped
  · exact ⟨size, pills, pillsLe⟩
  · rw [size] at more
    refine ⟨size, ?_, more⟩
    rw [entered_put put, List.countP_append, pills]
    rfl
  · rw [size] at all
    have every : k = numWorkers := Nat.le_antisymm pillsLe all
    exact ⟨size, pills.trans every, Nat.le_refl _⟩
  · exact ⟨size, pills, pillsLe⟩
  · exact ⟨size, pills, pillsLe⟩

theorem joins_workerStep {move : WorkerMove} (joins : Joins numWorkers phase p)
    (stepped : p.workerStep doWork move = some next) : Joins numWorkers phase next := by
  intro k early
  obtain ⟨message, gone⟩ := joins k early
  exact ⟨message, gone_workerStep stepped gone⟩

theorem joins_shutdownStep {after : Shutdown} (size : p.workers.members.length = numWorkers)
    (joins : Joins numWorkers phase p) (stepped : p.shutdownStep phase = some (after, next)) :
    Joins numWorkers after next := by
  obtain ⟨rfl, rfl, -, rfl⟩ | ⟨k, tasks, rfl, rfl, more, put, rfl⟩ | ⟨k, rfl, rfl, all, rfl⟩ |
    ⟨k, message, rfl, rfl, gone, rfl⟩ | ⟨k, rfl, rfl, all, rfl⟩ := shutdownStep_cases stepped
  · exact joins
  · exact joins
  · intro j early
    cases early
  · intro j early
    obtain before | same : j < k ∨ j = k := Nat.lt_succ_iff_lt_or_eq.mp early
    · exact joins j before
    · exact ⟨message, same ▸ gone⟩
  · rw [size] at all
    exact fun j early => joins j (Nat.lt_of_lt_of_le early all)

theorem exited_of_returned (size : p.workers.members.length = numWorkers)
    (joins : Joins numWorkers .returned p) : p.Exited := by
  intro member inCrew
  obtain ⟨k, inside, rfl⟩ := List.getElem_of_mem inCrew
  obtain ⟨message, gone⟩ := joins k (size ▸ inside)
  rw [List.getElem?_eq_getElem inside] at gone
  exact ⟨message, Option.some.inj gone⟩

/-- With all sentinels put and taken, no worker takes another message. -/
theorem nobody_idle (keeps : Keeps doWork p) (shuts : ShutsDown numWorkers phase p)
    (all : phase.pills numWorkers = numWorkers)
    (taken : p.tasks.items.countP Message.isShutdown = 0) (i : Nat) :
    p.workers.members[i]? ≠ some .idle := by
  have pills := shuts.pills
  have ends := ends_taken keeps
  have most := Crew.departures_le (Message.ends doWork) p.workers
  rw [all, Pool.entered, List.countP_append, taken] at pills
  rw [Message.countP_ends] at ends
  have every : (p.workers.departures (Message.ends doWork)).length =
      p.workers.members.length := by
    rw [shuts.size] at most ⊢
    omega
  exact Crew.not_idle_of_departures every i

/-- When no worker can take a step after the last sentinel, all have ended. -/
theorem exited_of_stuck (keeps : Keeps doWork p) (shuts : ShutsDown numWorkers phase p)
    (all : phase.pills numWorkers = numWorkers)
    (stuck : ∀ move, p.workerStep doWork move = none) : p.Exited := by
  obtain ⟨noWork, waiting⟩ := resting_of_stuck keeps stuck
  cases items : p.tasks.items with
  | cons message rest => exact waiting (by simp [items])
  | nil =>
    intro member inCrew
    have free := List.filterMap_eq_nil_iff.mp noWork member inCrew
    cases member with
    | idle =>
      obtain ⟨k, found⟩ := List.mem_iff_getElem?.mp inCrew
      exact absurd found (nobody_idle keeps shuts all (by rw [items]; rfl) k)
    | holding message => cases free
    | finishing message => cases free
    | gone message => exact ⟨message, rfl⟩

end Stopping

end Excalibur.WorkerPool
