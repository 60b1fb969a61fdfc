import Excalibur.ProducerConsumer.Pipeline
import Excalibur.Library.FifoQueue
import Excalibur.Library.Run

/-! # The pipeline on `queue.Queue`

`run_with_stdlib_queue`: the threads with a queue of 16 as a first-in first-out
monitor.  A step is one action of one thread.
-/

namespace Excalibur.ProducerConsumer

open Excalibur.Library

/-- What holds of the pipelines at a state: items leave in the order they entered
    and at most 16 are held, a run gets stuck only when every consumer has exited, and
    then each took one pill, nothing is left and every number is consumed once. -/
structure HandsOff (numProducers numConsumers perProducer : Nat) (t : Threads) (buf : List Item)
    (stuck : Prop) : Prop where
  inOrder : t.entered = t.consumers.taken.map Prod.snd ++ buf
  bounded : buf.length ≤ 16
  live : stuck → t.Exited
  onePill : t.Exited → ∀ id < numConsumers, (t.consumers.takenBy id).count .done = 1
  drained : t.Exited → buf = []
  exactlyOnce : t.Exited → t.consumed.Perm (List.range (numProducers * perProducer))

theorem Conserves.handsOff {numProducers numConsumers perProducer : Nat} {t : Threads}
    {buf : List Item} {stuck : Prop} (some : 1 ≤ numConsumers)
    (conserves : Conserves numProducers numConsumers perProducer t buf)
    (bounded : buf.length ≤ 16) (live : stuck → t.Exited) :
    HandsOff numProducers numConsumers perProducer t buf stuck where
  inOrder := conserves.fifo
  bounded := bounded
  live := live
  onePill exited _ inside := one_pill_each conserves exited inside
  drained exited := empty_of_exited some conserves exited
  exactlyOnce exited := consumed_perm some conserves exited

/-- `verify` passes on what the consumers leave behind. -/
theorem HandsOff.verifies {numProducers numConsumers perProducer : Nat} {t : Threads}
    {buf : List Item} {stuck : Prop}
    (handsOff : HandsOff numProducers numConsumers perProducer t buf stuck) (exited : t.Exited)
    (label : String) : verify t.consumed numProducers perProducer label = .ok () :=
  verify_eq_ok_iff.mpr (handsOff.exactlyOnce exited)

structure StdlibRun where
  threads : Threads
  q : FifoQueue Item
  deriving Repr, DecidableEq

inductive StdlibMove where
  | put (thread : Thread)
  | get (id : Nat)
  | consume (id : Nat)
  | taskDone (id : Nat)
  | advance
  deriving Repr, DecidableEq

namespace StdlibRun

def start (numProducers numConsumers perProducer : Nat) : StdlibRun :=
  { threads := .start numProducers numConsumers perProducer, q := .empty 16 }

def step (s : StdlibRun) : StdlibMove → Option StdlibRun
  | .put thread =>
    match s.threads.pending thread with
    | some item =>
      (s.q.put item).map fun q => { threads := s.threads.putReturns item thread, q := q }
    | none => none
  | .get id =>
    match s.q.get with
    | some (item, q) =>
      (s.threads.getReturns id item).map fun threads => { threads := threads, q := q }
    | none => none
  | .consume id => (s.threads.consume id).map fun threads => { s with threads := threads }
  | .taskDone id =>
    -- The `finally` clause, before the loop goes on or the thread returns.
    match s.threads.loop id, s.q.taskDone with
    | some threads, some q => some { threads := threads, q := q }
    | _, _ => none
  | .advance => s.threads.advance.map fun threads => { s with threads := threads }

structure Invariant (numProducers numConsumers perProducer : Nat) (s : StdlibRun) : Prop where
  conserves : Conserves numProducers numConsumers perProducer s.threads s.q.items
  maxsize : s.q.maxsize = 16
  within : s.q.WithinBound
  unfinished : s.q.unfinished = s.q.items.length + s.threads.consumers.inWork.length

section Steps

variable {numProducers numConsumers perProducer : Nat} {s next : StdlibRun}

theorem invariant_step {move : StdlibMove}
    (invariant : Invariant numProducers numConsumers perProducer s)
    (stepped : s.step move = some next) :
    Invariant numProducers numConsumers perProducer next := by
  obtain ⟨conserves, maxsize, within, unfinished⟩ := invariant
  cases move with
  | put thread =>
    simp only [step] at stepped
    split at stepped
    · rename_i item pending
      obtain ⟨q, put, rfl⟩ := Option.map_eq_some_iff.mp stepped
      have stillWithin := within.put put
      -- one item more in the queue, and one more unfinished
      obtain ⟨-, rfl⟩ := FifoQueue.put_eq_some.mp put
      refine ⟨conserves_put conserves pending, maxsize, stillWithin, ?_⟩
      rw [consumers_putReturns]
      simp only [unfinished, List.length_append, List.length_singleton]
      omega
    · cases stepped
  | get id =>
    simp only [step] at stepped
    split at stepped
    · rename_i item q got
      obtain ⟨threads, took, rfl⟩ := Option.map_eq_some_iff.mp stepped
      have stillWithin := within.get got
      obtain ⟨rest, items, rfl⟩ := FifoQueue.get_eq_some.mp got
      rw [items] at conserves unfinished
      refine ⟨conserves_getReturns conserves took, maxsize, stillWithin, ?_⟩
      -- the item goes from the queue into work, so the unfinished ones stay
      obtain ⟨consumers, tookIn, rfl⟩ := Option.map_eq_some_iff.mp took
      have more := (Crew.inWork_take tookIn).length_eq
      simp only [unfinished, more, List.length_cons]
      omega
    · cases stepped
  | consume id =>
    obtain ⟨threads, consumed, rfl⟩ := Option.map_eq_some_iff.mp stepped
    refine ⟨conserves_consume conserves consumed, maxsize, within, ?_⟩
    obtain ⟨⟨item, consumers⟩, handled, rfl⟩ := Option.map_eq_some_iff.mp consumed
    simp only [unfinished, Crew.inWork_handle handled]
  | taskDone id =>
    simp only [step] at stepped
    split at stepped
    · rename_i threads q looped done
      cases stepped
      obtain ⟨-, rfl⟩ := FifoQueue.taskDone_eq_some.mp done
      refine ⟨conserves_loop conserves looped, maxsize, within, ?_⟩
      obtain ⟨consumers, finished, rfl⟩ := Option.map_eq_some_iff.mp looped
      -- `task_done` takes off the item that leaves the work
      obtain ⟨item, less⟩ := Crew.inWork_finish finished
      have fewer := less.length_eq
      simp only [unfinished, fewer, List.length_cons]
      omega
    · cases stepped
  | advance =>
    obtain ⟨threads, advanced, rfl⟩ := Option.map_eq_some_iff.mp stepped
    refine ⟨conserves_advance conserves advanced, maxsize, within, ?_⟩
    rw [(advance_keeps advanced).1]
    exact unfinished

/-- No thread can take a step. -/
def Stuck (s : StdlibRun) : Prop := ∀ move, s.step move = none

theorem exited_of_stuck (invariant : Invariant numProducers numConsumers perProducer s)
    (stuck : s.Stuck) : s.threads.Exited := by
  apply exited_of_resting
  · intro id
    refine ⟨Option.map_eq_none_iff.mp (stuck (.consume id)), ?_⟩
    -- An item in work is unfinished, so `task_done` does not raise.
    cases looped : s.threads.loop id with
    | none => rfl
    | some threads =>
      exfalso
      obtain ⟨consumers, finished, -⟩ := Option.map_eq_some_iff.mp looped
      obtain ⟨item, less⟩ := Crew.inWork_finish finished
      have some : s.q.unfinished ≠ 0 := by
        rw [invariant.unfinished, less.length_eq]
        simp
      have done := FifoQueue.taskDone_eq_some.mpr ⟨some, rfl⟩
      have blocked := stuck (.taskDone id)
      simp [step, looped, done] at blocked
  · intro id idle
    cases items : s.q.items with
    | cons item rest =>
      have got := FifoQueue.get_eq_some.mpr ⟨rest, items, rfl⟩
      obtain ⟨threads, took⟩ := getReturns_of_idle idle item
      have blocked := stuck (.get id)
      simp [step, got, took] at blocked
    | nil =>
      have conserves := invariant.conserves
      rw [items] at conserves
      have room : ¬ s.q.full := by
        rw [FifoQueue.full_iff, items, invariant.maxsize]
        decide
      have noPut (thread : Thread) : s.threads.pending thread = none := by
        cases pending : s.threads.pending thread with
        | none => rfl
        | some item =>
          have put := FifoQueue.put_of_not_full room item
          have blocked := stuck (.put thread)
          simp [step, pending, put] at blocked
      have blocked := Option.map_eq_none_iff.mp (stuck .advance)
      exact nobody_waits_of_quiet conserves noPut blocked id idle

end Steps

theorem invariant_start (numProducers numConsumers perProducer : Nat) :
    Invariant numProducers numConsumers perProducer
      (start numProducers numConsumers perProducer) := by
  refine ⟨conserves_start _ _ _, rfl, FifoQueue.withinBound_empty _, ?_⟩
  simp [start, Threads.start, FifoQueue.empty, Crew.assemble, Crew.inWork,
    List.filterMap_replicate, Member.working]

end StdlibRun

end Excalibur.ProducerConsumer
