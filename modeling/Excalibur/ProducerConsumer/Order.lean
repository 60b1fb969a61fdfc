import Excalibur.Library.CrewOrder
import Excalibur.ProducerConsumer.HandOff

/-! # The order of the numbers

Both pipelines are one first-in first-out pipeline: a step puts one item, gets one, or
leaves the items held as they are (`Moves`).  Each producer's numbers enter in order, and a
consumer appends what it took in that order.  With several consumers a number can be
overtaken, by any number of later ones, but it then is in the hands of another consumer.
-/

namespace Excalibur.ProducerConsumer

open Excalibur.Library

open scoped List

/-- One step of the threads, and of the items held between a `put` and a `get`. -/
inductive Moves (t : Threads) : List Item → Threads → List Item → Prop where
  | rest {buf : List Item} : Moves t buf t buf
  | put {buf : List Item} {thread : Thread} {item : Item}
      (pending : t.pending thread = some item) :
      Moves t buf (t.putReturns item thread) (buf ++ [item])
  | get {buf : List Item} {id : Nat} {item : Item} {next : Threads}
      (got : t.getReturns id item = some next) : Moves t (item :: buf) next buf
  | consume {buf : List Item} {id : Nat} {next : Threads} (consumed : t.consume id = some next) :
      Moves t buf next buf
  | loop {buf : List Item} {id : Nat} {next : Threads} (looped : t.loop id = some next) :
      Moves t buf next buf
  | advance {buf : List Item} {next : Threads} (advanced : t.advance = some next) :
      Moves t buf next buf

/-! ## Both pipelines take such steps -/

theorem StdlibRun.step_moves {s next : StdlibRun} {move : StdlibMove}
    (stepped : s.step move = some next) : Moves s.threads s.q.items next.threads next.q.items := by
  cases move with
  | put thread =>
    simp only [step] at stepped
    split at stepped
    · rename_i item pending
      obtain ⟨q, put, rfl⟩ := Option.map_eq_some_iff.mp stepped
      obtain ⟨-, rfl⟩ := FifoQueue.put_eq_some.mp put
      exact .put pending
    · cases stepped
  | get id =>
    simp only [step] at stepped
    split at stepped
    · rename_i item q got
      obtain ⟨threads, took, rfl⟩ := Option.map_eq_some_iff.mp stepped
      obtain ⟨rest, items, rfl⟩ := FifoQueue.get_eq_some.mp got
      rw [items]
      exact .get took
    · cases stepped
  | consume id =>
    obtain ⟨threads, consumed, rfl⟩ := Option.map_eq_some_iff.mp stepped
    exact .consume consumed
  | taskDone id =>
    simp only [step] at stepped
    split at stepped
    · rename_i threads q looped done
      cases stepped
      obtain ⟨-, rfl⟩ := FifoQueue.taskDone_eq_some.mp done
      exact .loop looped
    · cases stepped
  | advance =>
    obtain ⟨threads, advanced, rfl⟩ := Option.map_eq_some_iff.mp stepped
    exact .advance advanced

namespace RawRun

variable {s next : RawRun}

theorem moves_put {locked : RawBoundedBuffer Thread Item} {thread : Thread} {item : Item}
    {choice : Nat} (waiting : Waiting s.threads s.buffer)
    (enters : s.buffer.PutEnters thread item locked)
    (pending : s.threads.pending thread = some item)
    (settled : s.settle (locked.putLocked thread item choice) = some next) :
    Moves s.threads s.buffer.buf next.threads next.buffer.buf := by
  obtain ⟨still, free, sameBuf⟩ := putEnters_waiting waiting enters
  obtain ⟨-, ⟨threads, buf⟩ | ⟨threads, buf, -⟩⟩ := put_settles still free pending settled
  · rw [threads, buf, sameBuf]
    exact .rest
  · rw [threads, buf, sameBuf]
    exact .put pending

theorem moves_get {locked : RawBoundedBuffer Thread Item} {id choice : Nat}
    (waiting : Waiting s.threads s.buffer)
    (enters : s.buffer.GetEnters (.consumer id) locked)
    (idle : s.threads.consumers.members[id]? = some .idle)
    (settled : s.settle (locked.getLocked (.consumer id) choice) = some next) :
    Moves s.threads s.buffer.buf next.threads next.buffer.buf := by
  obtain ⟨still, free, sameBuf⟩ := getEnters_waiting waiting enters
  obtain ⟨-, ⟨threads, buf⟩ | ⟨item, buf, got⟩⟩ := get_settles still free idle settled
  · rw [threads, buf, sameBuf]
    exact .rest
  · rw [← sameBuf, buf]
    exact .get got

/-- Waits and wakeups are rests. -/
theorem step_moves {move : RawMove} (waiting : Waiting s.threads s.buffer)
    (stepped : s.step move = some next) :
    Moves s.threads s.buffer.buf next.threads next.buffer.buf := by
  cases move with
  | put thread choice =>
    simp only [step] at stepped
    split at stepped
    · rename_i item pending
      obtain ⟨result, called, settled⟩ := Option.bind_eq_some_iff.mp stepped
      simp only [RawBoundedBuffer.step] at called
      split at called
      · cases called
      · rename_i free
        cases called
        exact moves_put waiting (.inl ⟨free, rfl⟩) pending settled
    · cases stepped
  | get id choice =>
    simp only [step] at stepped
    split at stepped
    · rename_i idle
      obtain ⟨result, called, settled⟩ := Option.bind_eq_some_iff.mp stepped
      simp only [RawBoundedBuffer.step] at called
      split at called
      · cases called
      · rename_i free
        cases called
        exact moves_get waiting (.inl ⟨free, rfl⟩) idle settled
    · cases stepped
  | resumePut position choice =>
    obtain ⟨result, called, settled⟩ := Option.bind_eq_some_iff.mp stepped
    obtain ⟨⟨⟨thread, item⟩, notFull⟩, resumed, rfl⟩ := Option.map_eq_some_iff.mp called
    have waiters := Condition.resume_waiters resumed
    have pending := waiting.putting _ (waiters.mem_iff.mpr List.mem_cons_self)
    exact moves_put waiting (.inr ⟨position, notFull, resumed, rfl⟩) pending settled
  | resumeGet position choice =>
    obtain ⟨result, called, settled⟩ := Option.bind_eq_some_iff.mp stepped
    obtain ⟨⟨thread, notEmpty⟩, resumed, rfl⟩ := Option.map_eq_some_iff.mp called
    have waiters := Condition.resume_waiters resumed
    obtain ⟨id, rfl, idle⟩ := waiting.getting _ (waiters.mem_iff.mpr List.mem_cons_self)
    exact moves_get waiting (.inr ⟨position, notEmpty, resumed, rfl⟩) idle settled
  | spuriousPut position =>
    obtain ⟨result, called, settled⟩ := Option.bind_eq_some_iff.mp stepped
    obtain ⟨notFull, -, rfl⟩ := Option.map_eq_some_iff.mp called
    cases settled
    exact .rest
  | spuriousGet position =>
    obtain ⟨result, called, settled⟩ := Option.bind_eq_some_iff.mp stepped
    obtain ⟨notEmpty, -, rfl⟩ := Option.map_eq_some_iff.mp called
    cases settled
    exact .rest
  | consume id =>
    obtain ⟨threads, consumed, rfl⟩ := Option.map_eq_some_iff.mp stepped
    exact .consume consumed
  | loop id =>
    obtain ⟨threads, looped, rfl⟩ := Option.map_eq_some_iff.mp stepped
    exact .loop looped
  | advance =>
    obtain ⟨threads, advanced, rfl⟩ := Option.map_eq_some_iff.mp stepped
    exact .advance advanced

end RawRun

/-! ## What a step keeps of the order -/

/-- The numbers among the items, and those that producer `pid` makes. -/
def numbers (items : List Item) : List Nat := items.filterMap Item.value

def numbersOf (perProducer pid : Nat) (items : List Item) : List Nat :=
  (numbers items).filter fun n => n / perProducer = pid

/-- Each producer's numbers are entered in turn, and each consumer handles in order. -/
structure Orderly (t : Threads) : Prop where
  inTurn : ∀ pid i : Nat, t.producers[pid]? = some i →
    numbersOf t.perProducer pid t.entered = List.range' (pid * t.perProducer) i
  consumers : t.consumers.InOrder

section Steps

variable {t next : Threads} {buf after : List Item}

theorem orderly_start (numProducers numConsumers perProducer : Nat) :
    Orderly (.start numProducers numConsumers perProducer) := by
  refine ⟨?_, Crew.inOrder_assemble _⟩
  intro pid i found
  simp only [Threads.start, List.getElem?_replicate] at found
  split at found
  · cases found
    rfl
  · cases found

theorem numbersOf_snoc (perProducer pid : Nat) (items : List Item) (item : Item) :
    numbersOf perProducer pid (items ++ [item]) =
      numbersOf perProducer pid items ++ numbersOf perProducer pid [item] := by
  simp [numbersOf, numbers]

theorem orderly_produce (orderly : Orderly t) {pid i : Nat} (found : t.producers[pid]? = some i)
    (more : i < t.perProducer) :
    Orderly (t.putReturns (.number (pid * t.perProducer + i)) (.producer pid)) := by
  have quotient : (pid * t.perProducer + i) / t.perProducer = pid := by
    rw [Nat.mul_comm, Nat.mul_add_div (by omega), Nat.div_eq_of_lt more, Nat.add_zero]
  refine ⟨?_, orderly.consumers⟩
  intro other k now
  show numbersOf t.perProducer other (t.entered ++ [_]) = List.range' (other * t.perProducer) k
  simp only [Threads.putReturns, List.getElem?_modify] at now
  rw [numbersOf_snoc]
  by_cases same : pid = other
  · -- The number entered is the next one of this producer.
    subst same
    have next : i + 1 = k := by simpa [found] using now
    rw [orderly.inTurn pid i found, ← next, List.range'_concat]
    simp [numbersOf, numbers, Item.value, quotient]
  · have before : t.producers[other]? = some k := by simpa [same] using now
    rw [orderly.inTurn other k before]
    simp [numbersOf, numbers, Item.value, quotient, same]

theorem orderly_put (orderly : Orderly t) {thread : Thread} {item : Item}
    (pending : t.pending thread = some item) : Orderly (t.putReturns item thread) := by
  cases thread with
  | producer pid =>
    simp only [Threads.pending] at pending
    split at pending
    · rename_i i found
      split at pending
      · rename_i more
        cases pending
        exact orderly_produce orderly found more
      · cases pending
    · cases pending
  | consumer id => cases pending
  | main =>
    simp only [Threads.pending] at pending
    split at pending
    · rename_i k stopping
      split at pending
      · cases pending
        -- a pill is no number
        have kept : t.putReturns .done .main =
            { t with main := .stopping (k + 1), entered := t.entered ++ [.done] } := by
          simp only [Threads.putReturns, stopping]
        rw [kept]
        refine ⟨?_, orderly.consumers⟩
        intro pid i found
        show numbersOf _ _ (t.entered ++ _) = _
        rw [numbersOf_snoc, orderly.inTurn pid i found]
        simp [numbersOf, numbers, Item.value]
      · cases pending
    · cases pending

/-- `advance` moves the main thread only. -/
theorem advance_eq (advanced : t.advance = some next) :
    ∃ main, next = { t with main := main } := by
  unfold Threads.advance at advanced
  split at advanced
  · split at advanced
    · split at advanced
      · cases advanced
      · cases advanced
        exact ⟨_, rfl⟩
    · cases advanced
      exact ⟨_, rfl⟩
  · split at advanced
    · cases advanced
    · cases advanced
      exact ⟨_, rfl⟩
  · split at advanced
    · cases advanced
      exact ⟨_, rfl⟩
    · cases advanced
    · cases advanced
      exact ⟨_, rfl⟩
  · cases advanced

theorem orderly_step (orderly : Orderly t) (moves : Moves t buf next after) : Orderly next := by
  cases moves with
  | rest => exact orderly
  | put pending => exact orderly_put orderly pending
  | get got =>
    obtain ⟨consumers, took, rfl⟩ := Option.map_eq_some_iff.mp got
    exact ⟨orderly.inTurn, Crew.inOrder_take orderly.consumers took⟩
  | consume consumed =>
    obtain ⟨⟨item, consumers⟩, handled, rfl⟩ := Option.map_eq_some_iff.mp consumed
    exact ⟨orderly.inTurn, Crew.inOrder_handle orderly.consumers handled⟩
  | loop looped =>
    obtain ⟨consumers, finished, rfl⟩ := Option.map_eq_some_iff.mp looped
    exact ⟨orderly.inTurn, Crew.inOrder_finish orderly.consumers finished⟩
  | advance advanced =>
    obtain ⟨main, rfl⟩ := advance_eq advanced
    exact ⟨orderly.inTurn, orderly.consumers⟩

end Steps

/-! ## What the consumers see -/

/-- What holds of the order at a state: producers enter their numbers in order, and with
    one consumer `consumed` is a beginning of what was entered.  With more of them each one
    appends what it took in order, but for the item it holds, and when a number is consumed,
    the other consumers hold what was entered before it and is not consumed. -/
structure InOrder (numConsumers : Nat) (t : Threads) : Prop where
  produced : ∀ pid i : Nat, t.producers[pid]? = some i →
    numbersOf t.perProducer pid t.entered = List.range' (pid * t.perProducer) i
  taken : ∀ id pid, (numbersOf t.perProducer pid (t.consumers.takenBy id)).Pairwise (· < ·)
  consumed : ∀ id, ∃ finished, t.consumers.takenBy id =
    finished ++ (t.consumers.heldBy id).toList ∧ numbers finished <+ t.consumed
  overtaken : ∀ front n rest, numbers t.entered = front ++ n :: rest → n ∈ t.consumed →
    (front.filter (· ∉ t.consumed)).length < numConsumers
  alone : numConsumers = 1 → t.consumed <+: numbers t.entered

section Keeping

variable {numProducers numConsumers perProducer : Nat} {t : Threads} {buf : List Item}

theorem mem_numbers {items : List Item} {n : Nat} : n ∈ numbers items ↔ .number n ∈ items := by
  rw [numbers, List.mem_filterMap]
  constructor
  · rintro ⟨item, member, value⟩
    cases item with
    | number m =>
      cases value
      exact member
    | done => cases value
  · intro member
    exact ⟨_, member, rfl⟩

theorem Conserves.numbers_nodup (conserves : Conserves numProducers numConsumers perProducer t buf) :
    (numbers t.entered).Nodup := by
  rw [List.nodup_iff_count_le_one]
  intro n
  rw [numbers, count_value, conserves.once n]
  split
  · exact Nat.le_refl _
  · exact Nat.zero_le _

/-- Each producer's numbers increase, also those of a producer that does not exist. -/
theorem Conserves.increasing (conserves : Conserves numProducers numConsumers perProducer t buf)
    (orderly : Orderly t) (pid : Nat) :
    (numbersOf t.perProducer pid t.entered).Pairwise (· < ·) := by
  cases found : t.producers[pid]? with
  | some i =>
    rw [orderly.inTurn pid i found]
    exact List.pairwise_lt_range'
  | none =>
    have nothing : numbersOf t.perProducer pid t.entered = [] := by
      rw [numbersOf, List.filter_eq_nil_iff]
      intro n member mine
      have quotient : n / perProducer = pid := by
        rw [← conserves.per]
        simpa using mine
      have entered := List.count_pos_iff.mpr (mem_numbers.mp member)
      simp [conserves.once n, quotient, found] at entered
    rw [nothing]
    exact .nil

theorem Conserves.entered_numbers
    (conserves : Conserves numProducers numConsumers perProducer t buf) :
    numbers t.entered = numbers (t.consumers.taken.map Prod.snd) ++ numbers buf := by
  rw [conserves.fifo, numbers, List.filterMap_append]
  rfl

theorem Conserves.overtaken (conserves : Conserves numProducers numConsumers perProducer t buf)
    (orderly : Orderly t) {front rest : List Nat} {n : Nat}
    (split : numbers t.entered = front ++ n :: rest) (done : n ∈ t.consumed) :
    (front.filter (· ∉ t.consumed)).length < numConsumers := by
  have once := conserves.numbers_nodup
  -- A number that is consumed was taken, and so were those entered before it.
  have took : n ∈ numbers (t.consumers.taken.map Prod.snd) := by
    have kept := conserves.accounts.kept.filterMap Item.value
    rw [List.filterMap_append, ← conserves.recorded] at kept
    exact kept.mem_iff.mpr (List.mem_append_left _ done)
  obtain ⟨before, behind, taken⟩ := List.append_of_mem took
  have same : before = front := by
    have both : before ++ n :: (behind ++ numbers buf) = front ++ n :: rest := by
      rw [← split, conserves.entered_numbers, taken, List.append_assoc, List.cons_append]
    rw [split, ← both] at once
    have apart := (List.nodup_cons.mp (List.nodup_middle.mp once)).1
    rw [List.mem_append, not_or] at apart
    exact ((List.append_cons_inj_of_notMem apart.1 apart.2).mp both).1
  rw [same] at taken
  have takenOnce : (numbers (t.consumers.taken.map Prod.snd)).Nodup := by
    rw [conserves.entered_numbers] at once
    exact (List.nodup_append.mp once).1
  rw [conserves.recorded] at done ⊢
  rw [← conserves.crewSize]
  exact conserves.accounts.overtaken_lt orderly.consumers takenOnce taken done

theorem Conserves.inOrder (conserves : Conserves numProducers numConsumers perProducer t buf)
    (orderly : Orderly t) : InOrder numConsumers t where
  produced := orderly.inTurn
  taken id pid := by
    refine (conserves.increasing orderly pid).sublist ?_
    rw [conserves.fifo]
    refine List.Sublist.filter _ (List.Sublist.filterMap _ ?_)
    exact (Crew.takenBy_sublist _ id).trans (List.sublist_append_left _ _)
  consumed id := by
    obtain ⟨finished, order, handled⟩ := orderly.consumers.each id
    refine ⟨finished, order, ?_⟩
    rw [conserves.recorded]
    exact handled.filterMap Item.value
  overtaken front n rest split done := conserves.overtaken orderly split done
  alone single := by
    have taken := conserves.accounts.taken_of_single orderly.consumers
      (conserves.crewSize.trans single)
    rw [conserves.entered_numbers, taken, conserves.recorded, numbers, List.filterMap_append,
      List.append_assoc]
    exact List.prefix_append _ _

end Keeping

theorem RawRun.visited_keeps {numProducers numConsumers perProducer : Nat}
    (moves : List RawMove) :
    ∀ s, Visited step (start numProducers numConsumers perProducer) moves s →
      Invariant numProducers numConsumers perProducer s ∧ Orderly s.threads := by
  refine run_invariant ⟨invariant_start _ _ _, orderly_start _ _ _⟩ ?_ moves
  intro state move next stepped before
  have moved := step_moves before.1.waiting stepped
  exact ⟨invariant_step before.1 stepped, orderly_step before.2 moved⟩

theorem StdlibRun.visited_keeps {numProducers numConsumers perProducer : Nat}
    (moves : List StdlibMove) :
    ∀ s, Visited step (start numProducers numConsumers perProducer) moves s →
      Invariant numProducers numConsumers perProducer s ∧ Orderly s.threads := by
  refine run_invariant ⟨invariant_start _ _ _, orderly_start _ _ _⟩ ?_ moves
  intro state move next stepped before
  exact ⟨invariant_step before.1 stepped, orderly_step before.2 (step_moves stepped)⟩

/-- The second consumer is done with the second number while the first one holds the first. -/
def overtaking : List RawMove :=
  [.put (.producer 0) 0, .put (.producer 0) 0, .get 0 0, .get 1 0, .consume 1]

def firstOvertaken : RawRun :=
  { threads :=
      { perProducer := 2, producers := [2], main := .joining 0,
        consumers :=
          { members := [.holding (.number 0), .finishing (.number 1)],
            taken := [(0, .number 0), (1, .number 1)], handled := [.number 1] },
        consumed := [1], entered := [.number 0, .number 1] },
    buffer := .init 16 }

end Excalibur.ProducerConsumer
