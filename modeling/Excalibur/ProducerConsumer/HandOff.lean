import Excalibur.ProducerConsumer.StdlibRun
import Excalibur.ProducerConsumer.RawBoundedBuffer

/-! # Exactly-once hand-off

`run_with_raw_buffer`: the same threads with a `RawBoundedBuffer(capacity=16)`.
Waits and wakeups change neither the threads nor the items held, so the run keeps
what the threads keep; what has to be shown besides is that whoever sleeps in the
buffer sleeps in the call its thread is at, and that no wakeup is lost.
-/

namespace Excalibur.ProducerConsumer

open Excalibur.Library

structure RawRun where
  threads : Threads
  buffer : RawBoundedBuffer Thread Item
  deriving Repr

inductive RawMove where
  | put (thread : Thread) (choice : Nat)
  | get (id : Nat) (choice : Nat)
  | resumePut (position choice : Nat)
  | resumeGet (position choice : Nat)
  | spuriousPut (position : Nat)
  | spuriousGet (position : Nat)
  | consume (id : Nat)
  | loop (id : Nat)
  | advance
  deriving Repr, DecidableEq

def RawMove.isSpurious : RawMove → Bool
  | .spuriousPut _ => true
  | .spuriousGet _ => true
  | _ => false

namespace RawRun

def start (numProducers numConsumers perProducer : Nat) : RawRun :=
  { threads := .start numProducers numConsumers perProducer, buffer := .init 16 }

/-- The threads go on with what a step of the buffer did. -/
def settle (s : RawRun) : Outcome Thread Item × RawBoundedBuffer Thread Item → Option RawRun
  | (.waits, buffer) => some { s with buffer := buffer }
  | (.put thread item, buffer) =>
    some { threads := s.threads.putReturns item thread, buffer := buffer }
  | (.got (.consumer id) item, buffer) =>
    (s.threads.getReturns id item).map fun threads => { threads := threads, buffer := buffer }
  | (.got _ _, _) => none

def step (s : RawRun) : RawMove → Option RawRun
  | .put thread choice =>
    match s.threads.pending thread with
    | some item => (s.buffer.step (.put thread item choice)).bind s.settle
    | none => none
  | .get id choice =>
    if s.threads.consumers.members[id]? = some .idle then
      (s.buffer.step (.get (.consumer id) choice)).bind s.settle
    else none
  | .resumePut position choice => (s.buffer.step (.resumePut position choice)).bind s.settle
  | .resumeGet position choice => (s.buffer.step (.resumeGet position choice)).bind s.settle
  | .spuriousPut position => (s.buffer.step (.spuriousPut position)).bind s.settle
  | .spuriousGet position => (s.buffer.step (.spuriousGet position)).bind s.settle
  | .consume id => (s.threads.consume id).map fun threads => { s with threads := threads }
  | .loop id => (s.threads.loop id).map fun threads => { s with threads := threads }
  | .advance => s.threads.advance.map fun threads => { s with threads := threads }

end RawRun

/-! ## Who waits for what -/

/-- Each waiter is in the call that its thread is at, once. -/
structure Waiting (t : Threads) (b : RawBoundedBuffer Thread Item) : Prop where
  putting : ∀ waiter ∈ b.notFull.waiters, t.pending waiter.1 = some waiter.2
  getting : ∀ thread ∈ b.notEmpty.waiters,
    ∃ id, thread = .consumer id ∧ t.consumers.members[id]? = some .idle
  puttersOnce : (b.notFull.waiters.map Prod.fst).Nodup
  gettersOnce : b.notEmpty.waiters.Nodup

/-- Only what the waiters need to know of the threads matters. -/
theorem Waiting.threads {t after : Threads} {b : RawBoundedBuffer Thread Item}
    (waiting : Waiting t b)
    (pending : ∀ thread item, (thread, item) ∈ b.notFull.waiters →
      t.pending thread = some item → after.pending thread = some item)
    (idle : ∀ id, Thread.consumer id ∈ b.notEmpty.waiters →
      t.consumers.members[id]? = some .idle → after.consumers.members[id]? = some .idle) :
    Waiting after b := by
  refine ⟨?_, ?_, waiting.puttersOnce, waiting.gettersOnce⟩
  · rintro ⟨thread, item⟩ member
    exact pending thread item member (waiting.putting _ member)
  · intro thread member
    obtain ⟨id, rfl, wasIdle⟩ := waiting.getting thread member
    exact ⟨id, rfl, idle id member wasIdle⟩

/-- Waking waiters changes nothing. -/
theorem Waiting.buffer {t : Threads} {b after : RawBoundedBuffer Thread Item}
    (waiting : Waiting t b) (putters : after.notFull.waiters.Perm b.notFull.waiters)
    (getters : after.notEmpty.waiters.Perm b.notEmpty.waiters) : Waiting t after := by
  refine ⟨?_, ?_, ?_, ?_⟩
  · intro waiter member
    exact waiting.putting waiter (putters.mem_iff.mp member)
  · intro thread member
    exact waiting.getting thread (getters.mem_iff.mp member)
  · exact (putters.map Prod.fst).nodup_iff.mpr waiting.puttersOnce
  · exact getters.nodup_iff.mpr waiting.gettersOnce

/-- What the `put` that a thread has come to depends on. -/
theorem pending_congr {t after : Threads} {thread : Thread}
    (perProducer : after.perProducer = t.perProducer)
    (producers : ∀ pid, thread = .producer pid → after.producers[pid]? = t.producers[pid]?)
    (main : thread = .main → after.main = t.main)
    (size : after.consumers.members.length = t.consumers.members.length) :
    after.pending thread = t.pending thread := by
  cases thread with
  | producer pid => simp only [Threads.pending, perProducer, producers pid rfl]
  | consumer id => rfl
  | main => simp only [Threads.pending, main rfl, size]

theorem pending_putReturns {t : Threads} {item : Item} {thread other : Thread}
    (different : other ≠ thread) : (t.putReturns item thread).pending other = t.pending other := by
  have size := congrArg (fun consumers => consumers.members.length)
    (consumers_putReturns t item thread)
  cases thread with
  | producer pid =>
    refine pending_congr rfl ?_ (fun _ => rfl) size
    rintro otherPid rfl
    have distinct : pid ≠ otherPid := fun same => different (same ▸ rfl)
    simp [Threads.putReturns, distinct]
  | consumer id => rfl
  | main =>
    have same : (t.putReturns item .main).producers = t.producers ∧
        (t.putReturns item .main).perProducer = t.perProducer := by
      simp only [Threads.putReturns]
      split <;> exact ⟨rfl, rfl⟩
    exact pending_congr same.2 (fun pid _ => by rw [same.1]) (fun main => absurd main different) size

/-! ## The waiters along a step -/

section Steps

variable {t : Threads} {b locked : RawBoundedBuffer Thread Item} {thread : Thread} {item : Item}

/-- A thread that has acquired the lock for `put` waits no more. -/
theorem putEnters_waiting (waiting : Waiting t b) (enters : b.PutEnters thread item locked) :
    Waiting t locked ∧ thread ∉ locked.notFull.waiters.map Prod.fst ∧ locked.buf = b.buf := by
  obtain ⟨free, rfl⟩ | ⟨position, notFull, resumed, rfl⟩ := enters
  · refine ⟨waiting, fun member => free ?_, rfl⟩
    exact List.mem_append_left _ member
  · have waiters := Condition.resume_waiters resumed
    have once := (waiters.map Prod.fst).nodup_iff.mp waiting.puttersOnce
    rw [List.map_cons, List.nodup_cons] at once
    refine ⟨⟨?_, waiting.getting, once.2, waiting.gettersOnce⟩, once.1, rfl⟩
    intro waiter member
    exact waiting.putting waiter (waiters.mem_iff.mpr (List.mem_cons_of_mem _ member))

theorem getEnters_waiting (waiting : Waiting t b) (enters : b.GetEnters thread locked) :
    Waiting t locked ∧ thread ∉ locked.notEmpty.waiters ∧ locked.buf = b.buf := by
  obtain ⟨free, rfl⟩ | ⟨position, notEmpty, resumed, rfl⟩ := enters
  · refine ⟨waiting, fun member => free ?_, rfl⟩
    exact List.mem_append_right _ member
  · have waiters := Condition.resume_waiters resumed
    have once := waiters.nodup_iff.mp waiting.gettersOnce
    rw [List.nodup_cons] at once
    refine ⟨⟨waiting.putting, ?_, waiting.puttersOnce, once.2⟩, once.1, rfl⟩
    intro other member
    exact waiting.getting other (waiters.mem_iff.mpr (List.mem_cons_of_mem _ member))

/-- The threads go on with a `put` section: to sleep, or with the item put. -/
theorem put_settles {s next : RawRun} (waiting : Waiting s.threads locked)
    (free : thread ∉ locked.notFull.waiters.map Prod.fst)
    (pending : s.threads.pending thread = some item) {choice : Nat}
    (settled : s.settle (locked.putLocked thread item choice) = some next) :
    Waiting next.threads next.buffer ∧
      (next.threads = s.threads ∧ next.buffer.buf = locked.buf ∨
        next.threads = s.threads.putReturns item thread ∧
          next.buffer.buf = locked.buf ++ [item] ∧ (locked.buf.length : Int) < locked.capacity) := by
  unfold RawBoundedBuffer.putLocked at settled
  split at settled
  -- `while len(self._buf) >= self._capacity`: the thread waits, for the same item
  · cases settled
    refine ⟨⟨?_, waiting.getting, ?_, waiting.gettersOnce⟩, .inl ⟨rfl, rfl⟩⟩
    · intro waiter member
      obtain rfl | before := List.mem_cons.mp ((Condition.wait_waiters _ _).mem_iff.mp member)
      · exact pending
      · exact waiting.putting waiter before
    · refine ((Condition.wait_waiters _ _).map Prod.fst).nodup_iff.mpr ?_
      exact List.nodup_cons.mpr ⟨free, waiting.puttersOnce⟩
  · rename_i room
    cases settled
    -- nobody else is moved on by this thread, and it is among no waiters itself
    have onward : Waiting (s.threads.putReturns item thread) locked := by
      apply waiting.threads
      · intro other otherItem member wasPending
        have different : other ≠ thread := by
          rintro rfl
          exact free (List.mem_map.mpr ⟨_, member, rfl⟩)
        rw [pending_putReturns different, wasPending]
      · intro id _ wasIdle
        rw [consumers_putReturns, wasIdle]
    refine ⟨onward.buffer (.refl _) (Condition.notify_waiters _ _), .inr ⟨rfl, rfl, ?_⟩⟩
    omega

/-- The same for `get`. -/
theorem get_settles {s next : RawRun} {id : Nat} (waiting : Waiting s.threads locked)
    (free : Thread.consumer id ∉ locked.notEmpty.waiters)
    (idle : s.threads.consumers.members[id]? = some .idle) {choice : Nat}
    (settled : s.settle (locked.getLocked (.consumer id) choice) = some next) :
    Waiting next.threads next.buffer ∧
      (next.threads = s.threads ∧ next.buffer.buf = locked.buf ∨
        ∃ item, locked.buf = item :: next.buffer.buf ∧
          s.threads.getReturns id item = some next.threads) := by
  unfold RawBoundedBuffer.getLocked at settled
  split at settled
  -- `while not self._buf`: the consumer waits and stays idle
  · cases settled
    refine ⟨⟨waiting.putting, ?_, waiting.puttersOnce, ?_⟩, .inl ⟨rfl, rfl⟩⟩
    · intro thread member
      obtain rfl | before := List.mem_cons.mp ((Condition.wait_waiters _ _).mem_iff.mp member)
      · exact ⟨id, rfl, idle⟩
      · exact waiting.getting thread before
    · refine (Condition.wait_waiters _ _).nodup_iff.mpr ?_
      exact List.nodup_cons.mpr ⟨free, waiting.gettersOnce⟩
  · rename_i item rest occupied
    obtain ⟨threads, took, rfl⟩ := Option.map_eq_some_iff.mp settled
    -- only this consumer has changed, and it waits no more
    have onward : Waiting threads locked := by
      obtain ⟨consumers, tookIn, rfl⟩ := Option.map_eq_some_iff.mp took
      obtain ⟨-, rfl⟩ := Crew.take_eq_some.mp tookIn
      apply waiting.threads
      · intro thread otherItem _ wasPending
        rw [← wasPending]
        exact pending_congr rfl (fun _ _ => rfl) (fun _ => rfl) (by simp)
      · intro other member wasIdle
        have different : id ≠ other := fun same => free (same ▸ member)
        show (s.threads.consumers.members.set id _)[other]? = _
        rw [List.getElem?_set_ne different, wasIdle]
    refine ⟨onward.buffer (Condition.notify_waiters _ _) (.refl _), .inr ⟨item, ?_, took⟩⟩
    exact occupied

/-- A consumer that consumes or loops was not waiting. -/
theorem Waiting.consumer {next : Threads} (id : Nat) {member : Member Item}
    (waiting : Waiting t b)
    (busy : ∀ member, t.consumers.members[id]? = some member → member ≠ .idle)
    (perProducer : next.perProducer = t.perProducer) (producers : next.producers = t.producers)
    (main : next.main = t.main)
    (members : next.consumers.members = t.consumers.members.set id member) : Waiting next b := by
  apply waiting.threads
  · intro thread otherItem _ wasPending
    rw [← wasPending]
    exact pending_congr perProducer (fun pid _ => by rw [producers]) (fun _ => main)
      (by simp [members])
  · intro other _ wasIdle
    have different : id ≠ other := by
      rintro rfl
      exact busy _ wasIdle rfl
    rw [members, List.getElem?_set_ne different, wasIdle]

theorem Waiting.consume {next : Threads} {id : Nat} (waiting : Waiting t b)
    (consumed : t.consume id = some next) : Waiting next b := by
  obtain ⟨⟨item, consumers⟩, handled, rfl⟩ := Option.map_eq_some_iff.mp consumed
  obtain ⟨holding, rfl⟩ := Crew.handle_eq_some.mp handled
  refine Waiting.consumer id waiting ?_ rfl rfl rfl rfl
  intro member found
  rw [holding] at found
  cases found
  simp

theorem Waiting.loop {next : Threads} {id : Nat} (waiting : Waiting t b)
    (looped : t.loop id = some next) : Waiting next b := by
  obtain ⟨consumers, finished, rfl⟩ := Option.map_eq_some_iff.mp looped
  obtain ⟨item, finishing, rfl⟩ := Crew.finish_eq_some.mp finished
  refine Waiting.consumer id waiting ?_ rfl rfl rfl rfl
  intro member found
  rw [finishing] at found
  cases found
  simp

/-- The main thread advances only when it is not at a `put`. -/
theorem Waiting.advance {next : Threads} (waiting : Waiting t b)
    (advanced : t.advance = some next) : Waiting next b := by
  obtain ⟨consumers, producers, perProducer⟩ := advance_keeps advanced
  -- in each branch of `advance` the main thread has no `put` to make
  have notPutting : t.pending .main = none := by
    unfold Threads.advance at advanced
    simp only [Threads.pending]
    split at advanced
    · rename_i main
      simp [main]
    · rename_i main
      split at advanced
      · cases advanced
      · rename_i all
        simp [main, all]
    · rename_i main
      simp [main]
    · cases advanced
  apply waiting.threads
  · intro thread otherItem _ wasPending
    rw [← wasPending]
    refine pending_congr perProducer (fun pid _ => by rw [producers]) ?_ (by rw [consumers])
    rintro rfl
    rw [notPutting] at wasPending
    cases wasPending
  · intro other _ wasIdle
    rw [consumers, wasIdle]

end Steps

/-! ## The run -/

namespace RawRun

structure Invariant (numProducers numConsumers perProducer : Nat) (s : RawRun) : Prop where
  conserves : Conserves numProducers numConsumers perProducer s.threads s.buffer.buf
  waiting : Waiting s.threads s.buffer
  wakeups : s.buffer.NoLostWakeup 16
  bounded : s.buffer.buf.length ≤ 16

theorem invariant_start (numProducers numConsumers perProducer : Nat) :
    Invariant numProducers numConsumers perProducer
      (start numProducers numConsumers perProducer) := by
  refine ⟨conserves_start _ _ _, ?_, RawBoundedBuffer.noLostWakeup_init _, Nat.zero_le _⟩
  exact ⟨by simp [start, RawBoundedBuffer.init, Condition.quiet, Condition.waiters],
    by simp [start, RawBoundedBuffer.init, Condition.quiet, Condition.waiters], .nil, .nil⟩

section Steps

variable {numProducers numConsumers perProducer : Nat} {s next : RawRun}

theorem invariant_put {locked : RawBoundedBuffer Thread Item} {thread : Thread} {item : Item}
    {choice : Nat} (invariant : Invariant numProducers numConsumers perProducer s)
    (enters : s.buffer.PutEnters thread item locked)
    (pending : s.threads.pending thread = some item)
    (settled : s.settle (locked.putLocked thread item choice) = some next)
    (wakeups : next.buffer.NoLostWakeup 16) :
    Invariant numProducers numConsumers perProducer next := by
  obtain ⟨waiting, free, sameBuf⟩ := putEnters_waiting invariant.waiting enters
  -- either the thread sleeps and nothing has moved, or the item is in the buffer
  obtain ⟨onward, ⟨threads, buf⟩ | ⟨threads, buf, room⟩⟩ := put_settles waiting free pending settled
  · refine ⟨?_, onward, wakeups, ?_⟩
    · rw [threads, buf, sameBuf]
      exact invariant.conserves
    · rw [buf, sameBuf]
      exact invariant.bounded
  · refine ⟨?_, onward, wakeups, ?_⟩
    · rw [threads, buf, sameBuf]
      exact conserves_put invariant.conserves pending
    -- acquiring the lock leaves the capacity alone, so there was room below 16
    · have capacity : locked.capacity = 16 := by
        rw [← invariant.wakeups.sameCapacity]
        obtain ⟨-, rfl⟩ | ⟨position, notFull, -, rfl⟩ := enters
        · rfl
        · rfl
      rw [buf, List.length_append, List.length_singleton]
      omega

theorem invariant_get {locked : RawBoundedBuffer Thread Item} {id choice : Nat}
    (invariant : Invariant numProducers numConsumers perProducer s)
    (enters : s.buffer.GetEnters (.consumer id) locked)
    (idle : s.threads.consumers.members[id]? = some .idle)
    (settled : s.settle (locked.getLocked (.consumer id) choice) = some next)
    (wakeups : next.buffer.NoLostWakeup 16) :
    Invariant numProducers numConsumers perProducer next := by
  obtain ⟨waiting, free, sameBuf⟩ := getEnters_waiting invariant.waiting enters
  obtain ⟨onward, ⟨threads, buf⟩ | ⟨item, buf, got⟩⟩ := get_settles waiting free idle settled
  · refine ⟨?_, onward, wakeups, ?_⟩
    · rw [threads, buf, sameBuf]
      exact invariant.conserves
    · rw [buf, sameBuf]
      exact invariant.bounded
  · rw [sameBuf] at buf
    -- the head of the buffer has become the item of the consumer
    have conserves := invariant.conserves
    have bounded := invariant.bounded
    rw [buf] at conserves bounded
    refine ⟨conserves_getReturns conserves got, onward, wakeups, ?_⟩
    rw [List.length_cons] at bounded
    omega

/-- A step of the buffer, whoever takes it, leaves the buffer of the next state. -/
theorem settle_buffer {outcome : Outcome Thread Item} {buffer : RawBoundedBuffer Thread Item}
    (settled : s.settle (outcome, buffer) = some next) : next.buffer = buffer := by
  cases outcome with
  | waits =>
    cases settled
    rfl
  | put thread item =>
    cases settled
    rfl
  | got thread item =>
    cases thread with
    | producer pid => cases settled
    | consumer id =>
      obtain ⟨threads, -, rfl⟩ := Option.map_eq_some_iff.mp settled
      rfl
    | main => cases settled

theorem wakeups_settle {event : BufferEvent Thread Item}
    (invariant : Invariant numProducers numConsumers perProducer s)
    {result : Outcome Thread Item × RawBoundedBuffer Thread Item}
    (stepped : s.buffer.step event = some result) (settled : s.settle result = some next) :
    next.buffer.NoLostWakeup 16 := by
  obtain ⟨outcome, buffer⟩ := result
  rw [settle_buffer settled]
  exact RawBoundedBuffer.noLostWakeup_step invariant.wakeups stepped

theorem invariant_step {move : RawMove}
    (invariant : Invariant numProducers numConsumers perProducer s)
    (stepped : s.step move = some next) :
    Invariant numProducers numConsumers perProducer next := by
  cases move with
  | put thread choice =>
    simp only [step] at stepped
    split at stepped
    · rename_i item pending
      obtain ⟨result, called, settled⟩ := Option.bind_eq_some_iff.mp stepped
      have wakeups := wakeups_settle invariant called settled
      simp only [RawBoundedBuffer.step] at called
      split at called
      · cases called
      · rename_i free
        cases called
        exact invariant_put invariant (.inl ⟨free, rfl⟩) pending settled wakeups
    · cases stepped
  | get id choice =>
    simp only [step] at stepped
    split at stepped
    · rename_i idle
      obtain ⟨result, called, settled⟩ := Option.bind_eq_some_iff.mp stepped
      have wakeups := wakeups_settle invariant called settled
      simp only [RawBoundedBuffer.step] at called
      split at called
      · cases called
      · rename_i free
        cases called
        exact invariant_get invariant (.inl ⟨free, rfl⟩) idle settled wakeups
    · cases stepped
  | resumePut position choice =>
    -- the thread is one of the waiters, so its `put` is still to come
    obtain ⟨result, called, settled⟩ := Option.bind_eq_some_iff.mp stepped
    have wakeups := wakeups_settle invariant called settled
    obtain ⟨⟨⟨thread, item⟩, notFull⟩, resumed, rfl⟩ := Option.map_eq_some_iff.mp called
    have waiters := Condition.resume_waiters resumed
    have pending := invariant.waiting.putting _ (waiters.mem_iff.mpr List.mem_cons_self)
    exact invariant_put invariant (.inr ⟨position, notFull, resumed, rfl⟩) pending settled wakeups
  | resumeGet position choice =>
    -- the thread is one of the waiters, so it is an idle consumer
    obtain ⟨result, called, settled⟩ := Option.bind_eq_some_iff.mp stepped
    have wakeups := wakeups_settle invariant called settled
    obtain ⟨⟨thread, notEmpty⟩, resumed, rfl⟩ := Option.map_eq_some_iff.mp called
    have waiters := Condition.resume_waiters resumed
    obtain ⟨id, rfl, idle⟩ :=
      invariant.waiting.getting _ (waiters.mem_iff.mpr List.mem_cons_self)
    exact invariant_get invariant (.inr ⟨position, notEmpty, resumed, rfl⟩) idle settled wakeups
  | spuriousPut position =>
    obtain ⟨result, called, settled⟩ := Option.bind_eq_some_iff.mp stepped
    have wakeups := wakeups_settle invariant called settled
    obtain ⟨notFull, woke, rfl⟩ := Option.map_eq_some_iff.mp called
    -- a waiter changes queues and no thread moves
    cases settled
    have waiting : Waiting s.threads { s.buffer with notFull := notFull } :=
      invariant.waiting.buffer (Condition.wake_waiters woke) (.refl _)
    exact ⟨invariant.conserves, waiting, wakeups, invariant.bounded⟩
  | spuriousGet position =>
    obtain ⟨result, called, settled⟩ := Option.bind_eq_some_iff.mp stepped
    have wakeups := wakeups_settle invariant called settled
    obtain ⟨notEmpty, woke, rfl⟩ := Option.map_eq_some_iff.mp called
    cases settled
    have waiting : Waiting s.threads { s.buffer with notEmpty := notEmpty } :=
      invariant.waiting.buffer (.refl _) (Condition.wake_waiters woke)
    exact ⟨invariant.conserves, waiting, wakeups, invariant.bounded⟩
  | consume id =>
    obtain ⟨threads, consumed, rfl⟩ := Option.map_eq_some_iff.mp stepped
    exact { invariant with
      conserves := conserves_consume invariant.conserves consumed
      waiting := invariant.waiting.consume consumed }
  | loop id =>
    obtain ⟨threads, looped, rfl⟩ := Option.map_eq_some_iff.mp stepped
    exact { invariant with
      conserves := conserves_loop invariant.conserves looped
      waiting := invariant.waiting.loop looped }
  | advance =>
    obtain ⟨threads, advanced, rfl⟩ := Option.map_eq_some_iff.mp stepped
    exact { invariant with
      conserves := conserves_advance invariant.conserves advanced
      waiting := invariant.waiting.advance advanced }

/-- Nothing but spurious wakeups can happen. -/
def Stuck (s : RawRun) : Prop := ∀ move : RawMove, move.isSpurious = false → s.step move = none

/-- What a consumer's section leads to can always be gone on with. -/
theorem settle_get {b : RawBoundedBuffer Thread Item} {id : Nat}
    (idle : s.threads.consumers.members[id]? = some .idle) (choice : Nat) :
    s.settle (b.getLocked (.consumer id) choice) ≠ none := by
  unfold RawBoundedBuffer.getLocked
  split
  · simp [settle]
  · rename_i item rest _
    obtain ⟨threads, got⟩ := getReturns_of_idle idle item
    simp [settle, got]

theorem settle_put (s : RawRun) (b : RawBoundedBuffer Thread Item) (thread : Thread) (item : Item)
    (choice : Nat) : s.settle (b.putLocked thread item choice) ≠ none := by
  unfold RawBoundedBuffer.putLocked
  split <;> simp [settle]

theorem no_woken (invariant : Invariant numProducers numConsumers perProducer s)
    (stuck : s.Stuck) : s.buffer.notFull.woken = [] ∧ s.buffer.notEmpty.woken = [] := by
  constructor
  · by_contra woken
    -- a woken producer could take the lock
    obtain ⟨⟨thread, item⟩, notFull, resumed⟩ := Condition.resume_isSome woken
    have blocked := stuck (.resumePut 0 0) rfl
    simp only [step, RawBoundedBuffer.step, resumed, Option.map_some, Option.bind_some] at blocked
    exact settle_put _ _ _ _ _ blocked
  · by_contra woken
    -- and so could a woken consumer
    obtain ⟨thread, notEmpty, resumed⟩ := Condition.resume_isSome woken
    have waiters := Condition.resume_waiters resumed
    obtain ⟨id, rfl, idle⟩ :=
      invariant.waiting.getting _ (waiters.mem_iff.mpr List.mem_cons_self)
    have blocked := stuck (.resumeGet 0 0) rfl
    simp only [step, RawBoundedBuffer.step, resumed, Option.map_some, Option.bind_some] at blocked
    exact settle_get idle _ blocked

/-- A consumer at its `get` sleeps, so the buffer is empty, and then no producer sleeps. -/
theorem quiet_of_idle (invariant : Invariant numProducers numConsumers perProducer s)
    (stuck : s.Stuck) {id : Nat} (idle : s.threads.consumers.members[id]? = some .idle) :
    s.buffer.buf = [] ∧ s.buffer.notFull.waiters = [] := by
  obtain ⟨noPut, noGet⟩ := no_woken invariant stuck
  have inCall : Thread.consumer id ∈ s.buffer.inCall := by
    by_contra free
    have blocked := stuck (.get id 0) rfl
    simp only [step, RawBoundedBuffer.step, if_pos idle, if_neg free, Option.bind_some] at blocked
    exact settle_get idle _ blocked
  have asleep : Thread.consumer id ∈ s.buffer.notEmpty.asleep := by
    obtain putter | getter := List.mem_append.mp inCall
    · obtain ⟨⟨thread, item⟩, member, same⟩ := List.mem_map.mp putter
      have pending := invariant.waiting.putting _ member
      rw [same] at pending
      cases pending
    · simpa [Condition.waiters, noGet] using getter
  -- a sleeper for whom nobody is awake leaves no item uncovered
  have empty : s.buffer.buf = [] := by
    have covered := invariant.wakeups.getters (List.ne_nil_of_mem asleep)
    rw [noGet] at covered
    apply List.length_eq_zero_iff.mp
    simpa using covered
  refine ⟨empty, ?_⟩
  rw [Condition.waiters, noPut, List.append_nil]
  by_contra sleepers
  have covered := invariant.wakeups.putters sleepers
  simp [noPut, empty] at covered

theorem exited_of_stuck (invariant : Invariant numProducers numConsumers perProducer s)
    (stuck : s.Stuck) : s.threads.Exited := by
  apply exited_of_resting
  · intro id
    exact ⟨Option.map_eq_none_iff.mp (stuck (.consume id) rfl),
      Option.map_eq_none_iff.mp (stuck (.loop id) rfl)⟩
  · intro id idle
    obtain ⟨empty, noPutter⟩ := quiet_of_idle invariant stuck idle
    have conserves := invariant.conserves
    rw [empty] at conserves
    -- a thread before a `put` would sleep or call it, and both are excluded
    have noPut (thread : Thread) : s.threads.pending thread = none := by
      cases pending : s.threads.pending thread with
      | none => rfl
      | some item =>
        have free : thread ∉ s.buffer.inCall := by
          intro inCall
          rw [RawBoundedBuffer.inCall, noPutter, List.map_nil, List.nil_append] at inCall
          obtain ⟨other, rfl, -⟩ := invariant.waiting.getting thread inCall
          cases pending
        have blocked := stuck (.put thread 0) rfl
        simp only [step, pending, RawBoundedBuffer.step, if_neg free, Option.bind_some] at blocked
        exact absurd blocked (settle_put _ _ _ _ _)
    have blocked := Option.map_eq_none_iff.mp (stuck .advance rfl)
    exact nobody_waits_of_quiet conserves noPut blocked id idle

end Steps

end RawRun

/-- Both pipelines hand every item off exactly once, in every reachable state of every
    interleaving. -/
theorem exactly_once_hand_off (numProducers numConsumers perProducer : Nat)
    (some : 1 ≤ numConsumers) :
    (∀ moves s, Visited RawRun.step (.start numProducers numConsumers perProducer) moves s →
      HandsOff numProducers numConsumers perProducer s.threads s.buffer.buf s.Stuck) ∧
    ∀ moves s, Visited StdlibRun.step (.start numProducers numConsumers perProducer) moves s →
      HandsOff numProducers numConsumers perProducer s.threads s.q.items s.Stuck := by
  constructor
  · intro moves s visited
    have invariant : s.Invariant numProducers numConsumers perProducer := by
      apply run_invariant (RawRun.invariant_start numProducers numConsumers perProducer) ?_ moves s
        visited
      intro state move next stepped before
      exact RawRun.invariant_step before stepped
    exact invariant.conserves.handsOff some invariant.bounded (RawRun.exited_of_stuck invariant)
  · intro moves s visited
    have invariant : s.Invariant numProducers numConsumers perProducer := by
      apply run_invariant (StdlibRun.invariant_start numProducers numConsumers perProducer) ?_ moves
        s visited
      intro state move next stepped before
      exact StdlibRun.invariant_step before stepped
    -- `queue.Queue(16)` holds at most 16 items.
    have bounded : s.q.items.length ≤ 16 := by
      have within := invariant.within
      rw [FifoQueue.WithinBound, invariant.maxsize] at within
      have least := within (by decide)
      omega
    exact invariant.conserves.handsOff some bounded (StdlibRun.exited_of_stuck invariant)

/-- One producer, one consumer and one number: the consumer sleeps until the put. -/
def oneNumber : List RawMove :=
  [.get 0 0, .put (.producer 0) 0, .resumeGet 0 0, .consume 0, .loop 0, .advance, .advance,
    .put .main 0, .get 0 0, .consume 0, .loop 0]

def oneNumberDone : RawRun :=
  { threads :=
      { perProducer := 1, producers := [1], main := .stopping 1,
        consumers :=
          { members := [.gone .done], taken := [(0, .number 0), (0, .done)],
            handled := [.number 0, .done] },
        consumed := [0], entered := [.number 0, .done] },
    buffer := .init 16 }

theorem oneNumber_handed_off :
    HandsOff 1 1 1 oneNumberDone.threads [] oneNumberDone.Stuck ∧ oneNumberDone.threads.Exited :=
  ⟨(exactly_once_hand_off 1 1 1 (by decide)).1 oneNumber oneNumberDone (visited_finish rfl),
    fun _ inCrew => ⟨.done, List.mem_singleton.mp inCrew⟩⟩

end Excalibur.ProducerConsumer
