import Excalibur.Library.Condition
import Excalibur.Library.Run

/-! # The bounded buffer on two conditions

Both conditions share one lock and the buffer is only touched while it is held, so
a step is what one thread does from acquiring the lock to releasing it, by
returning or by going to sleep in `wait`.  A woken thread has to acquire the lock
again and then tests its loop condition again; other calls may come before it.
-/

namespace Excalibur.ProducerConsumer

open Excalibur.Library

/-- A waiter on `_not_full` is a thread with the item it is putting. -/
structure RawBoundedBuffer (ι α : Type) where
  capacity : Int
  buf : List α
  notFull : Condition (ι × α)
  notEmpty : Condition ι
  deriving Repr

/-- What a step does: the thread goes to sleep or is only woken, its `put` returns,
    or its `get` returns an item. -/
inductive Outcome (ι α : Type) where
  | waits
  | put (thread : ι) (item : α)
  | got (thread : ι) (item : α)
  deriving Repr, DecidableEq

/-- A call, a woken thread running again, or a spurious wakeup.  `choice` says which
    waiter the `notify` of the step wakes. -/
inductive BufferEvent (ι α : Type) where
  | put (thread : ι) (item : α) (choice : Nat)
  | get (thread : ι) (choice : Nat)
  | resumePut (position choice : Nat)
  | resumeGet (position choice : Nat)
  | spuriousPut (position : Nat)
  | spuriousGet (position : Nat)
  deriving Repr, DecidableEq

namespace RawBoundedBuffer

variable {ι α : Type}

def init (capacity : Int) : RawBoundedBuffer ι α :=
  { capacity := capacity, buf := [], notFull := .quiet, notEmpty := .quiet }

/-- `put` from the test of its loop on. -/
def putLocked (b : RawBoundedBuffer ι α) (thread : ι) (item : α) (choice : Nat) :
    Outcome ι α × RawBoundedBuffer ι α :=
  if (b.buf.length : Int) ≥ b.capacity then
    (.waits, { b with notFull := b.notFull.wait (thread, item) })
  else
    (.put thread item,
      { b with buf := b.buf ++ [item], notEmpty := b.notEmpty.notify choice })

/-- `get` from the test of its loop on. -/
def getLocked (b : RawBoundedBuffer ι α) (thread : ι) (choice : Nat) :
    Outcome ι α × RawBoundedBuffer ι α :=
  match b.buf with
  | [] => (.waits, { b with notEmpty := b.notEmpty.wait thread })
  | item :: rest =>
    (.got thread item, { b with buf := rest, notFull := b.notFull.notify choice })

/-- The threads inside a call, asleep or woken. -/
def inCall (b : RawBoundedBuffer ι α) : List ι :=
  b.notFull.waiters.map Prod.fst ++ b.notEmpty.waiters

/-- `thread` holds the lock in `locked`, about to test the loop of `put`: by calling it
    or as a woken waiter. -/
def PutEnters (b : RawBoundedBuffer ι α) (thread : ι) (item : α)
    (locked : RawBoundedBuffer ι α) : Prop :=
  thread ∉ b.inCall ∧ locked = b ∨
    ∃ position notFull, b.notFull.resume position = some ((thread, item), notFull) ∧
      locked = { b with notFull := notFull }

def GetEnters (b : RawBoundedBuffer ι α) (thread : ι) (locked : RawBoundedBuffer ι α) : Prop :=
  thread ∉ b.inCall ∧ locked = b ∨
    ∃ position notEmpty, b.notEmpty.resume position = some (thread, notEmpty) ∧
      locked = { b with notEmpty := notEmpty }

/-! ## No lost wakeup -/

/-- Sleeping consumers are covered for the items, sleeping producers for the free
    slots. -/
structure NoLostWakeup (capacity : Int) (b : RawBoundedBuffer ι α) : Prop where
  sameCapacity : b.capacity = capacity
  getters : b.notEmpty.Covers b.buf.length
  putters : b.notFull.Covers (capacity - b.buf.length)

theorem noLostWakeup_init (capacity : Int) :
    (init capacity : RawBoundedBuffer ι α).NoLostWakeup capacity :=
  ⟨rfl, Condition.covers_quiet _, Condition.covers_quiet _⟩

theorem noLostWakeup_put {capacity : Int} {b locked next : RawBoundedBuffer ι α} {thread : ι}
    {item : α} {choice : Nat} {outcome : Outcome ι α} (covered : b.NoLostWakeup capacity)
    (enters : b.PutEnters thread item locked)
    (put : locked.putLocked thread item choice = (outcome, next)) : next.NoLostWakeup capacity := by
  obtain ⟨sameCapacity, sameBuf, sameNotEmpty, lessOne⟩ : locked.capacity = b.capacity ∧
      locked.buf = b.buf ∧ locked.notEmpty = b.notEmpty ∧
        locked.notFull.Covers (capacity - b.buf.length - 1) := by
    obtain ⟨-, rfl⟩ | ⟨position, notFull, resumed, rfl⟩ := enters
    · exact ⟨rfl, rfl, rfl, covered.putters.mono (by omega)⟩
    · exact ⟨rfl, rfl, rfl, covered.putters.resume resumed⟩
  rw [covered.sameCapacity] at sameCapacity
  unfold putLocked at put
  split at put
  · rename_i full
    -- the producer goes to sleep, and a full buffer needs no producer awake
    cases put
    refine ⟨sameCapacity, ?_, ?_⟩
    · simpa only [sameBuf, sameNotEmpty] using covered.getters
    · apply Condition.covers_wait
      show capacity - (locked.buf.length : Int) ≤ 0
      rw [sameCapacity] at full
      omega
  -- the notified consumer answers for the new item
  · cases put
    refine ⟨sameCapacity, ?_, ?_⟩
    · simpa [sameBuf, sameNotEmpty] using covered.getters.notify choice
    · apply lessOne.mono
      simp only [sameBuf, List.length_append, List.length_singleton, Nat.cast_add, Nat.cast_one]
      omega

theorem noLostWakeup_get {capacity : Int} {b locked next : RawBoundedBuffer ι α} {thread : ι}
    {choice : Nat} {outcome : Outcome ι α} (covered : b.NoLostWakeup capacity)
    (enters : b.GetEnters thread locked)
    (got : locked.getLocked thread choice = (outcome, next)) : next.NoLostWakeup capacity := by
  obtain ⟨sameCapacity, sameBuf, sameNotFull, lessOne⟩ : locked.capacity = b.capacity ∧
      locked.buf = b.buf ∧ locked.notFull = b.notFull ∧
        locked.notEmpty.Covers (b.buf.length - 1) := by
    obtain ⟨-, rfl⟩ | ⟨position, notEmpty, resumed, rfl⟩ := enters
    · exact ⟨rfl, rfl, rfl, covered.getters.mono (by omega)⟩
    · exact ⟨rfl, rfl, rfl, covered.getters.resume resumed⟩
  rw [covered.sameCapacity] at sameCapacity
  unfold getLocked at got
  split at got
  · rename_i empty
    -- the consumer goes to sleep over an empty buffer
    cases got
    refine ⟨sameCapacity, ?_, ?_⟩
    · apply Condition.covers_wait
      simp [empty]
    · simpa only [sameBuf, sameNotFull] using covered.putters
  · rename_i item rest occupied
    -- the notified producer answers for the slot that is free now
    cases got
    rw [← sameBuf, occupied] at lessOne
    refine ⟨sameCapacity, ?_, ?_⟩
    · apply lessOne.mono
      simp
    · have paid := covered.putters.notify choice
      rw [← sameBuf, ← sameNotFull, occupied] at paid
      apply paid.mono
      simp only [List.length_cons, Nat.cast_add, Nat.cast_one]
      omega

/-! ## Steps -/

variable [DecidableEq ι]

/-- A thread makes one call at a time. -/
def step (b : RawBoundedBuffer ι α) :
    BufferEvent ι α → Option (Outcome ι α × RawBoundedBuffer ι α)
  | .put thread item choice =>
    if thread ∈ b.inCall then none else some (b.putLocked thread item choice)
  | .get thread choice =>
    if thread ∈ b.inCall then none else some (b.getLocked thread choice)
  | .resumePut position choice =>
    (b.notFull.resume position).map fun (waiter, notFull) =>
      { b with notFull := notFull }.putLocked waiter.1 waiter.2 choice
  | .resumeGet position choice =>
    (b.notEmpty.resume position).map fun (waiter, notEmpty) =>
      { b with notEmpty := notEmpty }.getLocked waiter choice
  | .spuriousPut position =>
    (b.notFull.wake position).map fun notFull => (.waits, { b with notFull := notFull })
  | .spuriousGet position =>
    (b.notEmpty.wake position).map fun notEmpty => (.waits, { b with notEmpty := notEmpty })

theorem step_cases {b next : RawBoundedBuffer ι α} {event : BufferEvent ι α}
    {outcome : Outcome ι α} (stepped : b.step event = some (outcome, next)) :
    (∃ thread item choice locked, b.PutEnters thread item locked ∧
      locked.putLocked thread item choice = (outcome, next)) ∨
    (∃ thread choice locked, b.GetEnters thread locked ∧
      locked.getLocked thread choice = (outcome, next)) ∨
    (∃ position notFull, b.notFull.wake position = some notFull ∧ outcome = .waits ∧
      next = { b with notFull := notFull }) ∨
    ∃ position notEmpty, b.notEmpty.wake position = some notEmpty ∧ outcome = .waits ∧
      next = { b with notEmpty := notEmpty } := by
  cases event with
  | put thread item choice =>
    left
    simp only [step] at stepped
    split at stepped
    · cases stepped
    · rename_i free
      exact ⟨thread, item, choice, b, .inl ⟨free, rfl⟩, Option.some.inj stepped⟩
  | get thread choice =>
    right; left
    simp only [step] at stepped
    split at stepped
    · cases stepped
    · rename_i free
      exact ⟨thread, choice, b, .inl ⟨free, rfl⟩, Option.some.inj stepped⟩
  | resumePut position choice =>
    left
    obtain ⟨⟨⟨thread, item⟩, notFull⟩, resumed, locked⟩ := Option.map_eq_some_iff.mp stepped
    exact ⟨thread, item, choice, _, .inr ⟨position, notFull, resumed, rfl⟩, locked⟩
  | resumeGet position choice =>
    right; left
    obtain ⟨⟨thread, notEmpty⟩, resumed, locked⟩ := Option.map_eq_some_iff.mp stepped
    exact ⟨thread, choice, _, .inr ⟨position, notEmpty, resumed, rfl⟩, locked⟩
  | spuriousPut position =>
    -- a spurious wakeup: nobody notified, and the thread has not run yet
    right; right; left
    obtain ⟨notFull, woke, same⟩ := Option.map_eq_some_iff.mp stepped
    cases same
    exact ⟨position, notFull, woke, rfl, rfl⟩
  | spuriousGet position =>
    right; right; right
    obtain ⟨notEmpty, woke, same⟩ := Option.map_eq_some_iff.mp stepped
    cases same
    exact ⟨position, notEmpty, woke, rfl, rfl⟩

theorem noLostWakeup_step {capacity : Int} {b next : RawBoundedBuffer ι α}
    {event : BufferEvent ι α} {outcome : Outcome ι α} (covered : b.NoLostWakeup capacity)
    (stepped : b.step event = some (outcome, next)) : next.NoLostWakeup capacity := by
  obtain ⟨thread, item, choice, locked, enters, put⟩ | ⟨thread, choice, locked, enters, got⟩ |
    ⟨position, notFull, woke, -, rfl⟩ | ⟨position, notEmpty, woke, -, rfl⟩ := step_cases stepped
  · exact noLostWakeup_put covered enters put
  · exact noLostWakeup_get covered enters got
  · exact ⟨covered.sameCapacity, covered.getters, (covered.putters.wake woke).mono (by simp)⟩
  · exact ⟨covered.sameCapacity, (covered.getters.wake woke).mono (by simp), covered.putters⟩

/-- A woken thread can acquire the lock and run. -/
def Runnable (b : RawBoundedBuffer ι α) : Prop :=
  ∃ position choice, (b.step (.resumePut position choice)).isSome ∨
    (b.step (.resumeGet position choice)).isSome

theorem runnable_of_wokenPut {b : RawBoundedBuffer ι α} (woken : b.notFull.woken ≠ []) :
    b.Runnable := by
  obtain ⟨waiter, notFull, resumed⟩ := Condition.resume_isSome woken
  exact ⟨0, 0, .inl (by simp [step, resumed])⟩

theorem runnable_of_wokenGet {b : RawBoundedBuffer ι α} (woken : b.notEmpty.woken ≠ []) :
    b.Runnable := by
  obtain ⟨waiter, notEmpty, resumed⟩ := Condition.resume_isSome woken
  exact ⟨0, 0, .inr (by simp [step, resumed])⟩

theorem NoLostWakeup.runnable_of_item {capacity : Int} {b : RawBoundedBuffer ι α}
    (covered : b.NoLostWakeup capacity) (sleeper : b.notEmpty.asleep ≠ []) (item : b.buf ≠ []) :
    b.Runnable := by
  apply runnable_of_wokenGet
  have bound := covered.getters sleeper
  have some := List.length_pos_iff.mpr item
  apply List.ne_nil_of_length_pos
  omega

theorem NoLostWakeup.runnable_of_slot {capacity : Int} {b : RawBoundedBuffer ι α}
    (covered : b.NoLostWakeup capacity) (sleeper : b.notFull.asleep ≠ [])
    (slot : (b.buf.length : Int) < capacity) : b.Runnable := by
  apply runnable_of_wokenPut
  have bound := covered.putters sleeper
  apply List.ne_nil_of_length_pos
  omega

def next (b : RawBoundedBuffer ι α) (event : BufferEvent ι α) : Option (RawBoundedBuffer ι α) :=
  (b.step event).map Prod.snd

/-- In every reachable state of a buffer of any capacity, and so of every capacity
    from one on: sleeping consumers are covered by woken ones for the items, sleeping
    producers for the free slots, and nobody sleeps on what it could take while no
    thread is runnable. -/
theorem no_lost_wakeup (capacity : Int) (events : List (BufferEvent ι α)) :
    ∀ b, Visited next (init capacity) events b →
      (b.notEmpty.asleep ≠ [] → b.buf.length ≤ b.notEmpty.woken.length) ∧
      (b.notFull.asleep ≠ [] → capacity - b.buf.length ≤ b.notFull.woken.length) ∧
      (b.notEmpty.asleep ≠ [] → b.buf ≠ [] → b.Runnable) ∧
      (b.notFull.asleep ≠ [] → b.buf.length < capacity → b.Runnable) := by
  have covered : ∀ b, Visited next (init capacity) events b → b.NoLostWakeup capacity := by
    apply run_invariant (noLostWakeup_init capacity)
    intro b event after stepped before
    obtain ⟨⟨outcome, _⟩, taken, rfl⟩ := Option.map_eq_some_iff.mp stepped
    exact noLostWakeup_step before taken
  intro b visited
  have here := covered b visited
  refine ⟨?_, here.putters, here.runnable_of_item, here.runnable_of_slot⟩
  intro sleeper
  exact Int.ofNat_le.mp (here.getters sleeper)

/-- Two consumers find the buffer empty, then one item comes. -/
def twoGetsOnePut : List (BufferEvent Nat Nat) := [.get 0 0, .get 1 0, .put 2 7 0]

def oneStillAsleep : RawBoundedBuffer Nat Nat :=
  { capacity := 1, buf := [7], notFull := .quiet, notEmpty := { asleep := [1], woken := [0] } }

theorem oneStillAsleep_runnable : oneStillAsleep.Runnable :=
  (no_lost_wakeup 1 twoGetsOnePut oneStillAsleep (visited_finish rfl)).2.2.1 (by decide) (by decide)

end RawBoundedBuffer

end Excalibur.ProducerConsumer
