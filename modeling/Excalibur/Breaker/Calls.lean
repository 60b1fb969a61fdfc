import Excalibur.Library.Run

/-! # The circuit breaker and its concurrent calls

A call takes the lock twice, for its admission check and when its function has
returned or raised; in between any number of other calls may do so.  An
interleaving is a list of these steps.  The system remembers, beside the breaker,
which calls are running and how often the state had changed when each of them was
admitted; the breaker itself keeps no such record.

Clock readings and the cooldown are elements of an ordered type with a
subtraction.
-/

namespace Excalibur.Breaker

open Excalibur.Library

inductive State where
  | closed
  | opened
  | halfOpen
deriving DecidableEq, Repr

structure CircuitBreaker (T : Type) where
  failThreshold : Int
  cooldown : T
  successThreshold : Int
  state : State
  failures : Int
  successes : Int
  openedAt : T
  rejectedCalls : Nat

/-- A call whose function has not returned yet, and the number of state changes
    before it was admitted. -/
structure Running where
  id : Nat
  admitted : Nat
deriving DecidableEq

/-- The breaker with the calls that are running, the number of its state changes
    and the last clock reading. -/
structure System (T : Type) where
  breaker : CircuitBreaker T
  running : List Running
  changes : Nat
  clock : T

/-- What a call does under the lock; a reading of the clock comes with it where
    the source takes one. -/
inductive Event (T : Type) where
  | arrive (id : Nat) (now : T)
  | succeed (id : Nat)
  | fail (id : Nat) (now : T)

section Breaker

variable {T : Type} [LinearOrder T] [Sub T]

/-- The admission check of `call`: whether the function is to be called. -/
def admission (b : CircuitBreaker T) (now : T) : Bool × CircuitBreaker T :=
  match b.state with
  | .opened =>
    -- The cooldown is over, and this call becomes the probe.
    if b.cooldown ≤ now - b.openedAt then (true, { b with state := .halfOpen, successes := 0 })
    else (false, { b with rejectedCalls := b.rejectedCalls + 1 })
  -- Closed or half open: the source asks nothing more.
  | _ => (true, b)

def onSuccess (b : CircuitBreaker T) : CircuitBreaker T :=
  match b.state with
  | .halfOpen =>
    let b := { b with successes := b.successes + 1 }
    if b.successThreshold ≤ b.successes then { b with state := .closed, failures := 0 } else b
  | _ => { b with failures := 0 }

def onFailure (b : CircuitBreaker T) (now : T) : CircuitBreaker T :=
  match b.state with
  -- A probe that fails opens the breaker again, whatever the failure count.
  | .halfOpen => { b with state := .opened, openedAt := now }
  | _ =>
    let b := { b with failures := b.failures + 1 }
    if b.failThreshold ≤ b.failures then { b with state := .opened, openedAt := now } else b

def newBreaker [Zero T] (failThreshold : Int) (cooldown : T) (successThreshold : Int) :
    CircuitBreaker T where
  failThreshold := failThreshold
  cooldown := cooldown
  successThreshold := successThreshold
  state := .closed
  failures := 0
  successes := 0
  openedAt := 0
  rejectedCalls := 0

end Breaker

namespace System

variable {T : Type} [LinearOrder T] [Sub T]

def changesAfter (s : System T) (b : CircuitBreaker T) : Nat :=
  if b.state = s.breaker.state then s.changes else s.changes + 1

def arrive (s : System T) (id : Nat) (now : T) : System T where
  breaker := (admission s.breaker now).2
  running :=
    if (admission s.breaker now).1 then
      ⟨id, s.changesAfter (admission s.breaker now).2⟩ :: s.running
    else s.running
  changes := s.changesAfter (admission s.breaker now).2
  clock := now

/-- A call has reported its result, which made the breaker `b`. -/
def complete (s : System T) (id : Nat) (b : CircuitBreaker T) (now : T) : System T where
  breaker := b
  running := s.running.filter fun call => call.id ≠ id
  changes := s.changesAfter b
  clock := now

def IsRunning (s : System T) (id : Nat) : Prop := ∃ call ∈ s.running, call.id = id

instance (s : System T) (id : Nat) : Decidable (s.IsRunning id) :=
  inferInstanceAs (Decidable (∃ call ∈ s.running, call.id = id))

/-- The calls that are running and were admitted since the state last changed. -/
def current (s : System T) : List Running :=
  s.running.filter fun call => call.admitted = s.changes

end System

section Steps

variable {T : Type} [LinearOrder T] [Sub T]

/-- One step of an interleaving.  A call arrives once and completes once, and the
    clock does not go back. -/
def step (s : System T) : Event T → Option (System T)
  | .arrive id now =>
    if s.clock ≤ now ∧ ¬ s.IsRunning id then some (s.arrive id now) else none
  | .succeed id =>
    if s.IsRunning id then some (s.complete id (onSuccess s.breaker) s.clock) else none
  | .fail id now =>
    if s.clock ≤ now ∧ s.IsRunning id then some (s.complete id (onFailure s.breaker now) now)
    else none

def start [Zero T] (failThreshold : Int) (cooldown : T) (successThreshold : Int) (now : T) :
    System T where
  breaker := newBreaker failThreshold cooldown successThreshold
  running := []
  changes := 0
  clock := now

/-- What a step can do. -/
theorem step_cases {s next : System T} {event : Event T} (stepped : step s event = some next) :
    (∃ id now, event = .arrive id now ∧ s.clock ≤ now ∧ ¬ s.IsRunning id ∧
      next = s.arrive id now) ∨
    (∃ id, event = .succeed id ∧ s.IsRunning id ∧
      next = s.complete id (onSuccess s.breaker) s.clock) ∨
    (∃ id now, event = .fail id now ∧ s.clock ≤ now ∧ s.IsRunning id ∧
      next = s.complete id (onFailure s.breaker now) now) := by
  cases event with
  | arrive id now =>
    simp only [step, Option.ite_none_right_eq_some, Option.some.injEq] at stepped
    exact .inl ⟨id, now, rfl, stepped.1.1, stepped.1.2, stepped.2.symm⟩
  | succeed id =>
    simp only [step, Option.ite_none_right_eq_some, Option.some.injEq] at stepped
    exact .inr (.inl ⟨id, rfl, stepped.1, stepped.2.symm⟩)
  | fail id now =>
    simp only [step, Option.ite_none_right_eq_some, Option.some.injEq] at stepped
    exact .inr (.inr ⟨id, now, rfl, stepped.1.1, stepped.1.2, stepped.2.symm⟩)

/-- No call was admitted after more state changes than there have been. -/
def AdmittedBefore (s : System T) : Prop := ∀ call ∈ s.running, call.admitted ≤ s.changes

omit [LinearOrder T] [Sub T] in
theorem le_changesAfter (s : System T) (b : CircuitBreaker T) : s.changes ≤ s.changesAfter b := by
  unfold System.changesAfter
  split
  · exact le_refl _
  · exact Nat.le_succ _

theorem admittedBefore_step {s next : System T} {event : Event T}
    (stepped : step s event = some next) (before : AdmittedBefore s) : AdmittedBefore next := by
  obtain ⟨id, now, rfl, -, -, rfl⟩ | ⟨id, rfl, -, rfl⟩ | ⟨id, now, rfl, -, -, rfl⟩ :=
    step_cases stepped
  · intro call member
    -- The arriving call is admitted with the current count, the others keep theirs.
    have later := le_changesAfter s (admission s.breaker now).2
    simp only [System.arrive] at member ⊢
    split at member
    · rcases List.mem_cons.mp member with rfl | old
      · exact le_refl _
      · exact le_trans (before call old) later
    · exact le_trans (before call member) later
  · intro call member
    exact le_trans (before call (List.mem_of_mem_filter member)) (le_changesAfter s _)
  · intro call member
    exact le_trans (before call (List.mem_of_mem_filter member)) (le_changesAfter s _)

end Steps

end Excalibur.Breaker
