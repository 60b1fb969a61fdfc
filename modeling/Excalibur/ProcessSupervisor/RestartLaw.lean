import Excalibur.Python.Basic

/-! # Restarts with exponential backoff

`Supervisor.run` spawns a child, waits for it, and spawns the next one after a backoff,
until a child ends with code 0 or the limit is reached.  The exit codes are those of the
children in the order of their spawns; a child is known by its number.

`progressed` is the invariant of the loop: after `k` restarts the supervisor has recorded
the first `k` codes and backoffs.  The only other way out is `time.sleep`, which takes no
negative time and none that the platform cannot represent.
-/

namespace Excalibur.ProcessSupervisor

open Excalibur.Python

/-! ## The supervisor -/

structure Supervisor where
  maxRestarts : Int
  baseBackoff : ℚ
  backoffFactor : ℚ
  restarts : Nat
  exitCodes : List Int
  backoffs : List ℚ
  deriving Repr, DecidableEq

def Supervisor.init (maxRestarts : Int) (baseBackoff backoffFactor : ℚ) : Supervisor where
  maxRestarts := maxRestarts
  baseBackoff := baseBackoff
  backoffFactor := backoffFactor
  restarts := 0
  exitCodes := []
  backoffs := []

/-- `time.sleep(secs)` where `longest` is the longest time of the platform. -/
def sleep (longest secs : ℚ) : Except PyError Unit :=
  if longest < |secs| then .error .overflowError
  else if secs < 0 then .error .valueError
  else .ok ()

/-- What follows the exit of a child. -/
inductive Turn where
  | respawn (s : Supervisor)
  | returned (s : Supervisor)
  | raised (error : PyError) (s : Supervisor)

/-- One round of the loop in `run`, from the exit code of the child to the next spawn. -/
def turn (longest : ℚ) (s : Supervisor) (code : Int) : Turn :=
  let s := { s with exitCodes := s.exitCodes ++ [code] }
  if code = 0 then .returned s
  else if s.maxRestarts ≤ s.restarts then .returned s
  else
    let backoff := s.baseBackoff * s.backoffFactor ^ s.restarts
    let s := { s with backoffs := s.backoffs ++ [backoff], restarts := s.restarts + 1 }
    match sleep longest backoff with
    | .ok () => .respawn s
    | .error error => .raised error s

/-- A run that has ended: the spawns it made, and the supervisor as it is left. -/
structure Ended where
  spawns : Nat
  outcome : Except PyError Unit
  supervisor : Supervisor

/-- The loop, waiting for the child with that number; `none` while it goes on. -/
def loop (longest : ℚ) (codes : Nat → Int) : Nat → Nat → Supervisor → Option Ended
  | 0, _, _ => none
  | turns + 1, child, s =>
    match turn longest s (codes child) with
    | .returned s => some ⟨child + 1, .ok (), s⟩
    | .raised error s => some ⟨child + 1, .error error, s⟩
    | .respawn s => loop longest codes turns (child + 1) s

def run (longest : ℚ) (codes : Nat → Int) (turns : Nat) (s : Supervisor) : Option Ended :=
  loop longest codes turns 0 s

/-! ## The invariant of the loop -/

/-- The smaller of the limit and the number of the first child that ends with 0. -/
structure LastChild (maxRestarts : Nat) (codes : Nat → Int) (k : Nat) : Prop where
  within : k ≤ maxRestarts
  crashed : ∀ i < k, codes i ≠ 0
  ends : k = maxRestarts ∨ codes k = 0

theorem exists_lastChild (maxRestarts : Nat) (codes : Nat → Int) :
    ∃ k, LastChild maxRestarts codes k := by
  have atLimit : ∃ k, k = maxRestarts ∨ codes k = 0 := ⟨maxRestarts, .inl rfl⟩
  refine ⟨Nat.find atLimit, Nat.find_min' atLimit (.inl rfl), ?_, Nat.find_spec atLimit⟩
  intro i before
  exact fun zero => Nat.find_min atLimit before (.inr zero)

section Loop

variable {longest : ℚ} {codes : Nat → Int} {maxRestarts k : Nat} {baseBackoff backoffFactor : ℚ}

/-- The supervisor after `k` restarts and the exits of `exits` children. -/
def progressed (maxRestarts : Int) (baseBackoff backoffFactor : ℚ) (codes : Nat → Int)
    (k exits : Nat) : Supervisor where
  maxRestarts := maxRestarts
  baseBackoff := baseBackoff
  backoffFactor := backoffFactor
  restarts := k
  exitCodes := (List.range exits).map codes
  backoffs := (List.range k).map fun i => baseBackoff * backoffFactor ^ i

def InRange (longest delay : ℚ) : Prop := 0 ≤ delay ∧ delay ≤ longest

theorem sleep_eq_ok {delay : ℚ} : sleep longest delay = .ok () ↔ InRange longest delay := by
  unfold sleep InRange
  split
  · rename_i tooLong
    simp only [reduceCtorEq, false_iff, not_and, not_le]
    intro nonnegative
    rwa [abs_of_nonneg nonnegative] at tooLong
  · rename_i short
    split
    · rename_i negative
      simp [negative]
    · rename_i nonnegative
      rw [not_lt] at short nonnegative
      simp only [true_iff]
      exact ⟨nonnegative, (le_abs_self delay).trans short⟩

theorem map_range_concat {α : Type} (f : Nat → α) (k : Nat) :
    (List.range k).map f ++ [f k] = (List.range (k + 1)).map f := by
  rw [List.range_succ, List.map_append, List.map_singleton]

theorem turn_returned (ends : codes k = 0 ∨ maxRestarts ≤ k) :
    turn longest (progressed maxRestarts baseBackoff backoffFactor codes k k) (codes k) =
      .returned (progressed maxRestarts baseBackoff backoffFactor codes k (k + 1)) := by
  simp only [turn, progressed, map_range_concat]
  by_cases zero : codes k = 0
  · rw [if_pos zero]
  · rw [if_neg zero, if_pos (by exact_mod_cast ends.resolve_left zero)]

theorem turn_crashed (crashed : codes k ≠ 0) (below : k < maxRestarts) :
    turn longest (progressed maxRestarts baseBackoff backoffFactor codes k k) (codes k) =
      match sleep longest (baseBackoff * backoffFactor ^ k) with
      | .ok () => .respawn (progressed maxRestarts baseBackoff backoffFactor codes (k + 1) (k + 1))
      | .error error =>
        .raised error (progressed maxRestarts baseBackoff backoffFactor codes (k + 1) (k + 1)) := by
  have more : ¬ (maxRestarts : Int) ≤ k := by omega
  have backoffs := map_range_concat (fun i => baseBackoff * backoffFactor ^ i) k
  simp only [turn, progressed, map_range_concat, if_neg crashed, if_neg more, backoffs]

/-- As long as children crash below the limit and the backoffs can be slept, the loop goes on. -/
theorem loop_progressed (crashed : ∀ i < k, codes i ≠ 0) (within : k ≤ maxRestarts)
    (slept : ∀ i < k, InRange longest (baseBackoff * backoffFactor ^ i)) (turns : Nat) :
    run longest codes (turns + k) (.init maxRestarts baseBackoff backoffFactor) =
      loop longest codes turns k (progressed maxRestarts baseBackoff backoffFactor codes k k) := by
  induction k generalizing turns with
  | zero => rfl
  | succ k ih =>
    rw [← Nat.succ_add_eq_add_succ, ih (fun i before => crashed i (by omega)) (by omega)
      (fun i before => slept i (by omega))]
    rw [loop, turn_crashed (crashed k (by omega)) (by omega), sleep_eq_ok.mpr (slept k (by omega))]

end Loop

/-! ## The restart law -/

theorem backoffs_increase {baseBackoff backoffFactor : ℚ} (positive : 0 < baseBackoff)
    (grows : 1 < backoffFactor) (k : Nat) :
    ((List.range k).map fun i => baseBackoff * backoffFactor ^ i).Pairwise (· < ·) := by
  rw [List.pairwise_map]
  refine List.pairwise_lt_range.imp fun earlier => ?_
  exact mul_lt_mul_of_pos_left (pow_lt_pow_right₀ grows earlier) positive

end Excalibur.ProcessSupervisor
