import Mathlib

/-! # Condition variables

A condition variable is the list of its sleeping waiters and the list of those
woken that have not run again.  `Covers` is the invariant of a single `notify` for
each unit of a resource: while a waiter sleeps, the units available do not
outnumber the waiters already woken.
-/

namespace Excalibur.Library

structure Condition (ω : Type*) where
  asleep : List ω
  woken : List ω
  deriving Repr, DecidableEq

namespace Condition

variable {ω : Type*}

def quiet : Condition ω := { asleep := [], woken := [] }

def wait (c : Condition ω) (waiter : ω) : Condition ω :=
  { c with asleep := c.asleep ++ [waiter] }

/-- Wake the sleeping waiter at a position. -/
def wake (c : Condition ω) (position : Nat) : Option (Condition ω) :=
  match c.asleep[position]? with
  | some waiter =>
    some { asleep := c.asleep.eraseIdx position, woken := c.woken ++ [waiter] }
  | none => none

/-- Wake one sleeping waiter, if there is any; `choice` says which. -/
def notify (c : Condition ω) (choice : Nat) : Condition ω :=
  (c.wake (choice % c.asleep.length)).getD c

/-- The woken waiter at a position runs again. -/
def resume (c : Condition ω) (position : Nat) : Option (ω × Condition ω) :=
  match c.woken[position]? with
  | some waiter => some (waiter, { c with woken := c.woken.eraseIdx position })
  | none => none

/-- All waiters, asleep or woken. -/
def waiters (c : Condition ω) : List ω := c.asleep ++ c.woken

/-! ## What each operation does -/

theorem wake_eq_some {c next : Condition ω} {position : Nat} :
    c.wake position = some next ↔ ∃ before waiter after,
      c.asleep = before ++ waiter :: after ∧ before.length = position ∧
        next = { asleep := before ++ after, woken := c.woken ++ [waiter] } := by
  unfold wake
  constructor
  · intro woke
    split at woke
    · rename_i waiter found
      obtain ⟨inside, rfl⟩ := List.getElem?_eq_some_iff.mp found
      refine ⟨c.asleep.take position, c.asleep[position], c.asleep.drop (position + 1), ?_, ?_, ?_⟩
      · simp
      · simp [Nat.le_of_lt inside]
      · rw [← List.eraseIdx_eq_take_drop_succ]
        exact (Option.some.inj woke).symm
    · cases woke
  · rintro ⟨before, waiter, after, split, rfl, rfl⟩
    simp [split, List.eraseIdx_append_of_length_le]

theorem resume_eq_some {c next : Condition ω} {position : Nat} {waiter : ω} :
    c.resume position = some (waiter, next) ↔ ∃ before after,
      c.woken = before ++ waiter :: after ∧ before.length = position ∧
        next = { asleep := c.asleep, woken := before ++ after } := by
  unfold resume
  constructor
  · intro resumed
    split at resumed
    · rename_i found
      obtain ⟨inside, rfl⟩ := List.getElem?_eq_some_iff.mp found
      cases resumed
      refine ⟨c.woken.take position, c.woken.drop (position + 1), ?_, ?_, ?_⟩
      · simp
      · simp [Nat.le_of_lt inside]
      · rw [← List.eraseIdx_eq_take_drop_succ]
    · cases resumed
  · rintro ⟨before, after, split, rfl, rfl⟩
    simp [split, List.eraseIdx_append_of_length_le]

theorem notify_of_quiet {c : Condition ω} (noneAsleep : c.asleep = []) (choice : Nat) :
    c.notify choice = c := by
  simp [notify, wake, noneAsleep]

theorem notify_wakes {c : Condition ω} (someAsleep : c.asleep ≠ []) (choice : Nat) :
    ∃ position, c.wake position = some (c.notify choice) := by
  have inside : choice % c.asleep.length < c.asleep.length :=
    Nat.mod_lt _ (List.length_pos_iff.mpr someAsleep)
  refine ⟨choice % c.asleep.length, ?_⟩
  simp [notify, wake, inside]

/-- Waking moves waiters and keeps them. -/
theorem wake_waiters {c next : Condition ω} {position : Nat} (woke : c.wake position = some next) :
    next.waiters.Perm c.waiters := by
  obtain ⟨before, waiter, after, split, -, rfl⟩ := wake_eq_some.mp woke
  rw [waiters, waiters, split]
  simp only [List.append_assoc, List.cons_append]
  refine List.Perm.append_left before ?_
  rw [← List.append_assoc]
  exact List.perm_append_singleton waiter (after ++ c.woken)

theorem wait_waiters (c : Condition ω) (waiter : ω) :
    (c.wait waiter).waiters.Perm (waiter :: c.waiters) := by
  rw [waiters, waiters, wait, List.append_assoc]
  exact List.perm_middle

theorem notify_waiters (c : Condition ω) (choice : Nat) :
    (c.notify choice).waiters.Perm c.waiters := by
  by_cases noneAsleep : c.asleep = []
  · rw [notify_of_quiet noneAsleep]
  · obtain ⟨position, woke⟩ := notify_wakes noneAsleep choice
    exact wake_waiters woke

theorem resume_waiters {c next : Condition ω} {position : Nat} {waiter : ω}
    (resumed : c.resume position = some (waiter, next)) :
    c.waiters.Perm (waiter :: next.waiters) := by
  obtain ⟨before, after, split, -, rfl⟩ := resume_eq_some.mp resumed
  rw [waiters, waiters, split]
  dsimp only
  rw [← List.append_assoc, ← List.append_assoc]
  exact List.perm_middle

theorem resume_isSome {c : Condition ω} (someWoken : c.woken ≠ []) :
    ∃ waiter next, c.resume 0 = some (waiter, next) := by
  obtain ⟨waiter, rest, woken⟩ := List.exists_cons_of_ne_nil someWoken
  exact ⟨waiter, _, resume_eq_some.mpr ⟨[], rest, woken, rfl, rfl⟩⟩

/-! ## Covering a supply -/

/-- While a waiter sleeps, `supply` is at most the number of woken waiters. -/
def Covers (c : Condition ω) (supply : Int) : Prop := c.asleep ≠ [] → supply ≤ c.woken.length

theorem covers_quiet (supply : Int) : (quiet : Condition ω).Covers supply :=
  fun someAsleep => absurd rfl someAsleep

theorem Covers.mono {c : Condition ω} {supply less : Int} (covers : c.Covers supply)
    (fewer : less ≤ supply) : c.Covers less :=
  fun someAsleep => fewer.trans (covers someAsleep)

/-- Who finds nothing available may go to sleep. -/
theorem covers_wait {c : Condition ω} {supply : Int} (nothing : supply ≤ 0) (waiter : ω) :
    (c.wait waiter).Covers supply := by
  intro _
  have woken : (0 : Int) ≤ (c.wait waiter).woken.length := Int.natCast_nonneg _
  omega

theorem Covers.wake {c next : Condition ω} {supply : Int} {position : Nat}
    (covers : c.Covers supply) (woke : c.wake position = some next) : next.Covers (supply + 1) := by
  obtain ⟨before, waiter, after, split, -, rfl⟩ := wake_eq_some.mp woke
  intro _
  have bound : supply ≤ c.woken.length := covers (by simp [split])
  simpa using bound

/-- A notification pays for one more unit. -/
theorem Covers.notify {c : Condition ω} {supply : Int} (covers : c.Covers supply) (choice : Nat) :
    (c.notify choice).Covers (supply + 1) := by
  by_cases noneAsleep : c.asleep = []
  · rw [notify_of_quiet noneAsleep]
    exact fun someAsleep => absurd noneAsleep someAsleep
  · obtain ⟨position, woke⟩ := notify_wakes noneAsleep choice
    exact covers.wake woke

/-- A waiter that runs again has to take one unit, or leave none. -/
theorem Covers.resume {c next : Condition ω} {supply : Int} {position : Nat} {waiter : ω}
    (covers : c.Covers supply) (resumed : c.resume position = some (waiter, next)) :
    next.Covers (supply - 1) := by
  obtain ⟨before, after, split, -, rfl⟩ := resume_eq_some.mp resumed
  intro someAsleep
  have bound := covers someAsleep
  simp only [split, List.length_append, List.length_cons] at bound ⊢
  omega

end Condition

end Excalibur.Library
