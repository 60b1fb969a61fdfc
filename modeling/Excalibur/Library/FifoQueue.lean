import Mathlib

/-! # A bounded first-in first-out monitor

A queue with the operations of `queue.Queue`, each atomic.  `none` means that the
calling thread has to wait, or for `taskDone` that it raises.
-/

namespace Excalibur.Library

/-- `maxsize ≤ 0` is no bound; `unfinished` counts the items put and not yet marked
    as done. -/
structure FifoQueue (α : Type*) where
  maxsize : Int
  items : List α
  unfinished : Nat
  deriving Repr, DecidableEq

namespace FifoQueue

variable {α : Type*}

def empty (maxsize : Int) : FifoQueue α := { maxsize := maxsize, items := [], unfinished := 0 }

def full (q : FifoQueue α) : Bool := 0 < q.maxsize && q.maxsize ≤ q.items.length

def put (q : FifoQueue α) (item : α) : Option (FifoQueue α) :=
  if q.full then none
  else some { q with items := q.items ++ [item], unfinished := q.unfinished + 1 }

def get (q : FifoQueue α) : Option (α × FifoQueue α) :=
  match q.items with
  | [] => none
  | item :: rest => some (item, { q with items := rest })

def taskDone (q : FifoQueue α) : Option (FifoQueue α) :=
  if q.unfinished = 0 then none else some { q with unfinished := q.unfinished - 1 }

theorem full_iff {q : FifoQueue α} : q.full = true ↔ 0 < q.maxsize ∧ q.maxsize ≤ q.items.length := by
  simp [full]

theorem items_ne_nil_of_full {q : FifoQueue α} (full : q.full) : q.items ≠ [] := by
  intro empty
  rw [full_iff, empty, List.length_nil] at full
  omega

theorem put_eq_some {q next : FifoQueue α} {item : α} :
    q.put item = some next ↔ ¬ q.full ∧
      next = { q with items := q.items ++ [item], unfinished := q.unfinished + 1 } := by
  unfold put
  split
  · rename_i full
    simp [full]
  · rename_i room
    simp [room, eq_comm]

theorem put_of_not_full {q : FifoQueue α} (room : ¬ q.full) (item : α) :
    q.put item = some { q with items := q.items ++ [item], unfinished := q.unfinished + 1 } :=
  put_eq_some.mpr ⟨room, rfl⟩

theorem full_of_blocked {q : FifoQueue α} {item : α} (blocked : q.put item = none) : q.full := by
  by_contra room
  rw [put_of_not_full room] at blocked
  cases blocked

theorem get_eq_some {q next : FifoQueue α} {item : α} :
    q.get = some (item, next) ↔ ∃ rest, q.items = item :: rest ∧ next = { q with items := rest } := by
  unfold get
  split
  · rename_i none
    simp [none]
  · rename_i first rest items
    simp only [items, Option.some.injEq, Prod.mk.injEq, List.cons.injEq]
    constructor
    · rintro ⟨rfl, rfl⟩
      exact ⟨rest, ⟨rfl, rfl⟩, rfl⟩
    · rintro ⟨_, ⟨rfl, rfl⟩, rfl⟩
      exact ⟨rfl, rfl⟩

theorem taskDone_eq_some {q next : FifoQueue α} :
    q.taskDone = some next ↔
      q.unfinished ≠ 0 ∧ next = { q with unfinished := q.unfinished - 1 } := by
  unfold taskDone
  split
  · rename_i none
    simp [none]
  · rename_i some
    simp [some, eq_comm]

/-- A bounded queue never holds more than its bound. -/
def WithinBound (q : FifoQueue α) : Prop := 0 < q.maxsize → (q.items.length : Int) ≤ q.maxsize

theorem withinBound_empty (maxsize : Int) : (empty maxsize : FifoQueue α).WithinBound :=
  fun positive => le_of_lt positive

theorem WithinBound.put {q next : FifoQueue α} {item : α} (within : q.WithinBound)
    (put : q.put item = some next) : next.WithinBound := by
  obtain ⟨room, rfl⟩ := put_eq_some.mp put
  intro bounded
  have before := within bounded
  rw [full_iff] at room
  simp only [List.length_append, List.length_singleton, Nat.cast_add, Nat.cast_one] at bounded ⊢
  omega

theorem WithinBound.get {q next : FifoQueue α} {item : α} (within : q.WithinBound)
    (got : q.get = some (item, next)) : next.WithinBound := by
  obtain ⟨rest, items, rfl⟩ := get_eq_some.mp got
  intro bounded
  have before := within bounded
  simp only [items, List.length_cons] at before ⊢
  omega

end FifoQueue

end Excalibur.Library
