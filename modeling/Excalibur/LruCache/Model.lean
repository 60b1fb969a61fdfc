import Mathlib

/-! # The abstract LRU cache

A list of pairs with distinct keys, the most recently used first, never longer
than the capacity.  A hit moves its pair to the front; a new pair enters at the
front and pushes the last one out when the list would exceed the capacity.
-/

namespace Excalibur.LruCache

variable {κ β : Type} [DecidableEq κ]

/-- A most-recent-first list within its capacity, and the counters. -/
structure LruModel (κ β : Type) where
  capacity : Int
  items : List (κ × β)
  hits : Nat
  misses : Nat
  evictions : Nat
  positive : 0 < capacity
  distinct : (items.map Prod.fst).Nodup
  bounded : (items.length : Int) ≤ capacity

def touch (items : List (κ × β)) (key : κ) (value : β) : List (κ × β) :=
  (key, value) :: items.filter fun item => item.1 ≠ key

theorem touch_distinct {items : List (κ × β)} (distinct : (items.map Prod.fst).Nodup) (key : κ)
    (value : β) : ((touch items key value).map Prod.fst).Nodup := by
  simp only [touch, List.map_cons, List.nodup_cons]
  constructor
  · simp
  · exact distinct.sublist (List.filter_sublist.map Prod.fst)

theorem length_touch_le {items : List (κ × β)} {key : κ} {old : β}
    (present : items.lookup key = some old) (value : β) :
    (touch items key value).length ≤ items.length := by
  obtain ⟨before, after, rfl, -⟩ := List.lookup_eq_some_iff.mp present
  have front := List.length_filter_le (fun item : κ × β => item.1 ≠ key) before
  have back := List.length_filter_le (fun item : κ × β => item.1 ≠ key) after
  simp only [touch, List.filter_append, List.filter_cons, ne_eq, not_true_eq_false, decide_false,
    Bool.false_eq_true, if_false, List.length_append, List.length_cons] at front back ⊢
  omega

/-- Distinct keys: the pair leaves its place and nothing else does. -/
theorem touch_of_split {before after : List (κ × β)} {key : κ} {old : β}
    (distinct : ((before ++ (key, old) :: after).map Prod.fst).Nodup) (value : β) :
    touch (before ++ (key, old) :: after) key value = (key, value) :: (before ++ after) := by
  simp only [List.map_append, List.map_cons, List.nodup_middle, List.nodup_cons,
    List.mem_append, List.mem_map, not_or, not_exists, not_and] at distinct
  obtain ⟨⟨outsideBefore, outsideAfter⟩, -⟩ := distinct
  have keepBefore : before.filter (fun item => item.1 ≠ key) = before := by
    simpa [List.filter_eq_self] using outsideBefore
  have keepAfter : after.filter (fun item => item.1 ≠ key) = after := by
    simpa [List.filter_eq_self] using outsideAfter
  simp only [touch, List.filter_append, keepBefore, List.filter_cons, ne_eq, not_true_eq_false,
    decide_false, Bool.false_eq_true, if_false]
  rw [← keepAfter]
  simp

theorem distinct_cons_of_absent {items : List (κ × β)} (distinct : (items.map Prod.fst).Nodup)
    {key : κ} (absent : items.lookup key = none) (value : β) :
    (((key, value) :: items).map Prod.fst).Nodup := by
  simp only [List.map_cons, List.nodup_cons, List.mem_map, not_exists, not_and]
  refine ⟨fun item member same => ?_, distinct⟩
  have other := List.lookup_eq_none_iff.mp absent item member
  simp [same] at other

namespace LruModel

def init (capacity : Int) (positive : 0 < capacity) : LruModel κ β where
  capacity := capacity
  items := []
  hits := 0
  misses := 0
  evictions := 0
  positive := positive
  distinct := List.nodup_nil
  bounded := le_of_lt positive

theorem touch_bounded (m : LruModel κ β) {key : κ} {old : β}
    (present : m.items.lookup key = some old) (value : β) :
    ((touch m.items key value).length : Int) ≤ m.capacity :=
  le_trans (Int.ofNat_le.mpr (length_touch_le present value)) m.bounded

theorem dropLast_distinct (m : LruModel κ β) {key : κ} (absent : m.items.lookup key = none)
    (value : β) : ((((key, value) :: m.items).dropLast).map Prod.fst).Nodup :=
  (distinct_cons_of_absent m.distinct absent value).sublist
    ((List.dropLast_sublist _).map Prod.fst)

omit [DecidableEq κ] in
theorem dropLast_bounded (m : LruModel κ β) (item : κ × β) :
    (((item :: m.items).dropLast).length : Int) ≤ m.capacity := by
  simpa using m.bounded

def get (m : LruModel κ β) (key : κ) (default : β) : β × LruModel κ β :=
  match found : m.items.lookup key with
  | none => (default, { m with misses := m.misses + 1 })
  | some value =>
    (value,
      { m with
        items := touch m.items key value
        hits := m.hits + 1
        distinct := touch_distinct m.distinct key value
        bounded := m.touch_bounded found value })

def put (m : LruModel κ β) (key : κ) (value : β) : LruModel κ β :=
  match found : m.items.lookup key with
  | some _ =>
    { m with
      items := touch m.items key value
      distinct := touch_distinct m.distinct key value
      bounded := m.touch_bounded found value }
  | none =>
    if fits : (((key, value) :: m.items).length : Int) ≤ m.capacity then
      { m with
        items := (key, value) :: m.items
        distinct := distinct_cons_of_absent m.distinct found value
        bounded := fits }
    else
      { m with
        items := ((key, value) :: m.items).dropLast
        evictions := m.evictions + 1
        distinct := m.dropLast_distinct found value
        bounded := m.dropLast_bounded (key, value) }

section Cases

variable {m : LruModel κ β} {key : κ}

theorem get_absent (absent : m.items.lookup key = none) (default : β) :
    m.get key default = (default, { m with misses := m.misses + 1 }) := by
  unfold get
  split
  · rfl
  · simp_all

theorem get_present {value : β} (present : m.items.lookup key = some value) (default : β) :
    ∃ distinct bounded, m.get key default =
      (value, { m with
        items := touch m.items key value
        hits := m.hits + 1
        distinct := distinct
        bounded := bounded }) := by
  unfold get
  split
  case h_1 absent => simp_all
  case h_2 other found =>
    cases present.symm.trans found
    exact ⟨touch_distinct m.distinct key value, m.touch_bounded found value, rfl⟩

theorem put_present {old : β} (present : m.items.lookup key = some old) (value : β) :
    ∃ distinct bounded, m.put key value =
      { m with items := touch m.items key value, distinct := distinct, bounded := bounded } := by
  unfold put
  split
  · exact ⟨touch_distinct m.distinct key value, m.touch_bounded present value, rfl⟩
  · simp_all

theorem put_fits (absent : m.items.lookup key = none) {value : β}
    (fits : (((key, value) :: m.items).length : Int) ≤ m.capacity) :
    ∃ distinct bounded, m.put key value =
      { m with items := (key, value) :: m.items, distinct := distinct, bounded := bounded } := by
  unfold put
  split
  · simp_all
  · rw [dif_pos fits]
    exact ⟨distinct_cons_of_absent m.distinct absent value, fits, rfl⟩

theorem put_full (absent : m.items.lookup key = none) {value : β}
    (full : m.capacity < (((key, value) :: m.items).length : Int)) :
    ∃ distinct bounded, m.put key value =
      { m with
        items := ((key, value) :: m.items).dropLast
        evictions := m.evictions + 1
        distinct := distinct
        bounded := bounded } := by
  unfold put
  split
  · simp_all
  · rw [dif_neg (not_le.mpr full)]
    exact ⟨m.dropLast_distinct absent value, m.dropLast_bounded (key, value), rfl⟩

end Cases

end LruModel

end Excalibur.LruCache
