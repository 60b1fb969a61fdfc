import Excalibur.LruCache.Refinement

/-! # A larger cache includes a smaller one

Two abstract caches of different capacity serve the same calls.  A key that only the
larger one holds is touched there and missed in the smaller one, so the orders differ;
what every call keeps is that the smaller list is a sublist of the larger one
(`Included`).  The two lists are the same until the smaller cache is full, and a full
cache stays full: when the larger one evicts, the smaller one does too.
-/

namespace Excalibur.LruCache

open Excalibur.Library Excalibur.Python

variable {κ β : Type} [DecidableEq κ]

/-! ## Lists with distinct keys -/

section Lists

variable {items smaller larger : List (κ × β)} {key : κ} {value : β}

theorem lookup_eq_some_iff_mem (distinct : (items.map Prod.fst).Nodup) :
    items.lookup key = some value ↔ (key, value) ∈ items := by
  constructor
  · intro found
    obtain ⟨before, after, rfl, -⟩ := List.lookup_eq_some_iff.mp found
    simp
  · intro member
    obtain ⟨before, after, rfl⟩ := List.append_of_mem member
    refine List.lookup_eq_some_iff.mpr ⟨before, after, rfl, ?_⟩
    intro item inBefore
    simp only [List.map_append, List.map_cons, List.nodup_middle, List.nodup_cons,
      List.mem_append, List.mem_map, not_or, not_exists, not_and] at distinct
    simpa using fun same => distinct.1.1 item inBefore same.symm

theorem filter_of_absent (absent : items.lookup key = none) :
    items.filter (fun item => item.1 ≠ key) = items := by
  refine List.filter_eq_self.mpr ?_
  intro item member
  have other : key ≠ item.1 := by
    simpa using List.lookup_eq_none_iff.mp absent item member
  simpa using other.symm

theorem touch_of_absent (absent : items.lookup key = none) (value : β) :
    touch items key value = (key, value) :: items := by
  rw [touch, filter_of_absent absent]

theorem length_touch {old : β} (distinct : (items.map Prod.fst).Nodup)
    (present : items.lookup key = some old) (value : β) :
    (touch items key value).length = items.length := by
  obtain ⟨before, after, rfl, -⟩ := List.lookup_eq_some_iff.mp present
  rw [touch_of_split distinct]
  simp only [List.length_cons, List.length_append]
  omega

theorem touch_sublist (sublist : smaller.Sublist larger) (key : κ) (value : β) :
    (touch smaller key value).Sublist (touch larger key value) :=
  (sublist.filter _).cons_cons _

/-- A list without the key does not see the key move in the longer list. -/
theorem sublist_touch (sublist : smaller.Sublist larger) (absent : smaller.lookup key = none)
    (value : β) : smaller.Sublist (touch larger key value) := by
  have kept := sublist.filter fun item => item.1 ≠ key
  rw [filter_of_absent absent] at kept
  exact kept.cons _

theorem dropLast_sublist_dropLast {α : Type} {smaller larger : List α}
    (sublist : smaller.Sublist larger) : smaller.dropLast.Sublist larger.dropLast := by
  induction sublist with
  | slnil => exact .slnil
  | @cons smaller larger item sublist ih =>
    cases larger with
    | nil =>
      rw [List.sublist_nil.mp sublist]
      exact List.nil_sublist _
    | cons next larger => exact ih.cons item
  | @cons_cons smaller larger item sublist ih =>
    cases smaller with
    | nil => exact List.nil_sublist _
    | cons first smaller =>
      cases larger with
      | nil => exact absurd sublist (by simp)
      | cons next larger => exact ih.cons_cons item

end Lists

/-! ## Two abstract caches -/

/-- What the larger of two caches has of the smaller one. -/
structure Included (s l : LruModel κ β) : Prop where
  capacity : s.capacity ≤ l.capacity
  sublist : s.items.Sublist l.items
  filled : (s.items.length : Int) = s.capacity ∨ s.items = l.items
  hits : s.hits ≤ l.hits

namespace Included

variable {s l : LruModel κ β} {key : κ}

theorem lookup (included : Included s l) {value : β} (held : s.items.lookup key = some value) :
    l.items.lookup key = some value :=
  (lookup_eq_some_iff_mem l.distinct).mpr
    (included.sublist.subset ((lookup_eq_some_iff_mem s.distinct).mp held))

theorem absent (included : Included s l) (absent : l.items.lookup key = none) :
    s.items.lookup key = none := by
  cases held : s.items.lookup key with
  | none => rfl
  | some value =>
    rw [included.lookup held] at absent
    contradiction

/-- A key that only the larger cache holds shows that the smaller one is full. -/
theorem full (included : Included s l) {value : β} (absent : s.items.lookup key = none)
    (held : l.items.lookup key = some value) : (s.items.length : Int) = s.capacity := by
  cases included.filled with
  | inl full => exact full
  | inr same =>
    rw [same, held] at absent
    contradiction

theorem get (included : Included s l) (key : κ) (default : β) :
    Included (s.get key default).2 (l.get key default).2 := by
  cases held : s.items.lookup key with
  | some value =>
    obtain ⟨_, _, got⟩ := LruModel.get_present held default
    obtain ⟨_, _, got'⟩ := LruModel.get_present (included.lookup held) default
    rw [got, got']
    refine ⟨included.capacity, touch_sublist included.sublist key value, ?_,
      Nat.succ_le_succ included.hits⟩
    cases included.filled with
    | inl full => exact .inl (by rw [length_touch s.distinct held]; exact full)
    | inr same => exact .inr (congrArg (touch · key value) same)
  | none =>
    rw [LruModel.get_absent held]
    cases held' : l.items.lookup key with
    | none =>
      rw [LruModel.get_absent held']
      exact ⟨included.capacity, included.sublist, included.filled, included.hits⟩
    | some value =>
      obtain ⟨_, _, got'⟩ := LruModel.get_present held' default
      rw [got']
      exact ⟨included.capacity, sublist_touch included.sublist held value,
        .inl (included.full held held'), included.hits.trans (Nat.le_succ _)⟩

theorem put_known (included : Included s l) {key : κ} {old : β}
    (held : s.items.lookup key = some old) (value : β) :
    Included (s.put key value) (l.put key value) := by
  obtain ⟨_, _, put⟩ := LruModel.put_present held value
  obtain ⟨_, _, put'⟩ := LruModel.put_present (included.lookup held) value
  rw [put, put']
  refine ⟨included.capacity, touch_sublist included.sublist key value, ?_, included.hits⟩
  cases included.filled with
  | inl full => exact .inl (by rw [length_touch s.distinct held]; exact full)
  | inr same => exact .inr (congrArg (touch · key value) same)

/-- A cache with room left has evicted nothing, so neither has the larger one. -/
theorem put_with_room (included : Included s l) {key : κ} (held : s.items.lookup key = none)
    {value : β} (fits : (((key, value) :: s.items).length : Int) ≤ s.capacity) :
    Included (s.put key value) (l.put key value) := by
  have same : s.items = l.items := by
    cases included.filled with
    | inl full =>
      rw [List.length_cons] at fits
      omega
    | inr same => exact same
  have held' : l.items.lookup key = none := by rwa [← same]
  have fits' : (((key, value) :: l.items).length : Int) ≤ l.capacity := by
    rw [← same]
    exact fits.trans included.capacity
  obtain ⟨_, _, put⟩ := LruModel.put_fits held fits
  obtain ⟨_, _, put'⟩ := LruModel.put_fits held' fits'
  rw [put, put']
  exact ⟨included.capacity, included.sublist.cons_cons _,
    .inr (congrArg (List.cons (key, value)) same), included.hits⟩

/-- The smaller cache stays full, whatever the larger one does. -/
theorem put_evicting (included : Included s l) {key : κ} (held : s.items.lookup key = none)
    {value : β} (full : (s.capacity : Int) < ((key, value) :: s.items).length) :
    Included (s.put key value) (l.put key value) := by
  -- the larger cache has at least this, and drops its own last pair at most
  have entering : ((key, value) :: s.items).Sublist (touch l.items key value) := by
    rw [← touch_of_absent held]
    exact touch_sublist included.sublist key value
  have stays : ((((key, value) :: s.items).dropLast.length : Nat) : Int) = s.capacity := by
    have bounded := s.bounded
    rw [List.length_cons] at full
    rw [List.length_dropLast, List.length_cons]
    omega
  obtain ⟨_, _, put⟩ := LruModel.put_full held full
  rw [put]
  cases held' : l.items.lookup key with
  | some old =>
    obtain ⟨_, _, put'⟩ := LruModel.put_present held' value
    rw [put']
    exact ⟨included.capacity, (List.dropLast_sublist _).trans entering, .inl stays, included.hits⟩
  | none =>
    -- neither cache knows the key: both may drop a pair, and the orders agree
    rw [touch_of_absent held'] at entering
    by_cases fits' : (((key, value) :: l.items).length : Int) ≤ l.capacity
    · obtain ⟨_, _, put'⟩ := LruModel.put_fits held' fits'
      rw [put']
      exact ⟨included.capacity, (List.dropLast_sublist _).trans entering, .inl stays, included.hits⟩
    · obtain ⟨_, _, put'⟩ := LruModel.put_full held' (not_le.mp fits')
      rw [put']
      exact ⟨included.capacity, dropLast_sublist_dropLast entering, .inl stays, included.hits⟩

theorem put (included : Included s l) (key : κ) (value : β) :
    Included (s.put key value) (l.put key value) := by
  cases held : s.items.lookup key with
  | some old => exact included.put_known held value
  | none =>
    by_cases fits : (((key, value) :: s.items).length : Int) ≤ s.capacity
    · exact included.put_with_room held fits
    · exact included.put_evicting held (not_le.mp fits)

theorem answer (included : Included s l) (request : Call κ β) :
    Included (s.answer request).2 (l.answer request).2 := by
  cases request with
  | get key default => exact included.get key default
  | put key value => exact included.put key value

theorem answers (included : Included s l) (trace : List (Call κ β)) :
    Included (answers LruModel.answer s trace).2 (answers LruModel.answer l trace).2 := by
  induction trace generalizing s l with
  | nil => exact included
  | cons request trace ih => exact ih (included.answer request)

end Included

/-! ## Two caches of the program -/

/-- The value at a key, without touching it. -/
def held (c : LRUCache κ β) (key : κ) : Option β :=
  (c.map.lookup key).map fun node => (c.heap.cell node).item.value

theorem Simulates.held_eq {c : LRUCache κ β} {m : LruModel κ β} (simulates : Simulates c m)
    (key : κ) : held c key = m.items.lookup key := by
  obtain ⟨nodes, represents, same⟩ := simulates.represented
  rw [← same, held]
  cases found : c.map.lookup key with
  | none => rw [represents.absent found, Option.map_none]
  | some node =>
    obtain ⟨_, _, -, -, carries⟩ := represents.present found
    rw [carries, Option.map_some]

theorem Simulates.get_hit {c : LRUCache κ β} {m : LruModel κ β} (simulates : Simulates c m)
    {key : κ} {value : β} (hit : m.items.lookup key = some value) (default : β) :
    ∃ next, get c key default = .ok (value, next) ∧ next.hits = c.hits + 1 := by
  obtain ⟨next, got, related⟩ := get_simulates simulates key default
  obtain ⟨_, _, answered⟩ := LruModel.get_present hit default
  rw [answered] at got related
  exact ⟨next, got, by rw [related.hits, simulates.hits]⟩

/-- After any trace the larger cache holds what the smaller one holds, a `get` that hits
    in the smaller cache hits in the larger one with the same value, and the larger one
    has at least as many hits. -/
theorem larger_cache_includes_smaller (noneKey : κ) (noneValue : β) (small large : Int)
    (positive : 1 ≤ small) (ordered : small ≤ large) (trace : List (Call κ β)) :
    ∃ c C outputs s outputs' l,
      init noneKey noneValue small = .ok c ∧ calls call c trace = .ok (outputs, s) ∧
      init noneKey noneValue large = .ok C ∧ calls call C trace = .ok (outputs', l) ∧
      (∀ key value, held s key = some value → held l key = some value) ∧
      (∀ key default value, held s key = some value →
        (∃ next, get s key default = .ok (value, next) ∧ next.hits = s.hits + 1) ∧
        ∃ next, get l key default = .ok (value, next) ∧ next.hits = l.hits + 1) ∧
      s.hits ≤ l.hits := by
  have smallPositive : 0 < small := by omega
  have largePositive : 0 < large := by omega
  obtain ⟨c, created, start⟩ := init_simulates noneKey noneValue smallPositive
  obtain ⟨C, created', start'⟩ := init_simulates noneKey noneValue largePositive
  obtain ⟨s, returned, related⟩ := forward.calls start trace
  obtain ⟨l, returned', related'⟩ := forward.calls start' trace
  -- two empty caches: the inclusion of the models is carried through the trace
  have empty : Included (LruModel.init small smallPositive : LruModel κ β)
      (LruModel.init large largePositive) :=
    ⟨ordered, .slnil, .inr rfl, le_rfl⟩
  have included := empty.answers trace
  refine ⟨c, C, _, s, _, l, created, returned, created', returned', ?_, ?_, ?_⟩
  · intro key value holds
    rw [related.held_eq] at holds
    rw [related'.held_eq]
    exact included.lookup holds
  · intro key default value holds
    rw [related.held_eq] at holds
    exact ⟨related.get_hit holds default, related'.get_hit (included.lookup holds) default⟩
  · rw [related.hits, related'.hits]
    exact included.hits

/-- With capacity 1 the second `put` evicts `a`, with capacity 2 the `get` still hits. -/
theorem larger_cache_hits_more :
    ∃ c C outputs s outputs' l, init 'z' none 1 = .ok c ∧
      calls call c [.put 'a' (some 1), .put 'b' (some 2), .get 'a' none] = .ok (outputs, s) ∧
      init 'z' none 2 = .ok C ∧
      calls call C [.put 'a' (some 1), .put 'b' (some 2), .get 'a' none] = .ok (outputs', l) ∧
      (∀ key value, held s key = some value → held l key = some value) ∧ s.hits ≤ l.hits := by
  obtain ⟨c, C, outputs, s, outputs', l, created, returned, created', returned', includes, -, hits⟩ :=
    larger_cache_includes_smaller 'z' (none : Option Nat) 1 2 (by decide) (by decide)
      [.put 'a' (some 1), .put 'b' (some 2), .get 'a' none]
  exact ⟨c, C, outputs, s, outputs', l, created, returned, created', returned', includes, hits⟩

end Excalibur.LruCache
