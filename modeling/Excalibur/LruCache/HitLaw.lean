import Excalibur.Library.Recency
import Excalibur.LruCache.Inclusion
import Excalibur.LruCache.Pointers

/-! # When a key is held

A call uses a key when it puts it or finds it; a `get` that misses leaves no trace.  The
cache holds the keys in the order of their last uses, as many as its capacity allows.  So a
key that has been put is held, with the value put last, exactly as long as fewer than
`capacity` other keys have been used since its own last use.
-/

namespace Excalibur.LruCache

open Excalibur.Library Excalibur.Python

variable {κ β : Type} [DecidableEq κ]

/-- The key that a call uses. -/
def usedKey (c : LRUCache κ β) : Call κ β → Option κ
  | .get key _ => (c.map.lookup key).map fun _ => key
  | .put key _ => some key

/-- The keys used by the calls, and before them by `log`, the last one first. -/
def uses (c : LRUCache κ β) (log : List κ) : List (Call κ β) → List κ
  | [] => log
  | request :: requests =>
    match call c request with
    | .ok (_, next) => uses next ((usedKey c request).toList ++ log) requests
    | .error _ => log

/-- What each key was put with last. -/
def lastPut (puts : κ → Option β) : List (Call κ β) → κ → Option β
  | [] => puts
  | .get _ _ :: requests => lastPut puts requests
  | .put key value :: requests => lastPut (Function.update puts key (some value)) requests

/-! ## The abstract cache -/

namespace LruModel

def usedKey (m : LruModel κ β) : Call κ β → Option κ
  | .get key _ => (m.items.lookup key).map fun _ => key
  | .put key _ => some key

def putsAfter (puts : κ → Option β) : Call κ β → κ → Option β
  | .get _ _ => puts
  | .put key value => Function.update puts key (some value)

/-- The cache has the most recent keys of the log, with the values put last. -/
structure Recent (m : LruModel κ β) (log : List κ) (puts : κ → Option β) : Prop where
  keys : m.items.map Prod.fst = (recency log).take m.capacity.toNat
  values : ∀ key value, m.items.lookup key = some value → puts key = some value
  used : ∀ key value, puts key = some value → key ∈ log

variable {m : LruModel κ β} {log : List κ} {puts : κ → Option β} {key : κ}

theorem mem_touch {items : List (κ × β)} {value : β} {other : κ × β}
    (member : other ∈ touch items key value) : other = (key, value) ∨ other ∈ items := by
  rcases List.mem_cons.mp member with same | kept
  · exact .inl same
  · exact .inr (List.mem_of_mem_filter kept)

theorem map_touch (items : List (κ × β)) (key : κ) (value : β) :
    (touch items key value).map Prod.fst =
      key :: (items.map Prod.fst).filter fun other => other ≠ key := by
  simp only [touch, List.map_cons, List.filter_map, Function.comp_def]

/-- The keys after a use, as many as there is room for. -/
def keysAfter (m : LruModel κ β) (key : κ) : List κ :=
  key :: ((m.items.map Prod.fst).filter fun other => other ≠ key).take (m.capacity.toNat - 1)

theorem keysAfter_eq_touch {value : β} (fits : ((touch m.items key value).length : Int) ≤ m.capacity) :
    (touch m.items key value).map Prod.fst = m.keysAfter key := by
  have room := congrArg List.length (map_touch m.items key value)
  rw [List.length_map, List.length_cons] at room
  rw [map_touch, keysAfter, List.take_of_length_le (by omega)]

theorem keysAfter_eq_dropLast {value : β} (absent : m.items.lookup key = none)
    (full : m.capacity < ((key, value) :: m.items).length) :
    ((key, value) :: m.items).dropLast.map Prod.fst = m.keysAfter key := by
  have positive := m.positive
  have bounded := m.bounded
  rw [List.length_cons] at full
  have length : m.items.length = m.capacity.toNat := by omega
  rw [keysAfter, filter_ne_of_not_mem, List.dropLast_eq_take, List.length_cons, List.map_take,
    List.map_cons, Nat.add_sub_cancel, length]
  · obtain ⟨n, size⟩ : ∃ n, m.capacity.toNat = n + 1 := ⟨m.capacity.toNat - 1, by omega⟩
    rw [size, List.take_succ_cons, Nat.add_sub_cancel]
  · intro member
    obtain ⟨item, held, rfl⟩ := List.mem_map.mp member
    have other := List.lookup_eq_none_iff.mp absent item held
    simp at other

omit [DecidableEq κ] in
/-- The capacity is positive, so it is another pair that leaves. -/
theorem mem_dropLast_of_full {item : κ × β} (full : m.capacity < (item :: m.items).length) :
    item ∈ (item :: m.items).dropLast := by
  have positive := m.positive
  cases items : m.items with
  | nil =>
    rw [items, List.length_singleton] at full
    omega
  | cons other rest => simp

/-- A use puts its key in front of the others. -/
theorem recent_use {next : LruModel κ β} (recent : m.Recent log puts)
    (capacity : next.capacity = m.capacity) (items : next.items.map Prod.fst = m.keysAfter key) :
    next.items.map Prod.fst = (recency (key :: log)).take next.capacity.toNat := by
  have positive := m.positive
  obtain ⟨n, size⟩ : ∃ n, m.capacity.toNat = n + 1 := ⟨m.capacity.toNat - 1, by omega⟩
  rw [items, keysAfter, recent.keys, capacity, size, take_recency_cons, Nat.add_sub_cancel]

/-- Only the key that is put gets a new value. -/
theorem values_put {next : LruModel κ β} {value : β} (recent : m.Recent log puts)
    (items : ∀ item ∈ next.items, item = (key, value) ∨ item ∈ m.items) (other : κ) (found : β)
    (entered : (key, value) ∈ next.items) (held : next.items.lookup other = some found) :
    Function.update puts key (some value) other = some found := by
  have member := (lookup_eq_some_iff_mem next.distinct).mp held
  by_cases same : other = key
  · subst same
    rw [Function.update_self, ← held]
    exact ((lookup_eq_some_iff_mem next.distinct).mpr entered).symm
  · rw [Function.update_of_ne same]
    rcases items _ member with new | old
    · exact absurd (congrArg Prod.fst new) same
    · exact recent.values other found ((lookup_eq_some_iff_mem m.distinct).mpr old)

theorem recent_answer (recent : m.Recent log puts) (request : Call κ β) :
    (m.answer request).2.Recent ((m.usedKey request).toList ++ log) (putsAfter puts request) := by
  cases request with
  | get key default =>
    cases found : m.items.lookup key with
    | none =>
      simp only [answer, get_absent found, usedKey, found, Option.map_none, Option.toList_none,
        List.nil_append]
      exact ⟨recent.keys, recent.values, recent.used⟩
    | some value =>
      obtain ⟨_, bounded, got⟩ := get_present found default
      simp only [answer, got, usedKey, found, Option.map_some, Option.toList_some,
        List.singleton_append]
      refine ⟨recent_use recent rfl (keysAfter_eq_touch bounded), fun other old held => ?_,
        fun other old put => List.mem_cons_of_mem _ (recent.used other old put)⟩
      have member := (lookup_eq_some_iff_mem (touch_distinct m.distinct key value)).mp held
      apply recent.values other old
      rcases mem_touch member with new | kept
      · cases new
        exact found
      · exact (lookup_eq_some_iff_mem m.distinct).mpr kept
  | put key value =>
    simp only [answer, usedKey, putsAfter, Option.toList_some, List.singleton_append]
    suffices after : (m.put key value).capacity = m.capacity ∧
        (m.put key value).items.map Prod.fst = m.keysAfter key ∧
        (key, value) ∈ (m.put key value).items ∧
        ∀ item ∈ (m.put key value).items, item = (key, value) ∨ item ∈ m.items by
      obtain ⟨capacity, keys, entered, items⟩ := after
      refine ⟨recent_use recent capacity keys, fun other found =>
        values_put recent items other found entered, fun other old put => ?_⟩
      by_cases same : other = key
      · exact List.mem_cons.mpr (.inl same)
      · rw [Function.update_of_ne same] at put
        exact List.mem_cons_of_mem _ (recent.used other old put)
    cases found : m.items.lookup key with
    | some old =>
      obtain ⟨_, bounded, put⟩ := put_present found value
      rw [put]
      exact ⟨rfl, keysAfter_eq_touch bounded, List.mem_cons_self, fun _ => mem_touch⟩
    | none =>
      by_cases fits : (((key, value) :: m.items).length : Int) ≤ m.capacity
      · obtain ⟨_, _, put⟩ := put_fits found fits
        have keys : ((key, value) :: m.items).map Prod.fst = m.keysAfter key := by
          rw [← touch_of_absent found value] at fits ⊢
          exact keysAfter_eq_touch fits
        rw [put]
        exact ⟨rfl, keys, List.mem_cons_self, fun _ => List.mem_cons.mp⟩
      · obtain ⟨_, _, put⟩ := put_full found (not_le.mp fits)
        rw [put]
        refine ⟨rfl, keysAfter_eq_dropLast found (not_le.mp fits),
          mem_dropLast_of_full (not_le.mp fits), ?_⟩
        exact fun item member => List.mem_cons.mp (List.mem_of_mem_dropLast member)

end LruModel

/-! ## The cache of the program -/

theorem Simulates.usedKey_eq {c : LRUCache κ β} {m : LruModel κ β} (simulates : Simulates c m)
    (request : Call κ β) : usedKey c request = m.usedKey request := by
  cases request with
  | put key value => rfl
  | get key default =>
    have same := simulates.held_eq key
    rw [held] at same
    rw [usedKey, LruModel.usedKey, ← same]
    cases c.map.lookup key <;> rfl

theorem Simulates.recent {c finish : LRUCache κ β} {m : LruModel κ β} {log : List κ}
    {puts : κ → Option β} (simulates : Simulates c m) (recent : m.Recent log puts)
    {requests : List (Call κ β)} {outputs : List (Option β)}
    (returned : calls call c requests = .ok (outputs, finish)) :
    ∃ last : LruModel κ β, Simulates finish last ∧ last.capacity = m.capacity ∧
      last.Recent (uses c log requests) (lastPut puts requests) := by
  induction requests generalizing c m log puts outputs with
  | nil =>
    cases returned
    exact ⟨m, simulates, rfl, recent⟩
  | cons request requests ih =>
    obtain ⟨next, called, related⟩ := forward c m request simulates
    simp only [calls, called] at returned
    split at returned
    · cases returned
    · rename_i outputs' finish' rest
      cases returned
      obtain ⟨last, ends, capacity, after⟩ := ih related (m.recent_answer recent request) rest
      refine ⟨last, ends, capacity.trans (m.counted_answer request).capacity, ?_⟩
      simp only [uses, called, simulates.usedKey_eq]
      cases request <;> exact after

/-- After any trace a key is held exactly if it has been put and fewer than `capacity` other
    keys have been used since it was used last, and its value is the one put last. -/
theorem held_iff_recently_used (noneKey : κ) (noneValue : β) (capacity : Int)
    (positive : 0 < capacity) (trace : List (Call κ β)) :
    ∃ new outputs finish, init noneKey noneValue capacity = .ok new ∧
      calls call new trace = .ok (outputs, finish) ∧
      ∀ key value, held finish key = some value ↔
        lastPut (fun _ => none) trace key = some value ∧
          (((uses new [] trace).takeWhile fun other => other ≠ key).toFinset.card : Int) <
            capacity := by
  obtain ⟨new, created, start⟩ := init_simulates noneKey noneValue positive
  obtain ⟨finish, returned, -⟩ := forward.calls start trace
  have empty : (LruModel.init capacity positive : LruModel κ β).Recent [] fun _ => none :=
    ⟨by simp [LruModel.init, recency], by simp [LruModel.init], by simp⟩
  obtain ⟨last, related, same, recent⟩ := start.recent empty returned
  refine ⟨new, _, finish, created, returned, fun key value => ?_⟩
  rw [related.held_eq]
  have size : last.capacity = capacity := same
  have listed : key ∈ last.items.map Prod.fst ↔ key ∈ uses new [] trace ∧
      (((uses new [] trace).takeWhile fun other => other ≠ key).toFinset.card : Int) <
        capacity := by
    rw [recent.keys, mem_take_recency, size]
    exact and_congr_right fun _ => by omega
  constructor
  · intro holds
    refine ⟨recent.values key value holds, (listed.mp ?_).2⟩
    exact List.mem_map.mpr ⟨_, (lookup_eq_some_iff_mem last.distinct).mp holds, rfl⟩
  · rintro ⟨put, few⟩
    obtain ⟨⟨_, found⟩, member, rfl⟩ :=
      List.mem_map.mp (listed.mpr ⟨recent.used key value put, few⟩)
    have holds := (lookup_eq_some_iff_mem last.distinct).mpr member
    rw [holds]
    exact (recent.values _ found holds).symm.trans put

/-- With capacity 2: the hit on `a` makes `b` the key that `c` pushes out. -/
theorem held_after_hit :
    ∃ new outputs finish, init 'z' none 2 = .ok new ∧
      calls call new [.put 'a' (some 1), .put 'b' (some 2), .get 'a' none, .put 'c' (some 3)] =
        .ok (outputs, finish) ∧
      ∀ key value, held finish key = some value ↔
        lastPut (fun _ => none) [.put 'a' (some 1), .put 'b' (some 2), .get 'a' none,
          .put 'c' (some 3)] key = some value ∧
          (((uses new [] [.put 'a' (some 1), .put 'b' (some 2), .get 'a' none,
            .put 'c' (some 3)]).takeWhile fun other => other ≠ key).toFinset.card : Int) < 2 :=
  held_iff_recently_used 'z' (none : Option Nat) 2 (by decide) _

end Excalibur.LruCache
