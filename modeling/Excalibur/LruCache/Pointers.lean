import Excalibur.LruCache.Inclusion

/-! # The links and the counters

What a walk along the links finds in every reachable cache, as the consistency walk of the
thread-safety demo does it, in both directions.  The counters count calls: `hits` and
`misses` the gets, and the pairs with the evictions the puts of absent keys.
-/

namespace Excalibur.LruCache

open Excalibur.Library Excalibur.Python

variable {κ β : Type} [DecidableEq κ]

/-- `nodes` is what a walk from either sentinel meets before the other one. -/
structure Intact (c : LRUCache κ β) (nodes : List Ref) : Prop where
  forward : Heap.follow (fun r => (c.heap.cell r).next) c.tail (len c.map + 1) c.head = some nodes
  backward :
    Heap.follow (fun r => (c.heap.cell r).prev) c.head (len c.map + 1) c.tail = some nodes.reverse
  sized : nodes.length = len c.map
  distinct : nodes.Nodup
  real : c.head ∉ nodes ∧ c.tail ∉ nodes
  mapped : ∀ key r, c.map.lookup key = some r ↔ r ∈ nodes ∧ (c.heap.cell r).item.key = key
  bounded : (len c.map : Int) ≤ c.capacity

theorem Represents.intact {c : LRUCache κ β} {nodes : List Ref} (rep : Represents c nodes)
    (bounded : (len c.map : Int) ≤ c.capacity) : Intact c nodes := by
  obtain ⟨headOutside, distinct⟩ := List.nodup_cons.mp rep.distinct
  obtain ⟨nodesDistinct, -, apart⟩ := List.nodup_append.mp distinct
  have tailOutside : c.tail ∉ nodes := fun member => apart _ member _ (by simp) rfl
  have headOutsideNodes : c.head ∉ nodes := fun member => headOutside (by simp [member])
  refine ⟨?_, ?_, rep.sized.symm, nodesDistinct, ⟨headOutsideNodes, tailOutside⟩, rep.mapped,
    bounded⟩
  · rw [rep.sized]
    exact rep.linked.follow_next tailOutside
  · rw [rep.sized]
    exact rep.linked.follow_prev headOutsideNodes

theorem Simulates.len_map {c : LRUCache κ β} {m : LruModel κ β} (simulates : Simulates c m) :
    len c.map = m.items.length := by
  obtain ⟨nodes, rep, items⟩ := simulates.represented
  rw [rep.sized, ← items, contents, List.length_map]

theorem Simulates.intact {c : LRUCache κ β} {m : LruModel κ β} (simulates : Simulates c m) :
    ∃ nodes, Intact c nodes := by
  obtain ⟨nodes, rep, -⟩ := id simulates.represented
  refine ⟨nodes, rep.intact ?_⟩
  rw [simulates.len_map, simulates.capacity]
  exact m.bounded

theorem Simulates.absent_iff {c : LRUCache κ β} {m : LruModel κ β} (simulates : Simulates c m)
    (key : κ) : c.map.lookup key = none ↔ m.items.lookup key = none := by
  rw [← simulates.held_eq, held, Option.map_eq_none_iff]

/-! ## The counters -/

def Call.isGet : Call κ β → Bool
  | .get .. => true
  | .put .. => false

/-- The call is a `put`, and its key is in no pair. -/
def putsAbsent (c : LRUCache κ β) : Call κ β → Bool
  | .get .. => false
  | .put key _ => (c.map.lookup key).isNone

/-- How many calls put a key that is absent at that time. -/
def absentPuts (c : LRUCache κ β) : List (Call κ β) → Nat
  | [] => 0
  | request :: requests =>
    (putsAbsent c request).toNat +
      match call c request with
      | .ok (_, next) => absentPuts next requests
      | .error _ => 0

def LruModel.putsAbsent (m : LruModel κ β) : Call κ β → Bool
  | .get .. => false
  | .put key _ => (m.items.lookup key).isNone

/-- A `get` is a hit or a miss; a pair enters at every `put` of an absent key, and leaves by
    eviction only. -/
structure LruModel.Counted (m next : LruModel κ β) (request : Call κ β) : Prop where
  capacity : next.capacity = m.capacity
  lookups : next.hits + next.misses = m.hits + m.misses + request.isGet.toNat
  pairs : next.items.length + next.evictions =
    m.items.length + m.evictions + (m.putsAbsent request).toNat

theorem LruModel.counted_get (m : LruModel κ β) (key : κ) (default : β) :
    m.Counted (m.get key default).2 (.get key default) := by
  cases found : m.items.lookup key with
  | none =>
    rw [LruModel.get_absent found]
    exact ⟨rfl, (Nat.add_assoc ..).symm, rfl⟩
  | some value =>
    obtain ⟨_, _, got⟩ := LruModel.get_present found default
    rw [got]
    refine ⟨rfl, Nat.add_right_comm .., ?_⟩
    simp only [length_touch m.distinct found]
    rfl

theorem LruModel.counted_put (m : LruModel κ β) (key : κ) (value : β) :
    m.Counted (m.put key value) (.put key value) := by
  cases found : m.items.lookup key with
  | some old =>
    obtain ⟨_, _, put⟩ := LruModel.put_present found value
    rw [put]
    refine ⟨rfl, rfl, ?_⟩
    simp only [length_touch m.distinct found, LruModel.putsAbsent, found]
    rfl
  | none =>
    have absent : m.putsAbsent (.put key value) = true := by
      rw [LruModel.putsAbsent, found, Option.isNone_none]
    -- a new pair either stays or costs the last one
    by_cases fits : (((key, value) :: m.items).length : Int) ≤ m.capacity
    · obtain ⟨_, _, put⟩ := LruModel.put_fits found fits
      rw [put]
      refine ⟨rfl, rfl, ?_⟩
      rw [absent]
      exact Nat.add_right_comm ..
    · obtain ⟨_, _, put⟩ := LruModel.put_full found (not_le.mp fits)
      rw [put]
      refine ⟨rfl, rfl, ?_⟩
      simp only [absent, List.length_dropLast, List.length_cons, Nat.add_sub_cancel]
      exact (Nat.add_assoc ..).symm

theorem LruModel.counted_answer (m : LruModel κ β) (request : Call κ β) :
    m.Counted (m.answer request).2 request := by
  cases request with
  | get key default => exact m.counted_get key default
  | put key value => exact m.counted_put key value

theorem Simulates.putsAbsent_eq {c : LRUCache κ β} {m : LruModel κ β} (simulates : Simulates c m)
    (request : Call κ β) : m.putsAbsent request = putsAbsent c request := by
  cases request with
  | get key default => rfl
  | put key value =>
    rw [putsAbsent, LruModel.putsAbsent, Bool.eq_iff_iff, Option.isNone_iff_eq_none,
      Option.isNone_iff_eq_none]
    exact (simulates.absent_iff key).symm

/-- What a run adds to the counters. -/
theorem Simulates.counts {c finish : LRUCache κ β} {m : LruModel κ β} (simulates : Simulates c m)
    {requests : List (Call κ β)} {outputs : List (Option β)}
    (returned : calls call c requests = .ok (outputs, finish)) :
    finish.capacity = c.capacity ∧
      finish.hits + finish.misses = c.hits + c.misses + requests.countP Call.isGet ∧
      len finish.map + finish.evictions = len c.map + c.evictions + absentPuts c requests := by
  induction requests generalizing c m outputs with
  | nil =>
    cases returned
    exact ⟨rfl, rfl, rfl⟩
  | cons request requests ih =>
    obtain ⟨next, called, related⟩ := forward c m request simulates
    simp only [calls, called] at returned
    split at returned
    · cases returned
    · rename_i outputs' finish' rest
      cases returned
      obtain ⟨capacity, lookups, pairs⟩ := ih related rest
      -- the model counts the call, and the simulation carries the counts over
      have step := m.counted_answer request
      have stepCapacity := step.capacity
      have stepLookups := step.lookups
      have stepPairs := step.pairs
      rw [← related.capacity, ← simulates.capacity] at stepCapacity
      rw [← related.hits, ← related.misses, ← simulates.hits, ← simulates.misses] at stepLookups
      rw [simulates.putsAbsent_eq, ← related.len_map, ← simulates.len_map, ← related.evictions,
        ← simulates.evictions] at stepPairs
      simp only [absentPuts, called]
      refine ⟨capacity.trans stepCapacity, ?_, by omega⟩
      rw [lookups, stepLookups, List.countP_cons]
      cases request.isGet
      · simp
      · simp only [Bool.toNat_true, if_true]
        omega

/-- After any calls on a new cache: a walk from either sentinel meets the other one behind
    all nodes of the dictionary, and the counters count the gets and the pairs. -/
theorem links_and_counters_intact (noneKey : κ) (noneValue : β) (capacity : Int)
    (positive : 0 < capacity) (requests : List (Call κ β)) :
    ∃ new outputs finish nodes, init noneKey noneValue capacity = .ok new ∧
      calls call new requests = .ok (outputs, finish) ∧ finish.capacity = capacity ∧
      Intact finish nodes ∧
      finish.hits + finish.misses = requests.countP Call.isGet ∧
      absentPuts new requests = len finish.map + finish.evictions := by
  obtain ⟨new, created, start⟩ := init_simulates noneKey noneValue positive
  obtain ⟨finish, returned, related⟩ := forward.calls start requests
  obtain ⟨nodes, intact⟩ := related.intact
  obtain ⟨sameCapacity, lookups, pairs⟩ := start.counts returned
  refine ⟨new, _, finish, nodes, created, returned, ?_, intact, ?_, ?_⟩
  · rw [sameCapacity, start.capacity]
    rfl
  · rw [lookups, start.hits, start.misses]
    exact Nat.zero_add _
  · rw [pairs, start.len_map, start.evictions]
    exact (Nat.zero_add _).symm

/-- With capacity 2, three keys put and one of them evicted. -/
theorem three_puts_intact :
    ∃ new outputs finish nodes, init 'z' none 2 = .ok new ∧
      calls call new [.put 'a' (some 1), .put 'b' (some 2), .get 'a' none, .put 'c' (some 3),
        .put 'a' none] = .ok (outputs, finish) ∧ Intact finish nodes ∧
      finish.hits + finish.misses = 1 ∧ 3 = len finish.map + finish.evictions := by
  obtain ⟨new, outputs, finish, nodes, created, returned, -, intact, lookups, pairs⟩ :=
    links_and_counters_intact 'z' (none : Option Nat) 2 (by decide)
      [.put 'a' (some 1), .put 'b' (some 2), .get 'a' none, .put 'c' (some 3), .put 'a' none]
  refine ⟨new, outputs, finish, nodes, created, returned, intact, lookups, ?_⟩
  cases created
  exact pairs

end Excalibur.LruCache
