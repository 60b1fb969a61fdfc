import Excalibur.Library.LinkedHeap
import Excalibur.Library.Simulation
import Excalibur.LruCache.Model
import Excalibur.Python.Basic

/-! # The cache: a dictionary into a doubly linked list

`LRUCache` as it is written, one link write after the other.  The lock around
every operation makes an operation one call.  Keys stand for their classes under
`==`, and the two sentinels carry `None` as key and value.
-/

namespace Excalibur.LruCache

open Excalibur.Library Excalibur.Python

/-- The `key` and `value` of a `_Node`. -/
structure Entry (κ β : Type) where
  key : κ
  value : β

structure LRUCache (κ β : Type) where
  capacity : Int
  map : Dict κ Ref
  heap : Heap (Entry κ β)
  head : Ref
  tail : Ref
  hits : Nat
  misses : Nat
  evictions : Nat

inductive Call (κ β : Type) where
  | get (key : κ) (default : β)
  | put (key : κ) (value : β)

section Splices

variable {α : Type}

/-- The node of a link; `None` has no attributes. -/
def target : Option Ref → Except PyError Ref
  | some node => .ok node
  | none => .error .attributeError

def remove (h : Heap α) (node : Ref) : Except PyError (Heap α) := do
  let before ← target (h.cell node).prev
  let h := h.setNext before (h.cell node).next
  let after ← target (h.cell node).next
  return h.setPrev after (h.cell node).prev

def pushFront (h : Heap α) (head node : Ref) : Except PyError (Heap α) := do
  let h := h.setPrev node (some head)
  let h := h.setNext node (h.cell head).next
  let after ← target (h.cell head).next
  let h := h.setPrev after (some node)
  return h.setNext head (some node)

end Splices

section Operations

variable {κ β : Type} [DecidableEq κ]

def init (noneKey : κ) (noneValue : β) (capacity : Int) : Except PyError (LRUCache κ β) :=
  if 0 < capacity then
    let (head, h) := (Heap.empty ⟨noneKey, noneValue⟩).alloc ⟨noneKey, noneValue⟩
    let (tail, h) := h.alloc ⟨noneKey, noneValue⟩
    let h := h.setNext head (some tail)
    let h := h.setPrev tail (some head)
    .ok ⟨capacity, ∅, h, head, tail, 0, 0, 0⟩
  else .error .assertionError

def get (c : LRUCache κ β) (key : κ) (default : β) : Except PyError (β × LRUCache κ β) :=
  match c.map.lookup key with
  | none => .ok (default, { c with misses := c.misses + 1 })
  | some node => do
    let c := { c with hits := c.hits + 1 }
    let h ← remove c.heap node
    let h ← pushFront h c.head node
    return ((h.cell node).item.value, { c with heap := h })

def put (c : LRUCache κ β) (key : κ) (value : β) : Except PyError (LRUCache κ β) :=
  match c.map.lookup key with
  | some node => do
    let h := c.heap.setItem node ⟨(c.heap.cell node).item.key, value⟩
    let h ← remove h node
    let h ← pushFront h c.head node
    return { c with heap := h }
  | none => do
    let (node, h) := c.heap.alloc ⟨key, value⟩
    let map := c.map.insert key node
    let h ← pushFront h c.head node
    if c.capacity < len map then
      -- Evict the least recently used: the node before the tail sentinel.
      let lru ← target (h.cell c.tail).prev
      let h ← remove h lru
      let map ← delItem map (h.cell lru).item.key
      return { c with map := map, heap := h, evictions := c.evictions + 1 }
    return { c with map := map, heap := h }

/-- What a call returns, `put` nothing, and the cache afterwards. -/
def call (c : LRUCache κ β) : Call κ β → Except PyError (Option β × LRUCache κ β)
  | .get key default => do
    let (value, c) ← get c key default
    return (some value, c)
  | .put key value => do
    let c ← put c key value
    return (none, c)

/-- What the abstract cache answers to the same call. -/
def LruModel.answer (m : LruModel κ β) : Call κ β → Option β × LruModel κ β
  | .get key default => (some (m.get key default).1, (m.get key default).2)
  | .put key value => (none, m.put key value)

end Operations

end Excalibur.LruCache
