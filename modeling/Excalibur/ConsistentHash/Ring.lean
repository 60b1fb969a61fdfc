import Excalibur.Library.Run
import Excalibur.Library.SortedList
import Excalibur.Python.Basic

/-! # The consistent-hashing ring

`ConsistentHashRing` keeps three redundant structures: the set of member nodes,
the dictionary from ring positions to nodes, and the sorted list of positions
that lookups search.  This module is the ring as the program computes it,
followed by one specification lemma for each structure and each operation: what
the loops over the virtual nodes do to the dictionary entry and to the number of
list entries of a given position.
-/

namespace Excalibur.ConsistentHash

open Excalibur.Library Excalibur.Python

/-- A position on the ring: four digest bytes read as an integer. -/
abbrev Position := Fin (2 ^ 32)

/-- `vnodes`, `_ring`, `_sorted_keys` and `_nodes`. -/
structure ConsistentHashRing where
  vnodes : Nat
  ring : Dict Position Str
  sortedKeys : SortedList Position
  nodes : Finset Str

def emptyRing (vnodes : Nat) : ConsistentHashRing where
  vnodes := vnodes
  ring := ∅
  sortedKeys := .empty
  nodes := ∅

def vnodeLabel (node : Str) (i : Nat) : Str := node ++ '#' :: strOfInt i

section Operations

variable (hash : Str → Position)

def positions (vnodes : Nat) (node : Str) : List Position :=
  (List.range vnodes).map fun i => hash (vnodeLabel node i)

def placeVnode (node : Str) (r : ConsistentHashRing) (pos : Position) : ConsistentHashRing :=
  { r with
    ring := r.ring.insert pos node
    sortedKeys := r.sortedKeys.insort pos }

def addNode (r : ConsistentHashRing) (node : Str) : ConsistentHashRing :=
  if node ∈ r.nodes then r
  else
    (positions hash r.vnodes node).foldl (placeVnode node) { r with nodes := insert node r.nodes }

def dropVnode (node : Str) (r : ConsistentHashRing) (pos : Position) : ConsistentHashRing :=
  -- A collision could have overwritten this slot.
  if r.ring.lookup pos = some node then
    let idx := r.sortedKeys.bisectLeft pos
    { r with
      ring := r.ring.erase pos
      sortedKeys :=
        if r.sortedKeys.toList[idx]? = some pos then r.sortedKeys.removeAt idx else r.sortedKeys }
  else r

def removeNode (r : ConsistentHashRing) (node : Str) : ConsistentHashRing :=
  if node ∉ r.nodes then r
  else
    (positions hash r.vnodes node).foldl (dropVnode node) { r with nodes := r.nodes.erase node }

def getNode (r : ConsistentHashRing) (key : Str) : Except PyError (Option Str) :=
  if r.sortedKeys.toList = [] then .ok none
  else
    let idx := r.sortedKeys.bisectRight (hash key)
    -- Behind the last position the ring wraps around.
    let idx := if idx = r.sortedKeys.toList.length then 0 else idx
    match r.sortedKeys.toList[idx]? with
    | none => .error .indexError
    | some pos =>
      match r.ring.lookup pos with
      | none => .error .keyError
      | some node => .ok (some node)

inductive Call where
  | addNode (node : Str)
  | removeNode (node : Str)
deriving DecidableEq

def apply (r : ConsistentHashRing) : Call → ConsistentHashRing
  | .addNode node => addNode hash r node
  | .removeNode node => removeNode hash r node

def step (r : ConsistentHashRing) (call : Call) : Option ConsistentHashRing :=
  some (apply hash r call)

def init (nodes : List Str) (vnodes : Nat) : ConsistentHashRing :=
  nodes.foldl (addNode hash) (emptyRing vnodes)

end Operations

/-! ## What `add_node` does at one position -/

section PlaceLoop

variable {node : Str} (placed : List Position) (r : ConsistentHashRing)

@[simp] theorem place_vnodes :
    (placed.foldl (placeVnode node) r).vnodes = r.vnodes := by
  induction placed generalizing r with
  | nil => rfl
  | cons pos placed ih => exact ih (placeVnode node r pos)

@[simp] theorem place_nodes :
    (placed.foldl (placeVnode node) r).nodes = r.nodes := by
  induction placed generalizing r with
  | nil => rfl
  | cons pos placed ih => exact ih (placeVnode node r pos)

theorem place_lookup (p : Position) :
    (placed.foldl (placeVnode node) r).ring.lookup p =
      if p ∈ placed then some node else r.ring.lookup p := by
  induction placed generalizing r with
  | nil => rfl
  | cons pos placed ih =>
    rw [List.foldl_cons, ih]
    by_cases later : p ∈ placed
    · simp [later]
    · rcases eq_or_ne p pos with rfl | other
      · simp [later, placeVnode]
      · simp [later, other, placeVnode, AList.lookup_insert_ne]

theorem place_count (p : Position) :
    (placed.foldl (placeVnode node) r).sortedKeys.toList.count p =
      r.sortedKeys.toList.count p + placed.count p := by
  induction placed generalizing r with
  | nil => rfl
  | cons pos placed ih =>
    rw [List.foldl_cons, ih, List.count_cons]
    simp only [placeVnode, SortedList.count_insort, beq_iff_eq]
    omega

end PlaceLoop

section AddNode

variable (hash : Str → Position) {r : ConsistentHashRing} {node : Str}

theorem addNode_of_mem (member : node ∈ r.nodes) : addNode hash r node = r := by
  simp [addNode, member]

@[simp] theorem addNode_vnodes : (addNode hash r node).vnodes = r.vnodes := by
  by_cases member : node ∈ r.nodes <;> simp [addNode, member]

@[simp] theorem addNode_nodes : (addNode hash r node).nodes = insert node r.nodes := by
  by_cases member : node ∈ r.nodes <;> simp [addNode, member]

theorem addNode_lookup (fresh : node ∉ r.nodes) (p : Position) :
    (addNode hash r node).ring.lookup p =
      if p ∈ positions hash r.vnodes node then some node else r.ring.lookup p := by
  simp only [addNode, if_neg fresh, place_lookup]

theorem addNode_count (fresh : node ∉ r.nodes) (p : Position) :
    (addNode hash r node).sortedKeys.toList.count p =
      r.sortedKeys.toList.count p + (positions hash r.vnodes node).count p := by
  simp only [addNode, if_neg fresh, place_count]

end AddNode

/-! ## What `remove_node` does at one position -/

section DropLoop

variable {node : Str} (dropped : List Position) (r : ConsistentHashRing)

@[simp] theorem drop_vnodes :
    (dropped.foldl (dropVnode node) r).vnodes = r.vnodes := by
  induction dropped generalizing r with
  | nil => rfl
  | cons pos dropped ih =>
    rw [List.foldl_cons, ih]
    simp only [dropVnode]
    split <;> rfl

@[simp] theorem drop_nodes :
    (dropped.foldl (dropVnode node) r).nodes = r.nodes := by
  induction dropped generalizing r with
  | nil => rfl
  | cons pos dropped ih =>
    rw [List.foldl_cons, ih]
    simp only [dropVnode]
    split <;> rfl

theorem dropVnode_lookup (pos p : Position) :
    (dropVnode node r pos).ring.lookup p =
      if p = pos ∧ r.ring.lookup p = some node then none else r.ring.lookup p := by
  simp only [dropVnode]
  by_cases owned : r.ring.lookup pos = some node
  · rcases eq_or_ne p pos with rfl | other
    · simp [owned]
    · simp [owned, other, AList.lookup_erase_ne]
  · rcases eq_or_ne p pos with rfl | other
    · simp [owned]
    · simp [owned, other]

theorem dropVnode_count {pos : Position} (listed : r.ring.lookup pos = some node → pos ∈ r.sortedKeys)
    (p : Position) :
    (dropVnode node r pos).sortedKeys.toList.count p =
      r.sortedKeys.toList.count p -
        if p = pos ∧ r.ring.lookup p = some node then 1 else 0 := by
  simp only [dropVnode]
  by_cases owned : r.ring.lookup pos = some node
  · have found := SortedList.getElem?_bisectLeft (listed owned)
    rw [if_pos owned]
    simp only [if_pos found, SortedList.count_removeAt_bisectLeft (listed owned)]
    rcases eq_or_ne p pos with rfl | other
    · simp [owned]
    · simp [other, other.symm]
  · rw [if_neg owned]
    rcases eq_or_ne p pos with rfl | other
    · simp [owned]
    · simp [other]

theorem drop_lookup (p : Position) :
    (dropped.foldl (dropVnode node) r).ring.lookup p =
      if p ∈ dropped ∧ r.ring.lookup p = some node then none else r.ring.lookup p := by
  induction dropped generalizing r with
  | nil => simp
  | cons pos dropped ih =>
    rw [List.foldl_cons, ih, dropVnode_lookup]
    rcases eq_or_ne p pos with rfl | other
    · by_cases owned : r.ring.lookup p = some node
      · simp [owned]
      · simp [owned]
    · simp [other]

/-- Only the first drop of a position can meet its slot filled, so a whole loop
    takes out one list entry however often the position is repeated. -/
theorem drop_count (listed : ∀ p, r.ring.lookup p = some node → p ∈ r.sortedKeys) (p : Position) :
    (dropped.foldl (dropVnode node) r).sortedKeys.toList.count p =
      r.sortedKeys.toList.count p -
        if p ∈ dropped ∧ r.ring.lookup p = some node then 1 else 0 := by
  induction dropped generalizing r with
  | nil => simp
  | cons pos dropped ih =>
    have count := dropVnode_count r (listed pos)
    have lookup : ∀ q, (dropVnode node r pos).ring.lookup q =
        if q = pos ∧ r.ring.lookup q = some node then none else r.ring.lookup q :=
      dropVnode_lookup r pos
    -- The slot that is cleared takes its list entry with it, so the others stay listed.
    have listedNext : ∀ q, (dropVnode node r pos).ring.lookup q = some node →
        q ∈ (dropVnode node r pos).sortedKeys := by
      intro q owned
      rw [lookup] at owned
      split at owned
      · contradiction
      · rename_i other
        rw [SortedList.mem_iff_count_pos, count, if_neg other]
        exact SortedList.mem_iff_count_pos.mp (listed q owned)
    rw [List.foldl_cons, ih _ listedNext, count, lookup]
    rcases eq_or_ne p pos with rfl | other
    · by_cases owned : r.ring.lookup p = some node
      · simp [owned]
      · simp [owned]
    · simp [other]

end DropLoop

section RemoveNode

variable (hash : Str → Position) {r : ConsistentHashRing} {node : Str}

theorem removeNode_of_not_mem (absent : node ∉ r.nodes) : removeNode hash r node = r := by
  simp [removeNode, absent]

@[simp] theorem removeNode_vnodes : (removeNode hash r node).vnodes = r.vnodes := by
  by_cases member : node ∈ r.nodes <;> simp [removeNode, member]

@[simp] theorem removeNode_nodes : (removeNode hash r node).nodes = r.nodes.erase node := by
  by_cases member : node ∈ r.nodes <;> simp [removeNode, member]

theorem removeNode_lookup (member : node ∈ r.nodes) (p : Position) :
    (removeNode hash r node).ring.lookup p =
      if p ∈ positions hash r.vnodes node ∧ r.ring.lookup p = some node then none
      else r.ring.lookup p := by
  simp only [removeNode, if_neg (not_not_intro member), drop_lookup]

theorem removeNode_count (member : node ∈ r.nodes)
    (listed : ∀ p, r.ring.lookup p = some node → p ∈ r.sortedKeys) (p : Position) :
    (removeNode hash r node).sortedKeys.toList.count p =
      r.sortedKeys.toList.count p -
        if p ∈ positions hash r.vnodes node ∧ r.ring.lookup p = some node then 1 else 0 := by
  simp only [removeNode, if_neg (not_not_intro member)]
  exact drop_count _ { r with nodes := r.nodes.erase node } listed p

end RemoveNode

end Excalibur.ConsistentHash
