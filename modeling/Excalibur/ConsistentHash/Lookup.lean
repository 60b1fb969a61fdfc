import Excalibur.ConsistentHash.Placement

/-! # Keys on a virtual node

The comment in `get_node` promises the first ring position at or after the key, and
`bisect_right` passes over a position that is the key's own.  The key then goes to the
node of the next position, which is the promised one only if both belong to one node.
-/

namespace Excalibur.ConsistentHash

open Excalibur.Library Excalibur.Python

variable {hash : Str → Position} {vnodes : Nat} {r : ConsistentHashRing} {key : Str}

/-- The key goes to the owner of the first position at or after it. -/
def FirstAtOrAfter (hash : Str → Position) (r : ConsistentHashRing) (key : Str) : Prop :=
  ∃ p node, AtOrAfter (hash key) {q | q ∈ r.sortedKeys} p ∧ r.ring.lookup p = some node ∧
    getNode hash r key = .ok (some node)

/-- A position that is the key's own belongs to the node of the position behind it. -/
def NextOfSameNode (hash : Str → Position) (r : ConsistentHashRing) (key : Str) : Prop :=
  hash key ∈ r.sortedKeys → ∃ p, Nearest (hash key) {q | q ∈ r.sortedKeys} p ∧
    r.ring.lookup p = r.ring.lookup (hash key)

/-- What a lookup in a ring with positions takes. -/
theorem Canonical.takes (canonical : Canonical hash vnodes r) (nonempty : r.sortedKeys.toList ≠ [])
    (key : Str) :
    ∃ p node, Nearest (hash key) {q | q ∈ r.sortedKeys} p ∧ r.ring.lookup p = some node ∧
      getNode hash r key = .ok (some node) := by
  obtain ⟨p, found, nearest⟩ := SortedList.clockwise_nearest nonempty (hash key)
  obtain ⟨node, claims⟩ := (canonical.listed_iff p).mp nearest.member
  have owned := (canonical.owned_iff p node).mpr claims
  exact ⟨p, node, nearest, owned, getNode_of_clockwise found owned⟩

theorem first_at_or_after_iff (hash : Str → Position) (vnodes : Nat) (calls : List Call)
    (r : ConsistentHashRing) (reached : run (step hash) (emptyRing vnodes) calls = some r)
    (distinct : DistinctPositions hash vnodes (joined calls))
    (nonempty : r.sortedKeys.toList ≠ []) (key : Str) :
    FirstAtOrAfter hash r key ↔ NextOfSameNode hash r key := by
  obtain ⟨canonical, -⟩ := canonical_visited distinct r (visited_finish reached)
  obtain ⟨next, taken, nearest, owned, answered⟩ := canonical.takes nonempty key
  constructor
  · rintro ⟨p, node, first, ownedFirst, answeredFirst⟩ listed
    obtain rfl := first.unique (atOrAfter_self listed)
    rw [answered] at answeredFirst
    cases answeredFirst
    exact ⟨next, nearest, by rw [owned, ownedFirst]⟩
  · intro sameNode
    by_cases listed : hash key ∈ r.sortedKeys
    · obtain ⟨p, nearest', same⟩ := sameNode listed
      obtain rfl := nearest'.unique nearest
      exact ⟨hash key, taken, atOrAfter_self listed, by rw [← same, owned], answered⟩
    · exact ⟨next, taken, nearest.atOrAfter listed, owned, answered⟩

theorem dog_goes_to_first_letter :
    ∃ r, run (step letterHash) (emptyRing 1) letterCalls = some r ∧
      FirstAtOrAfter letterHash r "dog".toList := by
  refine ⟨_, rfl, (first_at_or_after_iff letterHash 1 letterCalls _ rfl (by decide) (by decide)
    "dog".toList).mpr ?_⟩
  intro listed
  exact absurd listed (by decide)

/-- The positions that MD5 gives the two labels of one virtual node each. -/
def cacheHash (text : Str) : Position :=
  if text = "cache-b#0".toList then ⟨1839967106, by decide⟩ else ⟨865605960, by decide⟩

def cacheCalls : List Call := [.addNode "cache-a".toList, .addNode "cache-b".toList]

/-- The key is the text of a label, so it falls on that virtual node, and it goes to the
    other node. -/
theorem key_on_vnode_passes_over : ∃ r, run (step cacheHash) (emptyRing 1) cacheCalls = some r ∧
    DistinctPositions cacheHash 1 (joined cacheCalls) ∧ r.sortedKeys.toList ≠ [] ∧
    getNode cacheHash r "cache-a#0".toList = .ok (some "cache-b".toList) ∧
    r.ring.lookup (cacheHash "cache-a#0".toList) = some "cache-a".toList ∧
    ¬ FirstAtOrAfter cacheHash r "cache-a#0".toList := by
  refine ⟨_, rfl, by decide, by decide, by decide, by decide, ?_⟩
  rintro ⟨p, node, first, owned, answered⟩
  obtain rfl := first.unique (atOrAfter_self (by decide))
  -- The position is one node's and the answer the other.
  have here : some node = some "cache-a".toList := owned.symm.trans (by decide)
  have there : (Except.ok (some node) : Except PyError (Option Str)) =
      .ok (some "cache-b".toList) := answered.symm.trans (by decide)
  rw [here] at there
  exact absurd there (by decide)

end Excalibur.ConsistentHash
