import Excalibur.ConsistentHash.Ring

/-! # Lookups and membership

The three structures of a ring agree when the listed positions are the keys of
the dictionary; then a lookup never fails and answers with a member.

Two virtual nodes may fall on one position.  The list then holds the position
twice while the dictionary has one entry, and removing the node that owns the
entry clears it but leaves a list entry behind.  `ring_sound_iff` says that this
is the only way the structures part: a run keeps them in step exactly when no
call removes a node that owns a position listed more than once.
-/

namespace Excalibur.ConsistentHash

open Excalibur.Library Excalibur.Python

variable {hash : Str → Position} {vnodes : Nat} {r : ConsistentHashRing}

/-! ## What is asked of a ring -/

/-- The listed positions are the dictionary's keys, and every lookup answers with
    a current member, or with `None` when there is no member. -/
structure Sound (hash : Str → Position) (r : ConsistentHashRing) : Prop where
  keys_agree : ∀ p, p ∈ r.sortedKeys ↔ p ∈ r.ring
  lookup_answers : ∀ key, ∃ owner, getNode hash r key = .ok owner ∧
    (owner = none ↔ r.nodes = ∅) ∧ ∀ node, owner = some node → node ∈ r.nodes

/-- The call does not remove a node that owns a position listed more than once. -/
def SparesSharedPositions (r : ConsistentHashRing) : Call → Prop
  | .addNode _ => True
  | .removeNode node => ∀ p, r.ring.lookup p = some node → r.sortedKeys.toList.count p = 1

/-! ## What holds in every reachable state, collisions or not -/

/-- Owners are members that have a virtual node at the position they own, and
    owned positions are listed. -/
structure WellFormed (hash : Str → Position) (vnodes : Nat) (r : ConsistentHashRing) : Prop where
  vnodes_eq : r.vnodes = vnodes
  owner_member : ∀ p node, r.ring.lookup p = some node → node ∈ r.nodes
  owner_position : ∀ p node, r.ring.lookup p = some node → p ∈ positions hash vnodes node
  owned_listed : ∀ p node, r.ring.lookup p = some node → p ∈ r.sortedKeys

theorem wellFormed_empty : WellFormed hash vnodes (emptyRing vnodes) where
  vnodes_eq := rfl
  owner_member := by simp [emptyRing]
  owner_position := by simp [emptyRing]
  owned_listed := by simp [emptyRing]

theorem WellFormed.addNode (wf : WellFormed hash vnodes r) (node : Str) :
    WellFormed hash vnodes (addNode hash r node) := by
  by_cases member : node ∈ r.nodes
  · rwa [addNode_of_mem hash member]
  · have lookup := addNode_lookup hash member
    rw [wf.vnodes_eq] at lookup
    refine ⟨by rw [addNode_vnodes, wf.vnodes_eq], ?_, ?_, ?_⟩
    · intro p owner owned
      rw [lookup] at owned
      split at owned
      · cases owned
        simp
      · simp [wf.owner_member p owner owned]
    · intro p owner owned
      rw [lookup] at owned
      split at owned
      · cases owned
        assumption
      · exact wf.owner_position p owner owned
    · intro p owner owned
      -- A point owned now is a new one, inserted here, or was owned and listed before.
      rw [SortedList.mem_iff_count_pos, addNode_count hash member, wf.vnodes_eq]
      rw [lookup] at owned
      split at owned
      · rename_i placed
        have := List.count_pos_iff.mpr placed
        omega
      · have := SortedList.mem_iff_count_pos.mp (wf.owned_listed p owner owned)
        omega

theorem WellFormed.removeNode_lookup_some (wf : WellFormed hash vnodes r) {node owner : Str}
    (member : node ∈ r.nodes) {p : Position} :
    (removeNode hash r node).ring.lookup p = some owner ↔
      r.ring.lookup p = some owner ∧ owner ≠ node := by
  rw [removeNode_lookup hash member, wf.vnodes_eq]
  constructor
  · intro owned
    split at owned
    · contradiction
    · rename_i kept
      refine ⟨owned, ?_⟩
      intro same
      subst same
      exact kept ⟨wf.owner_position p _ owned, owned⟩
  · rintro ⟨owned, other⟩
    rw [if_neg]
    · exact owned
    · rintro ⟨-, ownedByNode⟩
      rw [owned] at ownedByNode
      exact other (Option.some.inj ownedByNode)

theorem WellFormed.removeNode (wf : WellFormed hash vnodes r) (node : Str) :
    WellFormed hash vnodes (removeNode hash r node) := by
  by_cases member : node ∈ r.nodes
  · refine ⟨by rw [removeNode_vnodes, wf.vnodes_eq], ?_, ?_, ?_⟩
    · intro p owner owned
      obtain ⟨owned, other⟩ := (wf.removeNode_lookup_some member).mp owned
      simp [other, wf.owner_member p owner owned]
    · intro p owner owned
      obtain ⟨owned, other⟩ := (wf.removeNode_lookup_some member).mp owned
      exact wf.owner_position p owner owned
    · intro p owner owned
      obtain ⟨owned, other⟩ := (wf.removeNode_lookup_some member).mp owned
      have spared : ¬ (p ∈ positions hash r.vnodes node ∧ r.ring.lookup p = some node) := by
        rintro ⟨-, ownedByNode⟩
        rw [owned] at ownedByNode
        exact other (Option.some.inj ownedByNode)
      rw [SortedList.mem_iff_count_pos, removeNode_count hash member (fun q => wf.owned_listed q node),
        if_neg spared]
      exact SortedList.mem_iff_count_pos.mp (wf.owned_listed p owner owned)
  · rwa [removeNode_of_not_mem hash member]

theorem wellFormed_visited {calls : List Call} :
    ∀ r, Visited (step hash) (emptyRing vnodes) calls r → WellFormed hash vnodes r := by
  refine run_invariant wellFormed_empty ?_ calls
  intro r call next stepped wf
  cases stepped
  cases call with
  | addNode node => exact wf.addNode node
  | removeNode node => exact wf.removeNode node

/-! ## The structures in step -/

/-- Every listed position is owned, and a member that does not own one of its
    positions shares it with another virtual node that is still listed. -/
structure InStep (hash : Str → Position) (vnodes : Nat) (r : ConsistentHashRing) : Prop where
  listed_owned : ∀ p, p ∈ r.sortedKeys → ∃ node, r.ring.lookup p = some node
  claimed : ∀ node ∈ r.nodes, ∀ p ∈ positions hash vnodes node,
    r.ring.lookup p = some node ∨ 2 ≤ r.sortedKeys.toList.count p

theorem inStep_empty : InStep hash vnodes (emptyRing vnodes) where
  listed_owned := by simp [emptyRing, SortedList.mem_def]
  claimed := by simp [emptyRing]

theorem InStep.addNode (wf : WellFormed hash vnodes r) (inStep : InStep hash vnodes r) (node : Str) :
    InStep hash vnodes (addNode hash r node) := by
  by_cases member : node ∈ r.nodes
  · rwa [addNode_of_mem hash member]
  · have lookup := addNode_lookup hash member
    have count := addNode_count hash member
    rw [wf.vnodes_eq] at lookup count
    refine ⟨?_, ?_⟩
    · intro p listed
      rw [lookup]
      by_cases placed : p ∈ positions hash vnodes node
      · exact ⟨node, if_pos placed⟩
      · rw [if_neg placed]
        apply inStep.listed_owned
        rw [SortedList.mem_iff_count_pos, count, List.count_eq_zero_of_not_mem placed] at listed
        exact SortedList.mem_iff_count_pos.mpr listed
    · intro other otherMember p claims
      rw [lookup, count]
      by_cases placed : p ∈ positions hash vnodes node
      · have placedPositive := List.count_pos_iff.mpr placed
        rw [if_pos placed]
        rcases eq_or_ne other node with rfl | distinct
        · exact .inl rfl
        · -- The earlier claim on `p` is listed already, and the new node lists it again.
          have wasMember : other ∈ r.nodes := by
            simpa [distinct] using otherMember
          have listed : 0 < r.sortedKeys.toList.count p := by
            cases inStep.claimed other wasMember p claims with
            | inl owned => exact SortedList.mem_iff_count_pos.mp (wf.owned_listed p other owned)
            | inr shared => omega
          exact .inr (by omega)
      · rw [if_neg placed]
        -- The new node does not claim `p`, so the claim is an earlier one.
        have distinct : other ≠ node := by
          intro same
          subst same
          exact placed claims
        have wasMember : other ∈ r.nodes := by
          simpa [distinct] using otherMember
        cases inStep.claimed other wasMember p claims with
        | inl owned => exact .inl owned
        | inr shared => exact .inr (by omega)

theorem InStep.removeNode (wf : WellFormed hash vnodes r) (inStep : InStep hash vnodes r)
    {node : Str} (spares : SparesSharedPositions r (.removeNode node)) :
    InStep hash vnodes (removeNode hash r node) := by
  by_cases member : node ∈ r.nodes
  · have lookup := removeNode_lookup hash member
    have count := removeNode_count hash member (fun q => wf.owned_listed q node)
    rw [wf.vnodes_eq] at lookup count
    refine ⟨?_, ?_⟩
    · intro p listed
      rw [lookup]
      rw [SortedList.mem_iff_count_pos, count] at listed
      split at listed
      · -- A cleared position was listed once, so nothing of it is left.
        rename_i cleared
        have once := spares p cleared.2
        omega
      · rename_i kept
        rw [if_neg kept]
        exact inStep.listed_owned p (SortedList.mem_iff_count_pos.mpr (by omega))
    · intro other otherMember p claims
      simp only [removeNode_nodes, Finset.mem_erase] at otherMember
      rw [lookup, count]
      cases inStep.claimed other otherMember.2 p claims with
      | inl owned =>
        -- The owner is another member, so the removal passes the slot by.
        have kept : ¬ (p ∈ positions hash vnodes node ∧ r.ring.lookup p = some node) := by
          rintro ⟨-, ownedByNode⟩
          rw [owned] at ownedByNode
          exact otherMember.1 (Option.some.inj ownedByNode)
        rw [if_neg kept]
        exact .inl owned
      | inr shared =>
        -- A shared position is not owned by the removed node, so it keeps both entries.
        have kept : ¬ (p ∈ positions hash vnodes node ∧ r.ring.lookup p = some node) := by
          rintro ⟨-, ownedByNode⟩
          have once := spares p ownedByNode
          omega
        rw [if_neg kept, if_neg kept]
        exact .inr (by omega)
  · rwa [removeNode_of_not_mem hash member]

/-! ## From agreement to sound lookups -/

theorem getNode_of_inStep (wf : WellFormed hash vnodes r) (inStep : InStep hash vnodes r)
    (nonempty : r.sortedKeys.toList ≠ []) (key : Str) :
    ∃ node, getNode hash r key = .ok (some node) ∧ node ∈ r.nodes := by
  have positive := List.length_pos_iff.mpr nonempty
  have inside := r.sortedKeys.bisectRight_le_length (hash key)
  obtain ⟨idx, bound, idx_eq⟩ : ∃ idx, idx < r.sortedKeys.toList.length ∧
      (if r.sortedKeys.bisectRight (hash key) = r.sortedKeys.toList.length then 0
        else r.sortedKeys.bisectRight (hash key)) = idx := by
    -- The bisection ends inside the list or at its end, where the lookup starts over.
    refine ⟨_, ?_, rfl⟩
    split <;> omega
  obtain ⟨node, owned⟩ := inStep.listed_owned _ (List.getElem_mem bound)
  refine ⟨node, ?_, wf.owner_member _ _ owned⟩
  simp only [getNode, if_neg nonempty, idx_eq, List.getElem?_eq_getElem bound, owned]

theorem sortedKeys_eq_nil_iff (positive : 1 ≤ vnodes) (wf : WellFormed hash vnodes r)
    (inStep : InStep hash vnodes r) : r.sortedKeys.toList = [] ↔ r.nodes = ∅ := by
  constructor
  · intro empty
    by_contra someMember
    obtain ⟨node, member⟩ := Finset.nonempty_iff_ne_empty.mpr someMember
    -- A member has at least one position, which is owned or listed twice.
    have first : hash (vnodeLabel node 0) ∈ positions hash vnodes node :=
      List.mem_map.mpr ⟨0, List.mem_range.mpr positive, rfl⟩
    cases inStep.claimed node member _ first with
    | inl owned =>
      have listed := wf.owned_listed _ _ owned
      rw [SortedList.mem_def, empty] at listed
      contradiction
    | inr shared => simp [empty] at shared
  · intro noMember
    by_contra nonempty
    obtain ⟨node, _, member⟩ := getNode_of_inStep wf inStep nonempty []
    simp [noMember] at member

theorem InStep.sound (positive : 1 ≤ vnodes) (wf : WellFormed hash vnodes r)
    (inStep : InStep hash vnodes r) : Sound hash r where
  keys_agree p := by
    rw [← AList.lookup_isSome, Option.isSome_iff_exists]
    exact ⟨inStep.listed_owned p, fun ⟨node, owned⟩ => wf.owned_listed p node owned⟩
  lookup_answers key := by
    by_cases empty : r.sortedKeys.toList = []
    · refine ⟨none, by simp [getNode, empty], ?_, by simp⟩
      simp [(sortedKeys_eq_nil_iff positive wf inStep).mp empty]
    · obtain ⟨node, answered, member⟩ := getNode_of_inStep wf inStep empty key
      refine ⟨some node, answered, ?_, ?_⟩
      · simp only [reduceCtorEq, false_iff]
        rw [← sortedKeys_eq_nil_iff positive wf inStep]
        exact empty
      · rintro owner ⟨⟩
        exact member

/-- Removing the owner of a position listed twice leaves a listed position that
    the dictionary does not have. -/
theorem removeNode_breaks (wf : WellFormed hash vnodes r) {node : Str} {p : Position}
    (owned : r.ring.lookup p = some node) (shared : r.sortedKeys.toList.count p ≠ 1) :
    ¬ Sound hash (removeNode hash r node) := by
  intro sound
  have member := wf.owner_member p node owned
  have cleared : p ∈ positions hash r.vnodes node ∧ r.ring.lookup p = some node := by
    rw [wf.vnodes_eq]
    exact ⟨wf.owner_position p node owned, owned⟩
  have listedBefore := SortedList.mem_iff_count_pos.mp (wf.owned_listed p node owned)
  have listed : p ∈ (removeNode hash r node).sortedKeys := by
    rw [SortedList.mem_iff_count_pos, removeNode_count hash member (fun q => wf.owned_listed q node),
      if_pos cleared]
    omega
  have present := AList.lookup_isSome.mpr ((sound.keys_agree p).mp listed)
  rw [removeNode_lookup hash member, if_pos cleared] at present
  contradiction

/-! ## Whole runs -/

/-- The ring is sound in every state of a run exactly when no call of the run
    removes a node that owns a position listed more than once. -/
theorem ring_sound_iff (hash : Str → Position) (vnodes : Nat) (positive : 1 ≤ vnodes)
    (calls : List Call) :
    (∀ r, Visited (step hash) (emptyRing vnodes) calls r → Sound hash r) ↔
      ∀ r call, Taken (step hash) (emptyRing vnodes) calls r call →
        SparesSharedPositions r call := by
  refine all_states_iff_all_steps (WellFormed hash vnodes) (InStep hash vnodes)
    wellFormed_visited inStep_empty ?_ ?_ ?_
  · intro r wf inStep
    exact inStep.sound positive wf
  · intro r call next wf inStep spares stepped
    cases stepped
    cases call with
    | addNode node => exact inStep.addNode wf node
    | removeNode node => exact inStep.removeNode wf spares
  · intro r call next wf strikes stepped
    cases stepped
    cases call with
    | addNode node => exact absurd trivial strikes
    | removeNode node =>
      simp only [SparesSharedPositions, not_forall] at strikes
      obtain ⟨p, owned, shared⟩ := strikes
      exact removeNode_breaks wf owned shared

/-- A hash that puts two labels on one position, the one MD5 gives them both. -/
def collidingHash (_ : Str) : Position := 4275199096

/-- `cache-3182` and `cache-5657` join with one virtual node each and the second
    leaves again. -/
def collisionCalls : List Call :=
  [.addNode "cache-3182".toList, .addNode "cache-5657".toList, .removeNode "cache-5657".toList]

theorem ring_sound_while_both_stay :
    1 ≤ 1 ∧ ∀ r, Visited (step collidingHash) (emptyRing 1) (collisionCalls.take 2) r →
      Sound collidingHash r := by
  refine ⟨le_refl 1, (ring_sound_iff collidingHash 1 (le_refl 1) _).mpr ?_⟩
  rintro r call ⟨before, after, -, split, -⟩
  have joins : ∀ call ∈ collisionCalls.take 2, ∃ node, call = .addNode node := by
    simp [collisionCalls]
  obtain ⟨node, rfl⟩ := joins call (by simp [split])
  exact trivial

/-- After the removal a member is left, yet every lookup raises `KeyError`. -/
theorem removal_after_collision_breaks_lookups :
    ∃ r, run (step collidingHash) (emptyRing 1) collisionCalls = some r ∧
      4275199096 ∈ r.sortedKeys ∧ 4275199096 ∉ r.ring ∧ "cache-3182".toList ∈ r.nodes ∧
      (∀ key, getNode collidingHash r key = .error .keyError) ∧ ¬ Sound collidingHash r := by
  refine ⟨_, rfl, by decide, by decide, by decide, fun _ => rfl, ?_⟩
  intro sound
  exact absurd ((sound.keys_agree 4275199096).mp (by decide)) (by decide)

end Excalibur.ConsistentHash
