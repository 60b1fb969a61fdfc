import Excalibur.ConsistentHash.Membership
import Excalibur.Library.Circle

/-! # Where keys are placed

A lookup takes the listed position that is nearest on the circle, and an addition only
adds positions, so a key moves to the new node or stays, collisions or not
(`addNode_moves`).

As long as no two virtual nodes share a position, the dictionary and the list are
functions of the member set (`Canonical`), and so is the owner of a key (`Places`).
Removals and whole histories are then compared through the member sets alone.
-/

namespace Excalibur.ConsistentHash

open Excalibur.Library Excalibur.Python

variable {hash : Str → Position} {vnodes : Nat} {r s : ConsistentHashRing} {key node : Str}

/-! ## A lookup goes to the nearest position -/

theorem getNode_of_clockwise {p : Position} {owner : Str}
    (nearest : r.sortedKeys.clockwise (hash key) = some p)
    (owned : r.ring.lookup p = some owner) : getNode hash r key = .ok (some owner) := by
  have nonempty : r.sortedKeys.toList ≠ [] := by
    intro empty
    rw [SortedList.clockwise_empty empty] at nearest
    contradiction
  rw [SortedList.clockwise] at nearest
  simp only [getNode, if_neg nonempty, nearest, owned]

/-- A lookup that does not fail found an owned position, or nothing is listed. -/
theorem getNode_eq_ok {owner : Option Str} (answered : getNode hash r key = .ok owner) :
    (r.sortedKeys.toList = [] ∧ owner = none) ∨
      ∃ p node, Nearest (hash key) {q | q ∈ r.sortedKeys} p ∧
        r.ring.lookup p = some node ∧ owner = some node := by
  by_cases empty : r.sortedKeys.toList = []
  · simp only [getNode, if_pos empty, Except.ok.injEq] at answered
    exact .inl ⟨empty, answered.symm⟩
  · right
    obtain ⟨p, found, nearest⟩ := SortedList.clockwise_nearest empty (hash key)
    cases owned : r.ring.lookup p with
    | some node =>
      rw [getNode_of_clockwise found owned, Except.ok.injEq] at answered
      exact ⟨p, node, nearest, owned, answered.symm⟩
    | none =>
      rw [SortedList.clockwise] at found
      simp only [getNode, if_neg empty, found, owned] at answered
      contradiction

theorem addNode_listed (fresh : node ∉ r.nodes) :
    {p | p ∈ (addNode hash r node).sortedKeys} =
      {p | p ∈ r.sortedKeys} ∪ {p | p ∈ positions hash r.vnodes node} := by
  ext p
  simp only [Set.mem_ofPred_eq, Set.mem_union, SortedList.mem_iff_count_pos,
    addNode_count hash fresh, ← List.count_pos_iff]
  omega

/-- A key keeps its owner or goes to the node that joins. -/
theorem addNode_moves {owner : Option Str} (answered : getNode hash r key = .ok owner)
    (node : Str) :
    getNode hash (addNode hash r node) key = .ok owner ∨
      getNode hash (addNode hash r node) key = .ok (some node) := by
  by_cases member : node ∈ r.nodes
  · rw [addNode_of_mem hash member]
    exact .inl answered
  · by_cases nothing : (addNode hash r node).sortedKeys.toList = []
    · -- Then nothing was listed before either.
      have after : getNode hash (addNode hash r node) key = .ok none := by
        simp [getNode, nothing]
      have listed : {p | p ∈ (addNode hash r node).sortedKeys} = _ := addNode_listed member
      simp only [SortedList.mem_def, nothing, List.not_mem_nil, Set.ofPred_false,
        eq_comm (a := (∅ : Set Position)), Set.union_empty_iff] at listed
      cases getNode_eq_ok answered with
      | inl empty => exact .inl (by rw [after, empty.2])
      | inr found =>
        obtain ⟨p, owned, nearest, -⟩ := found
        exact absurd nearest.member (Set.eq_empty_iff_forall_notMem.mp listed.1 p)
    -- The walk now ends at `q`: a new point, or an old one that stayed nearest.
    · obtain ⟨q, found, nearest⟩ := SortedList.clockwise_nearest nothing (hash key)
      have lookup := addNode_lookup hash member q
      by_cases placed : q ∈ positions hash r.vnodes node
      · rw [if_pos placed] at lookup
        exact .inr (getNode_of_clockwise found lookup)
      · rw [if_neg placed] at lookup
        rw [addNode_listed member] at nearest
        left
        cases getNode_eq_ok answered with
        | inl empty =>
          have old := nearest.member
          simp [SortedList.mem_def, empty.1, placed] at old
        | inr found' =>
          obtain ⟨p, first, before, owned, rfl⟩ := found'
          cases before.eq_or_mem nearest with
          | inl same =>
            subst same
            rw [owned] at lookup
            exact getNode_of_clockwise found lookup
          | inr new => exact absurd new placed

/-! ## Distinct positions -/

/-- The virtual nodes of the nodes fall on pairwise distinct positions. -/
def DistinctPositions (hash : Str → Position) (vnodes : Nat) (nodes : List Str) : Prop :=
  ∀ m ∈ nodes, ∀ n ∈ nodes, ∀ i < vnodes, ∀ j < vnodes,
    hash (vnodeLabel m i) = hash (vnodeLabel n j) → m = n ∧ i = j

instance (nodes : List Str) : Decidable (DistinctPositions hash vnodes nodes) :=
  inferInstanceAs (Decidable (∀ m ∈ nodes, ∀ n ∈ nodes, ∀ i < vnodes, ∀ j < vnodes, _))

/-- The nodes that the calls add. -/
def joined (calls : List Call) : List Str :=
  calls.filterMap fun
    | .addNode node => some node
    | .removeNode _ => none

theorem mem_positions {p : Position} :
    p ∈ positions hash vnodes node ↔ ∃ i < vnodes, hash (vnodeLabel node i) = p := by
  simp [positions]

namespace DistinctPositions

variable {nodes : List Str} {m n : Str} {p : Position}

theorem mono {fewer : List Str} (distinct : DistinctPositions hash vnodes nodes)
    (kept : fewer ⊆ nodes) : DistinctPositions hash vnodes fewer :=
  fun m mIn n nIn => distinct m (kept mIn) n (kept nIn)

theorem same_node (distinct : DistinctPositions hash vnodes nodes) (mIn : m ∈ nodes)
    (nIn : n ∈ nodes) (ofM : p ∈ positions hash vnodes m) (ofN : p ∈ positions hash vnodes n) :
    m = n := by
  obtain ⟨i, iBound, rfl⟩ := mem_positions.mp ofM
  obtain ⟨j, jBound, same⟩ := mem_positions.mp ofN
  exact (distinct m mIn n nIn i iBound j jBound same.symm).1

theorem nodup (distinct : DistinctPositions hash vnodes nodes) (nIn : n ∈ nodes) :
    (positions hash vnodes n).Nodup := by
  refine List.Nodup.map_on ?_ List.nodup_range
  intro i iBound j jBound same
  exact (distinct n nIn n nIn i (List.mem_range.mp iBound) j (List.mem_range.mp jBound) same).2

end DistinctPositions

/-! ## The canonical ring of a member set -/

structure Canonical (hash : Str → Position) (vnodes : Nat) (r : ConsistentHashRing) : Prop where
  vnodes_eq : r.vnodes = vnodes
  owned_iff : ∀ p node, r.ring.lookup p = some node ↔
    node ∈ r.nodes ∧ p ∈ positions hash vnodes node
  listed_once : ∀ p, r.sortedKeys.toList.count p = if (r.ring.lookup p).isSome then 1 else 0

theorem canonical_empty : Canonical hash vnodes (emptyRing vnodes) where
  vnodes_eq := rfl
  owned_iff := by simp [emptyRing]
  listed_once := by simp [emptyRing]

namespace Canonical

variable {nodes : List Str}

theorem listed_iff (canonical : Canonical hash vnodes r) (p : Position) :
    p ∈ r.sortedKeys ↔ ∃ node ∈ r.nodes, p ∈ positions hash vnodes node := by
  rw [SortedList.mem_iff_count_pos, canonical.listed_once]
  cases owned : r.ring.lookup p with
  | some node =>
    have claims := (canonical.owned_iff p node).mp owned
    simpa using ⟨node, claims⟩
  | none =>
    have unclaimed : ∀ node ∈ r.nodes, p ∉ positions hash vnodes node := by
      intro node member claims
      have owns := (canonical.owned_iff p node).mpr ⟨member, claims⟩
      rw [owned] at owns
      contradiction
    simpa using unclaimed

theorem wellFormed (canonical : Canonical hash vnodes r) : WellFormed hash vnodes r where
  vnodes_eq := canonical.vnodes_eq
  owner_member p node owned := ((canonical.owned_iff p node).mp owned).1
  owner_position p node owned := ((canonical.owned_iff p node).mp owned).2
  owned_listed p node owned :=
    (canonical.listed_iff p).mpr ⟨node, (canonical.owned_iff p node).mp owned⟩

theorem addNode (canonical : Canonical hash vnodes r)
    (distinct : DistinctPositions hash vnodes nodes) (members : ∀ n ∈ r.nodes, n ∈ nodes)
    (joins : node ∈ nodes) : Canonical hash vnodes (addNode hash r node) := by
  by_cases member : node ∈ r.nodes
  · rwa [addNode_of_mem hash member]
  · have lookup := addNode_lookup hash member
    have count := addNode_count hash member
    rw [canonical.vnodes_eq] at lookup count
    refine ⟨by rw [addNode_vnodes, canonical.vnodes_eq], ?_, ?_⟩
    · intro p other
      rw [lookup, addNode_nodes, Finset.mem_insert]
      by_cases placed : p ∈ positions hash vnodes node
      · rw [if_pos placed, Option.some.injEq]
        constructor
        · rintro rfl
          exact ⟨.inl rfl, placed⟩
        · rintro ⟨rfl | old, claims⟩
          · rfl
          · exact distinct.same_node joins (members other old) placed claims
      · rw [if_neg placed, canonical.owned_iff]
        constructor
        · rintro ⟨old, claims⟩
          exact ⟨.inr old, claims⟩
        · rintro ⟨rfl | old, claims⟩
          · exact absurd claims placed
          · exact ⟨old, claims⟩
    · intro p
      rw [count, lookup, canonical.listed_once]
      by_cases placed : p ∈ positions hash vnodes node
      · -- The position was free, for its owner would have been another member.
        have free : r.ring.lookup p = none := by
          cases owned : r.ring.lookup p with
          | none => rfl
          | some other =>
            obtain ⟨old, claims⟩ := (canonical.owned_iff p other).mp owned
            have same := distinct.same_node joins (members other old) placed claims
            exact absurd (same ▸ old) member
        rw [if_pos placed, free, List.count_eq_one_of_mem (distinct.nodup joins) placed]
        rfl
      · rw [if_neg placed, List.count_eq_zero_of_not_mem placed, Nat.add_zero]

theorem removeNode (canonical : Canonical hash vnodes r) (node : Str) :
    Canonical hash vnodes (removeNode hash r node) := by
  by_cases member : node ∈ r.nodes
  · have wf := canonical.wellFormed
    have lookup := removeNode_lookup hash member
    have count := removeNode_count hash member (fun q => wf.owned_listed q node)
    refine ⟨by rw [removeNode_vnodes, canonical.vnodes_eq], ?_, ?_⟩
    · intro p other
      rw [wf.removeNode_lookup_some member, canonical.owned_iff, removeNode_nodes,
        Finset.mem_erase]
      tauto
    · intro p
      rw [count, lookup, canonical.listed_once]
      by_cases cleared : p ∈ positions hash r.vnodes node ∧ r.ring.lookup p = some node
      · simp [cleared]
      · rw [if_neg cleared, if_neg cleared, Nat.sub_zero]
  · rwa [removeNode_of_not_mem hash member]

end Canonical

theorem canonical_visited {calls : List Call}
    (distinct : DistinctPositions hash vnodes (joined calls)) :
    ∀ r, Visited (step hash) (emptyRing vnodes) calls r →
      Canonical hash vnodes r ∧ ∀ n ∈ r.nodes, n ∈ joined calls := by
  refine visited_induction ⟨canonical_empty, by simp [emptyRing]⟩ ?_
  rintro r call next ⟨before, after, -, rfl, -⟩ stepped ⟨canonical, members⟩
  cases stepped
  cases call with
  | addNode node =>
    have joins : node ∈ joined (before ++ .addNode node :: after) := by
      simp [joined]
    refine ⟨canonical.addNode distinct members joins, ?_⟩
    intro n member
    rw [apply, addNode_nodes, Finset.mem_insert] at member
    obtain rfl | old := member
    · exact joins
    · exact members n old
  | removeNode node =>
    refine ⟨canonical.removeNode node, ?_⟩
    intro n member
    rw [apply, removeNode_nodes] at member
    exact members n (Finset.mem_of_mem_erase member)

/-! ## The owner of a key by membership alone -/

/-- The owner of the first virtual node of a member that is met clockwise from the key;
    there is none when no member has a virtual node. -/
def Places (hash : Str → Position) (vnodes : Nat) (nodes : Finset Str) (key : Str) :
    Option Str → Prop
  | none => ∀ node ∈ nodes, positions hash vnodes node = []
  | some node => node ∈ nodes ∧ ∃ p ∈ positions hash vnodes node,
      Nearest (hash key) {q | ∃ other ∈ nodes, q ∈ positions hash vnodes other} p

theorem Canonical.places (canonical : Canonical hash vnodes r) (key : Str) :
    ∃ owner, getNode hash r key = .ok owner ∧ Places hash vnodes r.nodes key owner := by
  have listed : {q | q ∈ r.sortedKeys} = {q | ∃ other ∈ r.nodes, q ∈ positions hash vnodes other} :=
    Set.ext canonical.listed_iff
  by_cases empty : r.sortedKeys.toList = []
  · refine ⟨none, by simp [getNode, empty], ?_⟩
    intro node member
    apply List.eq_nil_iff_forall_not_mem.mpr
    intro p claims
    have inList := (canonical.listed_iff p).mpr ⟨node, member, claims⟩
    rw [SortedList.mem_def, empty] at inList
    contradiction
  · obtain ⟨p, found, nearest⟩ := SortedList.clockwise_nearest empty (hash key)
    obtain ⟨node, member, claims⟩ := (canonical.listed_iff p).mp nearest.member
    rw [listed] at nearest
    have owned := (canonical.owned_iff p node).mpr ⟨member, claims⟩
    exact ⟨some node, getNode_of_clockwise found owned, member, p, claims, nearest⟩

section Places

variable {nodes : Finset Str} {list : List Str} {first second : Option Str}

theorem Places.unique (distinct : DistinctPositions hash vnodes list)
    (members : ∀ n ∈ nodes, n ∈ list) (left : Places hash vnodes nodes key first)
    (right : Places hash vnodes nodes key second) : first = second := by
  cases first with
  | none =>
    cases second with
    | none => rfl
    | some node =>
      obtain ⟨member, p, claims, -⟩ := right
      rw [left node member] at claims
      contradiction
  | some m =>
    obtain ⟨mMember, p, ofM, nearest⟩ := left
    cases second with
    | none =>
      rw [right m mMember] at ofM
      contradiction
    | some n =>
      obtain ⟨nMember, q, ofN, nearest'⟩ := right
      obtain rfl := nearest.unique nearest'
      rw [distinct.same_node (members m mMember) (members n nMember) ofM ofN]

/-- An owner that stays keeps its keys. -/
theorem Places.erase (placed : Places hash vnodes nodes key first) (other : first ≠ some node) :
    Places hash vnodes (nodes.erase node) key first := by
  cases first with
  | none => exact fun m member => placed m (Finset.mem_of_mem_erase member)
  | some m =>
    obtain ⟨member, p, claims, nearest⟩ := placed
    have stays : m ∈ nodes.erase node :=
      Finset.mem_erase.mpr ⟨fun same => other (congrArg some same), member⟩
    refine ⟨stays, p, claims, nearest.of_subset ?_ ⟨m, stays, claims⟩⟩
    rintro q ⟨n, nMember, ofN⟩
    exact ⟨n, Finset.mem_of_mem_erase nMember, ofN⟩

theorem Places.eq_none_iff (placed : Places hash vnodes nodes key first) (positive : 1 ≤ vnodes) :
    first = none ↔ nodes = ∅ := by
  constructor
  · rintro rfl
    by_contra nonempty
    obtain ⟨node, member⟩ := Finset.nonempty_iff_ne_empty.mpr nonempty
    have claims : hash (vnodeLabel node 0) ∈ positions hash vnodes node :=
      mem_positions.mpr ⟨0, positive, rfl⟩
    rw [placed node member] at claims
    contradiction
  · rintro rfl
    cases first with
    | none => rfl
    | some node => exact absurd placed.1 (Finset.notMem_empty node)

end Places

/-! ## Minimal disruption -/

/-- A node that joins takes keys from others and moves none between them; without
    collisions a node that leaves gives up its own keys only. -/
theorem minimal_disruption (hash : Str → Position) (vnodes : Nat) (calls : List Call)
    (r : ConsistentHashRing) (reached : run (step hash) (emptyRing vnodes) calls = some r)
    (key node : Str) :
    (∀ owner, getNode hash r key = .ok owner →
      getNode hash (addNode hash r node) key = .ok owner ∨
        getNode hash (addNode hash r node) key = .ok (some node)) ∧
    (DistinctPositions hash vnodes (joined calls) →
      ∃ before after, getNode hash r key = .ok before ∧
        getNode hash (removeNode hash r node) key = .ok after ∧
        (before ≠ some node → after = before) ∧
        (before = some node → (after = none ↔ r.nodes.erase node = ∅) ∧
          ∀ other, after = some other → other ∈ r.nodes.erase node)) := by
  refine ⟨fun owner answered => addNode_moves answered node, ?_⟩
  intro distinct
  obtain ⟨canonical, members⟩ := canonical_visited distinct r (visited_finish reached)
  have left : ∀ n ∈ r.nodes.erase node, n ∈ joined calls := fun n member =>
    members n (Finset.mem_of_mem_erase member)
  obtain ⟨before, answered, placed⟩ := canonical.places key
  obtain ⟨after, answeredAfter, placedAfter⟩ := (canonical.removeNode node).places key
  rw [removeNode_nodes] at placedAfter
  refine ⟨before, after, answered, answeredAfter, ?_, ?_⟩
  · intro other
    -- The old owner is still a member and holds the nearest point of those left.
    exact placedAfter.unique distinct left (placed.erase other)
  · rintro rfl
    obtain ⟨-, p, claims, -⟩ := placed
    obtain ⟨i, bound, -⟩ := mem_positions.mp claims
    refine ⟨placedAfter.eq_none_iff (by omega), ?_⟩
    rintro other rfl
    exact placedAfter.1

/-- A label's position is the code of its first letter. -/
def letterHash (text : Str) : Position :=
  ⟨(text.head?.map Char.toNat).getD 0 % 2 ^ 32, Nat.mod_lt _ (Nat.two_pow_pos 32)⟩

/-- Three nodes with one virtual node each join. -/
def letterCalls : List Call :=
  [.addNode "a".toList, .addNode "b".toList, .addNode "c".toList]

theorem keys_of_b_move_to_members :
    ∃ r after, run (step letterHash) (emptyRing 1) letterCalls = some r ∧
      getNode letterHash (removeNode letterHash r "b".toList) "a".toList = .ok after ∧
      (after = none ↔ r.nodes.erase "b".toList = ∅) ∧
      ∀ other, after = some other → other ∈ r.nodes.erase "b".toList := by
  obtain ⟨before, after, answered, answeredAfter, -, moved⟩ :=
    (minimal_disruption letterHash 1 letterCalls _ rfl "a".toList "b".toList).2 (by decide)
  have ownedByB : before = some "b".toList := (Except.ok.inj answered).symm
  exact ⟨_, after, rfl, answeredAfter, moved ownedByB⟩

/-! ## Independence of the history -/

theorem Canonical.agree {list : List Str} (left : Canonical hash vnodes r)
    (right : Canonical hash vnodes s) (distinct : DistinctPositions hash vnodes list)
    (members : ∀ n ∈ r.nodes, n ∈ list) (same : s.nodes = r.nodes) (key : Str) :
    ∃ owner, getNode hash r key = .ok owner ∧ getNode hash s key = .ok owner := by
  obtain ⟨owner, answered, placed⟩ := left.places key
  obtain ⟨owner', answered', placed'⟩ := right.places key
  rw [same] at placed'
  refine ⟨owner, answered, ?_⟩
  rw [answered', placed'.unique distinct members placed]

/-- Without collisions two histories that end with the same members route every key
    alike, and removing a node that has just joined undoes the join. -/
theorem placement_independent_of_history (hash : Str → Position) (vnodes : Nat)
    (first second : List Call) (r s : ConsistentHashRing)
    (reached : run (step hash) (emptyRing vnodes) first = some r)
    (reached' : run (step hash) (emptyRing vnodes) second = some s)
    (distinct : DistinctPositions hash vnodes (joined first ++ joined second)) (key : Str) :
    (r.nodes = s.nodes →
      ∃ owner, getNode hash r key = .ok owner ∧ getNode hash s key = .ok owner) ∧
    ∀ node, node ∉ r.nodes → DistinctPositions hash vnodes (node :: joined first) →
      ∃ owner, getNode hash r key = .ok owner ∧
        getNode hash (removeNode hash (addNode hash r node) node) key = .ok owner := by
  -- A ring without collisions is determined by its members.
  obtain ⟨canonical, members⟩ :=
    canonical_visited (distinct.mono (List.subset_append_left _ _)) r (visited_finish reached)
  refine ⟨?_, ?_⟩
  · intro same
    obtain ⟨canonical', -⟩ :=
      canonical_visited (distinct.mono (List.subset_append_right _ _)) s (visited_finish reached')
    refine canonical.agree canonical' distinct ?_ same.symm key
    exact fun n member => List.mem_append_left _ (members n member)
  · intro node fresh distinctNode
    have members' : ∀ n ∈ r.nodes, n ∈ node :: joined first := fun n member =>
      List.mem_cons_of_mem _ (members n member)
    have added := canonical.addNode distinctNode members' List.mem_cons_self
    refine canonical.agree (added.removeNode node) distinctNode members' ?_ key
    rw [removeNode_nodes, addNode_nodes, Finset.erase_insert fresh]

theorem letters_placed_in_any_order :
    ∃ r s, run (step letterHash) (emptyRing 1) letterCalls = some r ∧
      run (step letterHash) (emptyRing 1)
        (.addNode "d".toList :: letterCalls.reverse ++ [.removeNode "d".toList]) = some s ∧
      ∃ owner, getNode letterHash r "b".toList = .ok owner ∧
        getNode letterHash s "b".toList = .ok owner := by
  refine ⟨_, _, rfl, rfl, ?_⟩
  exact (placement_independent_of_history letterHash 1 letterCalls
    (.addNode "d".toList :: letterCalls.reverse ++ [.removeNode "d".toList]) _ _ rfl rfl
    (by decide) "b".toList).1 (by decide)

end Excalibur.ConsistentHash
