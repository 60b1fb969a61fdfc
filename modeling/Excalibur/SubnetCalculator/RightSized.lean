import Excalibur.SubnetCalculator.Vlsm

/-! # Right-sized plans

The search for a prefix stops at 0 without a test, and then the block is given out however
many hosts were asked for.  Whether such a plan is returned is left to the assertion on the
parent's end, which the whole address space passes when the parent ends where it does.
-/

namespace Excalibur.SubnetCalculator

open Excalibur.Library Excalibur.Python

variable {ν : Type}

/-- Enough usable hosts, and with any longer prefix there would be too few. -/
structure RightSized (hosts : Nat) (sub : Subnet) : Prop where
  enough : (hosts : Int) ≤ sub.usableHosts
  tight : ∀ longer : Nat, sub.prefixLength < longer → longer ≤ 32 →
    ∀ test, Subnet.ofCidr (cidrText sub.networkInt longer) = .ok test → test.usableHosts < hosts

/-- The plan lists every requirement once, in some order, with a right-sized block. -/
def ServesRightSized (hostRequirements : List (ν × Nat)) (plan : List (ν × Subnet)) : Prop :=
  ∃ reqs : List (ν × Nat), reqs.Perm hostRequirements ∧
    List.Forall₂ (fun req entry => entry.1 = req.1 ∧ RightSized req.2 entry.2) reqs plan

/-- What the program gives out for a requirement. -/
def Given (req : ν × Nat) (entry : ν × Subnet) : Prop :=
  entry.1 = req.1 ∧ ∃ a, entry.2 = Subnet.block (blockBits req.2) a

theorem allocateLoop_given {parent : Subnet} {reqs : List (ν × Nat)} {plan : List (ν × Subnet)}
    {cursor : Nat} (returned : allocateLoop parent cursor reqs = .ok plan) :
    List.Forall₂ Given reqs plan := by
  induction reqs generalizing cursor plan with
  | nil =>
    cases returned
    exact .nil
  | cons req reqs ih =>
    obtain ⟨-, rest, rfl, continued⟩ := allocateLoop_cons_eq_ok.mp returned
    exact .cons ⟨rfl, _, rfl⟩ (ih continued)

theorem usableIn_le {bits : Nat} (narrow : bits ≤ 32) : usableIn bits ≤ 2 ^ 32 - 2 := by
  have all : ∀ bits ≤ 32, usableIn bits ≤ 2 ^ 32 - 2 := by decide
  exact all bits narrow

/-- The smallest block that has enough is right-sized, wherever it lies. -/
theorem rightSized_block {hosts : Nat} (enough : hosts ≤ usableIn (blockBits hosts)) (a : Nat) :
    RightSized hosts (Subnet.block (blockBits hosts) a) := by
  obtain ⟨narrow, -, least⟩ := blockBits_spec hosts
  refine ⟨?_, ?_⟩
  · rw [block_usableHosts narrow]
    exact Nat.cast_le.mpr enough
  · intro longer isLonger isPrefix test opened
    rw [Subnet.block_networkInt,
      Subnet.ofCidr_eq (readsCidr_cidrText _ isPrefix), Except.ok.injEq] at opened
    subst opened
    rw [block_usableHosts (Nat.sub_le 32 longer), Nat.cast_lt]
    rw [Subnet.block_prefixLength] at isLonger
    exact least (32 - longer) (by omega)

/-- The whole address space ends with the last address, so it is only given out where the
    parent ends there too. -/
theorem enough_of_within {hosts a : Nat} {parent : Subnet}
    (within : (Subnet.block (blockBits hosts) a).broadcastInt ≤ parent.broadcastInt)
    (below : parent.broadcastInt < 2 ^ 32 - 1) : hosts ≤ usableIn (blockBits hosts) := by
  obtain ⟨-, enough, -⟩ := blockBits_spec hosts
  cases enough with
  | inl enough => exact enough
  | inr whole =>
    have size := blockEnd_add_one 32 a
    rw [whole, Subnet.block_broadcastInt] at within
    omega

theorem exists_partner {α β : Type} {R : α → β → Prop} {xs : List α} {ys : List β}
    (paired : List.Forall₂ R xs ys) {x : α} (member : x ∈ xs) : ∃ y ∈ ys, R x y := by
  induction paired with
  | nil => contradiction
  | cons first _ ih =>
    obtain rfl | later := List.mem_cons.mp member
    · exact ⟨_, List.mem_cons_self, first⟩
    · obtain ⟨y, inRest, related⟩ := ih later
      exact ⟨y, List.mem_cons_of_mem _ inRest, related⟩

/-- No block of a plan has room for more hosts than the whole address space has. -/
theorem usableHosts_le {reqs : List (ν × Nat)} {plan : List (ν × Subnet)}
    (given : List.Forall₂ Given reqs plan) {entry : ν × Subnet} (inPlan : entry ∈ plan) :
    entry.2.usableHosts ≤ (2 ^ 32 - 2 : Nat) := by
  obtain ⟨req, -, -, a, isBlock⟩ := exists_partner (List.Forall₂.flip given) inPlan
  rw [isBlock, block_usableHosts (blockBits_le req.2), Nat.cast_le]
  exact usableIn_le (blockBits_le req.2)

/-- Plans that are returned are right-sized exactly when some block has room for every
    requirement or the parent ends below the last address. -/
theorem vlsm_right_sized_iff {cidr : Str} {address prefixLength : Nat}
    (reads : ReadsCidr cidr address prefixLength) {parent : Subnet}
    (opened : Subnet.ofCidr cidr = .ok parent) (hostRequirements : List (ν × Nat)) :
    (∀ plan, vlsmAllocate cidr hostRequirements = .ok plan →
        ServesRightSized hostRequirements plan) ↔
      (∀ req ∈ hostRequirements, req.2 ≤ 2 ^ 32 - 2) ∨ parent.broadcastInt ≠ 2 ^ 32 - 1 := by
  rw [Subnet.ofCidr_eq reads, Except.ok.injEq] at opened
  subst opened
  have perm := hostRequirements.perm_insertionSort BiggerFirst
  have inside := blockEnd_lt reads.lt (Nat.sub_le 32 prefixLength)
  rw [vlsmAllocate_eq reads]
  constructor
  · intro served
    by_contra neither
    rw [not_or, not_not] at neither
    obtain ⟨unsatisfiable, top⟩ := neither
    simp only [not_forall, not_le] at unsatisfiable
    obtain ⟨req, member, tooMany⟩ := unsatisfiable
    obtain ⟨plan, returned⟩ := allocateLoop_returns top
      (hostRequirements.insertionSort BiggerFirst) (blockStart (32 - prefixLength) address)
    -- The block listed for that requirement is given out like all others.
    obtain ⟨reqs, permuted, sized⟩ := served plan returned
    obtain ⟨entry, inPlan, -, rightSized⟩ := exists_partner sized (permuted.mem_iff.mpr member)
    have limit := usableHosts_le (allocateLoop_given returned) inPlan
    have enough := rightSized.enough
    omega
  · intro condition plan returned
    obtain ⟨-, bounded⟩ := allocateLoop_serves returned
    obtain ⟨lengths, given⟩ := List.forall₂_iff_zip.mp (allocateLoop_given returned)
    refine ⟨_, perm, List.forall₂_iff_zip.mpr ⟨lengths, ?_⟩⟩
    intro req entry paired
    obtain ⟨inReqs, inPlan⟩ := List.of_mem_zip paired
    obtain ⟨name, a, isBlock⟩ := given paired
    refine ⟨name, ?_⟩
    rw [isBlock]
    apply rightSized_block
    cases condition with
    | inl satisfiable =>
      exact (smallestBlock_blockBits (satisfiable req (perm.mem_iff.mp inReqs))).enough
    | inr notTop =>
      have within := bounded entry inPlan
      rw [isBlock] at within
      refine enough_of_within within ?_
      rw [Subnet.block_broadcastInt] at notTop ⊢
      omega

theorem sampleReqs_right_sized : ∃ plan, vlsmAllocate (lit "172.16.0.0/24") sampleReqs = .ok plan ∧
    ServesRightSized sampleReqs plan := by
  have fits : (sampleReqs.map fun req => blockSize req.2).sum ≤ 2 ^ (32 - 24) := by decide
  obtain ⟨plan, returned, -⟩ := packs readsCidr_sample fits
  exact ⟨plan, returned, (vlsm_right_sized_iff readsCidr_sample
    (Subnet.ofCidr_eq readsCidr_sample) sampleReqs).mpr (.inl (by decide)) plan returned⟩

/-- `2 ** 32` hosts are given the whole address space, which has two fewer. -/
theorem whole_space_too_small :
    ReadsCidr (lit "0.0.0.0/0") 0 0 ∧
      vlsmAllocate (lit "0.0.0.0/0") [(lit "all", 2 ^ 32)] =
        .ok [(lit "all", Subnet.block 32 0)] ∧
      ¬ ServesRightSized [(lit "all", 2 ^ 32)] [(lit "all", Subnet.block 32 0)] := by
  have text : lit "0.0.0.0/0" = cidrText (0 : Nat) (0 : Nat) := by decide
  refine ⟨?_, by decide +kernel, ?_⟩
  · rw [text]
    exact readsCidr_cidrText 0 (by decide)
  · rintro ⟨reqs, perm, sized⟩
    obtain ⟨entry, inPlan, -, rightSized⟩ :=
      exists_partner sized (perm.mem_iff.mpr (List.mem_singleton.mpr rfl))
    obtain rfl := List.mem_singleton.mp inPlan
    exact absurd rightSized.enough (by decide)

end Excalibur.SubnetCalculator
