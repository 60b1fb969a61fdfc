import Excalibur.SubnetCalculator.Subnet

/-! # Variable-length subnet masking

`vlsm_allocate` serves the largest requirements first, each with the smallest block that
is large enough, at a moving cursor.  The cursor is aligned for every block still to come
(`Aligned`), so blocks lie end to end as long as the cursor is an address.

Only the upper end of a block is checked.  `plan_inside_and_disjoint_iff` says when that
is enough: a block larger than the parent that ends where the parent ends starts before
it, and behind the last IPv4 address the cursor is printed as `0.0.0.0`.
-/

namespace Excalibur.SubnetCalculator

open Excalibur.Library Excalibur.Python

variable {ν : Type}

/-! ## The program -/

/-- The loop on `prefix`, which goes down from its argument. -/
def choosePrefix (cursor : Int) (hosts : Nat) : Nat → Except PyError Nat
  | 0 => .ok 0
  | prefixLength + 1 => do
    let test ← Subnet.ofCidr (cidrText cursor (prefixLength + 1 : Nat))
    if hosts ≤ test.usableHosts then return prefixLength + 1
    choosePrefix cursor hosts prefixLength

/-- The loop on the requirements, which are names with a number of hosts. -/
def allocateLoop (parent : Subnet) (cursor : Int) :
    List (ν × Nat) → Except PyError (List (ν × Subnet))
  | [] => .ok []
  | (name, hosts) :: reqs => do
    let prefixLength ← choosePrefix cursor hosts 32
    let sub ← Subnet.ofCidr (cidrText cursor prefixLength)
    if sub.broadcastInt ≤ parent.broadcastInt then
      let out ← allocateLoop parent (sub.broadcastInt + 1) reqs
      return (name, sub) :: out
    else .error .assertionError

/-- The order of the sort: equal demands keep their places. -/
def BiggerFirst (x y : ν × Nat) : Prop := y.2 ≤ x.2

instance : DecidableRel (BiggerFirst (ν := ν)) := fun x y =>
  inferInstanceAs (Decidable (y.2 ≤ x.2))

instance : Std.Total (BiggerFirst (ν := ν)) := ⟨fun x y => Nat.le_total y.2 x.2⟩

instance : IsTrans (ν × Nat) BiggerFirst := ⟨fun _ _ _ first second => Nat.le_trans second first⟩

def vlsmAllocate (cidr : Str) (hostRequirements : List (ν × Nat)) :
    Except PyError (List (ν × Subnet)) := do
  let parent ← Subnet.ofCidr cidr
  allocateLoop parent parent.networkInt (hostRequirements.insertionSort BiggerFirst)

/-! ## The size of a block -/

/-- `usable_hosts` of a block of `2 ^ bits` addresses. -/
def usableIn (bits : Nat) : Nat := if bits ≤ 1 then 2 ^ bits else 2 ^ bits - 2

theorem block_usableHosts {bits : Nat} (narrow : bits ≤ 32) (address : Nat) :
    (Subnet.block bits address).usableHosts = usableIn bits := by
  rw [Subnet.usableHosts, Subnet.block_totalAddresses, Subnet.block_prefixLength]
  by_cases small : bits ≤ 1
  · simp only [usableIn, if_pos small, if_pos (show (31 : Int) ≤ 32 - bits by omega)]
  · have atLeast : 2 ^ 2 ≤ 2 ^ bits := Nat.pow_le_pow_right (by decide) (by omega)
    simp only [usableIn, if_neg small, if_neg (show ¬ (31 : Int) ≤ 32 - bits by omega)]
    omega

/-- The smallest block with enough usable hosts; the whole address space when none has. -/
def blockBits (hosts : Nat) : Nat :=
  ((List.range 32).find? fun bits => hosts ≤ usableIn bits).getD 32

def blockSize (hosts : Nat) : Nat := 2 ^ blockBits hosts

structure SmallestBlock (hosts bits : Nat) : Prop where
  narrow : bits ≤ 32
  enough : hosts ≤ usableIn bits
  least : ∀ fewer < bits, usableIn fewer < hosts

theorem blockBits_eq {hosts bits : Nat} (narrow : bits ≤ 32)
    (enough : hosts ≤ usableIn bits ∨ bits = 32) (least : ∀ fewer < bits, usableIn fewer < hosts) :
    blockBits hosts = bits := by
  cases Nat.lt_or_eq_of_le narrow with
  | inl smaller =>
    have found : (List.range 32).find? (fun bits => hosts ≤ usableIn bits) = some bits := by
      rw [List.find?_range_eq_some]
      refine ⟨?_, List.mem_range.mpr smaller, ?_⟩
      · simp only [decide_eq_true_eq]
        omega
      · intro fewer less
        simpa using least fewer less
    rw [blockBits, found, Option.getD_some]
  | inr whole =>
    have nothing : (List.range 32).find? (fun bits => hosts ≤ usableIn bits) = none := by
      rw [List.find?_range_eq_none]
      intro fewer less
      simpa using least fewer (by omega)
    rw [blockBits, nothing, Option.getD_none, whole]

theorem SmallestBlock.blockBits_eq {hosts bits : Nat} (smallest : SmallestBlock hosts bits) :
    blockBits hosts = bits :=
  SubnetCalculator.blockBits_eq smallest.narrow (.inl smallest.enough) smallest.least

theorem blockBits_spec (hosts : Nat) : blockBits hosts ≤ 32 ∧
    (hosts ≤ usableIn (blockBits hosts) ∨ blockBits hosts = 32) ∧
      ∀ fewer < blockBits hosts, usableIn fewer < hosts := by
  unfold blockBits
  cases found : (List.range 32).find? fun bits => hosts ≤ usableIn bits with
  | none =>
    rw [List.find?_range_eq_none] at found
    refine ⟨le_rfl, .inr rfl, ?_⟩
    intro fewer less
    simpa using found fewer less
  | some bits =>
    rw [List.find?_range_eq_some] at found
    obtain ⟨enough, inside, least⟩ := found
    refine ⟨(List.mem_range.mp inside).le, .inl (by simpa using enough), ?_⟩
    intro fewer less
    simpa using least fewer less

/-- What some block can hold has a smallest block. -/
theorem smallestBlock_blockBits {hosts : Nat} (satisfiable : hosts ≤ 2 ^ 32 - 2) :
    SmallestBlock hosts (blockBits hosts) := by
  obtain ⟨narrow, enough, least⟩ := blockBits_spec hosts
  refine ⟨narrow, ?_, least⟩
  cases enough with
  | inl enough => exact enough
  | inr whole =>
    rw [whole]
    exact satisfiable

theorem blockBits_le (hosts : Nat) : blockBits hosts ≤ 32 := (blockBits_spec hosts).1

theorem blockBits_mono {fewer hosts : Nat} (ordered : fewer ≤ hosts) :
    blockBits fewer ≤ blockBits hosts := by
  obtain ⟨-, -, least⟩ := blockBits_spec fewer
  obtain ⟨-, enough, -⟩ := blockBits_spec hosts
  by_contra larger
  have short := least (blockBits hosts) (by omega)
  have := blockBits_le fewer
  omega

theorem choosePrefix_eq (cursor hosts : Nat) :
    choosePrefix cursor hosts 32 = .ok (32 - blockBits hosts) := by
  -- Going down from 32, every longer prefix has been found too small.
  have descends : ∀ p ≤ 32, (∀ bits < 32 - p, usableIn bits < hosts) →
      choosePrefix cursor hosts p = .ok (32 - blockBits hosts) := by
    intro p
    induction p with
    | zero =>
      intro _ least
      rw [blockBits_eq le_rfl (.inr rfl) least]
      rfl
    | succ p ih =>
      intro narrow least
      have opened := Subnet.ofCidr_eq (readsCidr_cidrText cursor narrow)
      have usable := block_usableHosts (Nat.sub_le 32 (p + 1)) (cursor % 2 ^ 32)
      simp only [choosePrefix, opened, usable, bind, Except.bind, Nat.cast_le]
      by_cases enough : hosts ≤ usableIn (32 - (p + 1))
      · rw [if_pos enough, blockBits_eq (Nat.sub_le _ _) (.inl enough) least]
        simp only [pure, Except.pure, Except.ok.injEq]
        omega
      · rw [if_neg enough]
        apply ih (by omega)
        intro bits less
        rcases Nat.lt_or_eq_of_le (show bits ≤ 32 - (p + 1) by omega) with earlier | rfl
        · exact least bits earlier
        · omega
  exact descends 32 le_rfl (fun bits less => absurd less (by omega))

/-! ## One requirement -/

theorem allocateLoop_cons (parent : Subnet) (cursor : Nat) (name : ν) (hosts : Nat)
    (reqs : List (ν × Nat)) :
    allocateLoop parent cursor ((name, hosts) :: reqs) =
      let sub := Subnet.block (blockBits hosts) (cursor % 2 ^ 32)
      if sub.broadcastInt ≤ parent.broadcastInt then
        (allocateLoop parent (sub.broadcastInt + 1) reqs).map ((name, sub) :: ·)
      else .error .assertionError := by
  have opened := Subnet.ofCidr_eq (readsCidr_cidrText cursor (Nat.sub_le 32 (blockBits hosts)))
  rw [Nat.sub_sub_self (blockBits_le hosts)] at opened
  simp only [allocateLoop, choosePrefix_eq, opened, bind, Except.bind]
  split
  · cases allocateLoop parent ((Subnet.block (blockBits hosts) (cursor % 2 ^ 32)).broadcastInt + 1)
      reqs <;> rfl
  · rfl

/-- A requirement that is served, and the rest of the plan. -/
theorem allocateLoop_cons_eq_ok {parent : Subnet} {cursor : Nat} {name : ν} {hosts : Nat}
    {reqs : List (ν × Nat)} {plan : List (ν × Subnet)} :
    allocateLoop parent cursor ((name, hosts) :: reqs) = .ok plan ↔
      (blockEnd (blockBits hosts) (cursor % 2 ^ 32) : Int) ≤ parent.broadcastInt ∧
      ∃ rest, plan = (name, Subnet.block (blockBits hosts) (cursor % 2 ^ 32)) :: rest ∧
        allocateLoop parent (blockEnd (blockBits hosts) (cursor % 2 ^ 32) + 1 : Nat) reqs =
          .ok rest := by
  -- The next block is sought from the address behind this one.
  have next : (Subnet.block (blockBits hosts) (cursor % 2 ^ 32)).broadcastInt + 1 =
      (blockEnd (blockBits hosts) (cursor % 2 ^ 32) + 1 : Nat) := rfl
  rw [allocateLoop_cons]
  dsimp only
  rw [next]
  by_cases within :
    (Subnet.block (blockBits hosts) (cursor % 2 ^ 32)).broadcastInt ≤ parent.broadcastInt
  · rw [if_pos within]
    cases allocateLoop parent (blockEnd (blockBits hosts) (cursor % 2 ^ 32) + 1 : Nat) reqs with
    | error e => simp [Except.map]
    | ok rest =>
      simp only [Except.map, Except.ok.injEq]
      constructor
      · rintro rfl
        exact ⟨within, rest, rfl, rfl⟩
      · rintro ⟨-, _, rfl, rfl⟩
        rfl
  · rw [if_neg within]
    simp only [reduceCtorEq, false_iff, not_and]
    exact fun fits => absurd fits within

/-! ## Plans -/

/-- Every requirement gets a block of its own size, under its name. -/
def Serves (reqs : List (ν × Nat)) (plan : List (ν × Subnet)) : Prop :=
  plan.map (fun entry => (entry.1, entry.2.totalAddresses)) =
    reqs.map fun req => (req.1, (blockSize req.2 : Int))

/-- Blocks laid end to end from an address. -/
def EndToEnd : Int → List (ν × Subnet) → Prop
  | _, [] => True
  | start, (_, sub) :: plan => sub.networkInt = start ∧ EndToEnd (sub.broadcastInt + 1) plan

def Apart (s t : Subnet) : Prop :=
  s.broadcastInt < t.networkInt ∨ t.broadcastInt < s.networkInt

/-- Every range lies within the parent's and no two of them meet. -/
structure SafePlan (parent : Subnet) (plan : List (ν × Subnet)) : Prop where
  inside : ∀ entry ∈ plan, parent.networkInt ≤ entry.2.networkInt ∧
    entry.2.broadcastInt ≤ parent.broadcastInt
  apart : plan.Pairwise fun x y => Apart x.2 y.2

theorem allocateLoop_serves {parent : Subnet} {reqs : List (ν × Nat)} {plan : List (ν × Subnet)}
    {cursor : Nat} (returned : allocateLoop parent cursor reqs = .ok plan) :
    Serves reqs plan ∧ ∀ entry ∈ plan, entry.2.broadcastInt ≤ parent.broadcastInt := by
  induction reqs generalizing cursor plan with
  | nil =>
    cases returned
    exact ⟨rfl, by simp⟩
  | cons req reqs ih =>
    obtain ⟨within, rest, rfl, continued⟩ := allocateLoop_cons_eq_ok.mp returned
    obtain ⟨serves, bounded⟩ := ih continued
    refine ⟨?_, ?_⟩
    · rw [Serves, List.map_cons, List.map_cons, Subnet.block_totalAddresses, serves]
      rfl
    · intro entry member
      obtain rfl | later := List.mem_cons.mp member
      · exact within
      · exact bounded entry later

theorem Serves.nonempty {reqs : List (ν × Nat)} {plan : List (ν × Subnet)}
    (serves : Serves reqs plan) :
    ∀ entry ∈ plan, entry.2.networkInt ≤ entry.2.broadcastInt := by
  intro entry member
  have served : (entry.1, entry.2.totalAddresses) ∈
      reqs.map fun req => (req.1, (blockSize req.2 : Int)) := by
    rw [← serves]
    exact List.mem_map_of_mem member
  obtain ⟨req, -, same⟩ := List.mem_map.mp served
  have size := (Prod.ext_iff.mp same).2
  have positive := Nat.two_pow_pos (blockBits req.2)
  simp only [Subnet.totalAddresses, blockSize] at size
  omega

/-- Blocks that lie end to end do not meet. -/
theorem EndToEnd.safe {parent : Subnet} {plan : List (ν × Subnet)}
    (nonempty : ∀ entry ∈ plan, entry.2.networkInt ≤ entry.2.broadcastInt)
    (bounded : ∀ entry ∈ plan, entry.2.broadcastInt ≤ parent.broadcastInt)
    (laid : EndToEnd parent.networkInt plan) : SafePlan parent plan := by
  have ordered : ∀ plan : List (ν × Subnet), ∀ start, EndToEnd start plan →
      (∀ entry ∈ plan, entry.2.networkInt ≤ entry.2.broadcastInt) →
      (∀ entry ∈ plan, start ≤ entry.2.networkInt) ∧ plan.Pairwise fun x y => Apart x.2 y.2 := by
    intro plan
    -- generalized over the start, which moves on by one block a step
    induction plan with
    | nil =>
      intro _ _ _
      exact ⟨by simp, List.Pairwise.nil⟩
    | cons first plan ih =>
      rintro start ⟨rfl, laid⟩ nonempty
      obtain ⟨behind, apart⟩ := ih _ laid fun entry member =>
        nonempty entry (List.mem_cons_of_mem _ member)
      have some := nonempty first List.mem_cons_self
      refine ⟨?_, List.pairwise_cons.mpr ⟨?_, apart⟩⟩
      · intro entry member
        obtain rfl | later := List.mem_cons.mp member
        · exact le_rfl
        · have := behind entry later
          omega
      · intro entry member
        have := behind entry member
        exact .inl (by omega)
  obtain ⟨behind, apart⟩ := ordered plan _ laid nonempty
  exact ⟨fun entry member => ⟨behind entry member, bounded entry member⟩, apart⟩

/-- A safe plan takes no more addresses than the parent has. -/
theorem SafePlan.sum_le {parent : Subnet} {reqs : List (ν × Nat)} {plan : List (ν × Subnet)}
    (safe : SafePlan parent plan) (serves : Serves reqs plan)
    (some : parent.networkInt ≤ parent.broadcastInt) :
    ((reqs.map fun req => blockSize req.2).sum : Int) ≤ parent.totalAddresses := by
  have sizes : (plan.map fun entry => Finset.Icc entry.2.networkInt entry.2.broadcastInt).map
      Finset.card = reqs.map fun req => blockSize req.2 := by
    have casts := congrArg (List.map fun served : ν × Int => served.2.toNat) serves
    simp only [List.map_map, Function.comp_def, Int.toNat_natCast] at casts
    rw [← casts, List.map_map]
    apply List.map_congr_left
    intro entry _
    simp only [Function.comp, Int.card_Icc, Subnet.totalAddresses]
    congr 1
    omega
  -- disjoint intervals inside the parent: their sizes add up to no more than its own
  have disjoint : (plan.map fun entry =>
      Finset.Icc entry.2.networkInt entry.2.broadcastInt).Pairwise Disjoint := by
    refine List.pairwise_map.mpr (safe.apart.imp ?_)
    intro x y apart
    rw [Finset.disjoint_left]
    intro address inX inY
    rw [Finset.mem_Icc] at inX inY
    cases apart with
    | inl before => omega
    | inr behind => omega
  have inside : ∀ part ∈ plan.map fun entry =>
      Finset.Icc entry.2.networkInt entry.2.broadcastInt,
        part ⊆ Finset.Icc parent.networkInt parent.broadcastInt := by
    intro part member
    obtain ⟨entry, inPlan, rfl⟩ := List.mem_map.mp member
    obtain ⟨lower, upper⟩ := safe.inside entry inPlan
    exact Finset.Icc_subset_Icc lower upper
  have counted := sum_card_le disjoint inside
  rw [sizes, Int.card_Icc] at counted
  simp only [Subnet.totalAddresses]
  omega

/-! ## The cursor -/

/-- The cursor is a multiple of the size of every block still to come. -/
def Aligned (cursor : Nat) (reqs : List (ν × Nat)) : Prop :=
  ∀ req ∈ reqs, blockSize req.2 ∣ cursor

theorem blockSize_dvd {fewer hosts : Nat} (ordered : fewer ≤ hosts) :
    blockSize fewer ∣ blockSize hosts :=
  Nat.pow_dvd_pow 2 (blockBits_mono ordered)

theorem Aligned.next {cursor : Nat} {req : ν × Nat} {reqs : List (ν × Nat)}
    (aligned : Aligned cursor (req :: reqs)) (sorted : (req :: reqs).Pairwise BiggerFirst) :
    Aligned (cursor + blockSize req.2) reqs := by
  intro later member
  have smaller := (List.pairwise_cons.mp sorted).1 later member
  exact (aligned later (List.mem_cons_of_mem _ member)).add (blockSize_dvd smaller)

/-- An aligned cursor that is an address is where the next block starts. -/
theorem block_at_cursor {cursor hosts : Nat} (isAddress : cursor < 2 ^ 32)
    (aligned : blockSize hosts ∣ cursor) :
    blockStart (blockBits hosts) (cursor % 2 ^ 32) = cursor ∧
      blockEnd (blockBits hosts) (cursor % 2 ^ 32) + 1 = cursor + blockSize hosts := by
  rw [blockEnd_add_one, Nat.mod_eq_of_lt isAddress, blockStart_of_dvd aligned]
  exact ⟨rfl, rfl⟩

/-- What fits into the parent is laid end to end. -/
theorem allocateLoop_fits {parent : Subnet} {top : Nat} (ends : parent.broadcastInt = top)
    (isAddress : top < 2 ^ 32) {reqs : List (ν × Nat)} (sorted : reqs.Pairwise BiggerFirst)
    {cursor : Nat} (aligned : Aligned cursor reqs)
    (fits : cursor + (reqs.map fun req => blockSize req.2).sum ≤ top + 1) :
    ∃ plan, allocateLoop parent cursor reqs = .ok plan ∧ EndToEnd cursor plan := by
  induction reqs generalizing cursor with
  | nil => exact ⟨[], rfl, trivial⟩
  | cons req reqs ih =>
    rw [List.map_cons, List.sum_cons] at fits
    have positive : 0 < blockSize req.2 := Nat.two_pow_pos _
    obtain ⟨start, next⟩ :=
      block_at_cursor (by omega : cursor < 2 ^ 32) (aligned req List.mem_cons_self)
    obtain ⟨rest, continued, laid⟩ :=
      ih (List.pairwise_cons.mp sorted).2 (aligned.next sorted) (by omega)
    rw [← next] at continued laid
    refine ⟨_, allocateLoop_cons_eq_ok.mpr ⟨?_, rest, rfl, continued⟩, ?_, laid⟩
    · rw [ends]
      omega
    · rw [Subnet.block_networkInt, start]

/-- Below the top of the address space a plan that is returned lies end to end. -/
theorem endToEnd_of_returned {parent : Subnet} {top : Nat} (ends : parent.broadcastInt = top)
    (below : top + 1 < 2 ^ 32) {reqs : List (ν × Nat)} (sorted : reqs.Pairwise BiggerFirst)
    {cursor : Nat} (aligned : Aligned cursor reqs) (near : cursor ≤ top + 1)
    {plan : List (ν × Subnet)} (returned : allocateLoop parent cursor reqs = .ok plan) :
    EndToEnd cursor plan := by
  induction reqs generalizing cursor plan with
  | nil =>
    cases returned
    trivial
  | cons req reqs ih =>
    obtain ⟨within, rest, rfl, continued⟩ := allocateLoop_cons_eq_ok.mp returned
    obtain ⟨start, next⟩ :=
      block_at_cursor (by omega : cursor < 2 ^ 32) (aligned req List.mem_cons_self)
    rw [ends, Nat.cast_le] at within
    refine ⟨by rw [Subnet.block_networkInt, start], ?_⟩
    apply ih (List.pairwise_cons.mp sorted).2 _ (by omega) continued
    rw [next]
    exact aligned.next sorted

/-- In a parent that ends with the last address no requirement is ever refused. -/
theorem allocateLoop_returns {parent : Subnet} (ends : parent.broadcastInt = 2 ^ 32 - 1)
    (reqs : List (ν × Nat)) (cursor : Nat) :
    ∃ plan, allocateLoop parent cursor reqs = .ok plan := by
  induction reqs generalizing cursor with
  | nil => exact ⟨[], rfl⟩
  | cons req reqs ih =>
    obtain ⟨rest, continued⟩ := ih (blockEnd (blockBits req.2) (cursor % 2 ^ 32) + 1)
    refine ⟨_, allocateLoop_cons_eq_ok.mpr ⟨?_, rest, rfl, continued⟩⟩
    have inside := blockEnd_lt (Nat.mod_lt cursor (Nat.two_pow_pos 32)) (blockBits_le req.2)
    rw [ends]
    omega

/-! ## The parent -/

section Parent

variable {cidr : Str} {address prefixLength : Nat}

theorem vlsmAllocate_eq (reads : ReadsCidr cidr address prefixLength) (reqs : List (ν × Nat)) :
    vlsmAllocate cidr reqs =
      allocateLoop (Subnet.block (32 - prefixLength) address)
        (blockStart (32 - prefixLength) address : Nat) (reqs.insertionSort BiggerFirst) := by
  simp only [vlsmAllocate, Subnet.ofCidr_eq reads, bind, Except.bind, Subnet.block_networkInt]

theorem ReadsCidr.lt (reads : ReadsCidr cidr address prefixLength) : address < 2 ^ 32 := by
  cases reads with
  | slash _ net _ _ => exact net.lt

/-- The parent's start is aligned when its largest requirement is no larger than it. -/
theorem aligned_start {reqs : List (ν × Nat)} (sorted : reqs.Pairwise BiggerFirst) {bits : Nat}
    (noLarger : ∀ req ∈ reqs.head?, blockSize req.2 ≤ 2 ^ bits) :
    Aligned (blockStart bits address) reqs := by
  intro req member
  obtain ⟨first, rest, rfl⟩ := List.exists_cons_of_ne_nil (List.ne_nil_of_mem member)
  have smaller : blockSize req.2 ∣ blockSize first.2 := by
    obtain rfl | later := List.mem_cons.mp member
    · exact dvd_rfl
    · exact blockSize_dvd ((List.pairwise_cons.mp sorted).1 req later)
  have narrow : blockBits first.2 ≤ bits :=
    (Nat.pow_le_pow_iff_right (by decide)).mp (noLarger first rfl)
  exact smaller.trans ((Nat.pow_dvd_pow 2 narrow).trans (dvd_blockStart bits address))

theorem packs (reads : ReadsCidr cidr address prefixLength) {reqs : List (ν × Nat)}
    (fits : (reqs.map fun req => blockSize req.2).sum ≤ 2 ^ (32 - prefixLength)) :
    ∃ plan, vlsmAllocate cidr reqs = .ok plan ∧
      EndToEnd (blockStart (32 - prefixLength) address : Nat) plan := by
  have perm := reqs.perm_insertionSort BiggerFirst
  have sorted := List.pairwise_insertionSort BiggerFirst reqs
  rw [← (perm.map fun req => blockSize req.2).sum_eq] at fits
  rw [vlsmAllocate_eq reads]
  refine allocateLoop_fits (Subnet.block_broadcastInt _ _)
    (blockEnd_lt reads.lt (Nat.sub_le 32 prefixLength)) sorted (aligned_start sorted ?_) ?_
  · intro first isFirst
    refine le_trans (List.single_le_sum (by simp) _ ?_) fits
    exact List.mem_map_of_mem (List.mem_of_mem_head? isFirst)
  · rw [blockEnd_add_one]
    omega

/-- When the sizes fit, the plan serves every requirement with a smallest block, the
    largest first, end to end from the parent's network address. -/
theorem vlsm_packs_completely {cidr : Str} {address prefixLength : Nat}
    (reads : ReadsCidr cidr address prefixLength) {parent : Subnet}
    (opened : Subnet.ofCidr cidr = .ok parent) (reqs : List (ν × Nat)) (bits : Nat → Nat)
    (smallest : ∀ req ∈ reqs, SmallestBlock req.2 (bits req.2))
    (fits : (reqs.map fun req => (2 ^ bits req.2 : Int)).sum ≤ parent.totalAddresses) :
    ∃ (plan : List (ν × Subnet)) (ordered : List (ν × Nat)),
      vlsmAllocate cidr reqs = .ok plan ∧ ordered.Perm reqs ∧
      ordered.Pairwise (fun x y => y.2 ≤ x.2) ∧
      plan.map (fun entry => (entry.1, entry.2.totalAddresses)) =
        ordered.map (fun req => (req.1, 2 ^ bits req.2)) ∧
      EndToEnd parent.networkInt plan := by
  rw [Subnet.ofCidr_eq reads, Except.ok.injEq] at opened
  subst opened
  -- the smallest block for a requirement is the one that the code computes
  have sizes : ∀ req ∈ reqs, ((blockSize req.2 : Nat) : Int) = 2 ^ bits req.2 := by
    intro req member
    rw [blockSize, (smallest req member).blockBits_eq, Nat.cast_pow, Nat.cast_ofNat]
  have fitsIn : (reqs.map fun req => blockSize req.2).sum ≤ 2 ^ (32 - prefixLength) := by
    rw [Subnet.block_totalAddresses, ← List.map_congr_left sizes] at fits
    apply Int.ofNat_le.mp
    rw [Nat.cast_list_sum, List.map_map]
    exact fits
  obtain ⟨plan, returned, laid⟩ := packs reads fitsIn
  have perm := reqs.perm_insertionSort BiggerFirst
  refine ⟨plan, _, returned, perm, List.pairwise_insertionSort BiggerFirst reqs, ?_, laid⟩
  rw [vlsmAllocate_eq reads] at returned
  rw [(allocateLoop_serves returned).1]
  apply List.map_congr_left
  intro req member
  rw [sizes req (perm.mem_iff.mp member)]

/-- The block of the program's own demonstration. -/
theorem readsCidr_sample : ReadsCidr (lit "172.16.0.0/24") 2886729728 24 := by
  have text : lit "172.16.0.0/24" = cidrText (2886729728 : Nat) (24 : Nat) := by decide
  rw [text]
  exact readsCidr_cidrText 2886729728 (by decide)

def sampleReqs : List (Str × Nat) :=
  [(lit "p2p", 2), (lit "sales", 100), (lit "eng", 50), (lit "ops", 25)]

theorem sampleReqs_packed :
    ∃ (plan : List (Str × Subnet)) (ordered : List (Str × Nat)),
      vlsmAllocate (lit "172.16.0.0/24") sampleReqs = .ok plan ∧ ordered.Perm sampleReqs ∧
      ordered.Pairwise (fun x y => y.2 ≤ x.2) ∧
      plan.map (fun entry => (entry.1, entry.2.totalAddresses)) =
        ordered.map (fun req => (req.1, 2 ^ blockBits req.2)) ∧
      EndToEnd (Subnet.block 8 2886729728).networkInt plan := by
  have smallest : ∀ req ∈ sampleReqs, SmallestBlock req.2 (blockBits req.2) := by
    have satisfiable : ∀ req ∈ sampleReqs, req.2 ≤ 2 ^ 32 - 2 := by decide
    exact fun req member => smallestBlock_blockBits (satisfiable req member)
  exact vlsm_packs_completely readsCidr_sample (Subnet.ofCidr_eq readsCidr_sample) sampleReqs
    blockBits smallest (by decide)

/-- A plan that is returned serves every requirement, so a safe one fits. -/
theorem fits_of_safe (reads : ReadsCidr cidr address prefixLength) {reqs : List (ν × Nat)}
    {plan : List (ν × Subnet)} (returned : vlsmAllocate cidr reqs = .ok plan)
    (safe : SafePlan (Subnet.block (32 - prefixLength) address) plan) :
    (reqs.map fun req => blockSize req.2).sum ≤ 2 ^ (32 - prefixLength) := by
  rw [vlsmAllocate_eq reads] at returned
  have size := blockEnd_add_one (32 - prefixLength) address
  have positive := Nat.two_pow_pos (32 - prefixLength)
  have nonempty : (Subnet.block (32 - prefixLength) address).networkInt ≤
      (Subnet.block (32 - prefixLength) address).broadcastInt := by
    rw [Subnet.block_networkInt, Subnet.block_broadcastInt]
    omega
  have bound := safe.sum_le (allocateLoop_serves returned).1 nonempty
  rw [Subnet.block_totalAddresses, Nat.cast_le] at bound
  have perm := reqs.perm_insertionSort BiggerFirst
  rwa [← (perm.map fun req => blockSize req.2).sum_eq]

theorem safe_of_endToEnd (reads : ReadsCidr cidr address prefixLength) {reqs : List (ν × Nat)}
    {plan : List (ν × Subnet)} (returned : vlsmAllocate cidr reqs = .ok plan)
    (laid : EndToEnd (blockStart (32 - prefixLength) address : Nat) plan) :
    SafePlan (Subnet.block (32 - prefixLength) address) plan := by
  rw [vlsmAllocate_eq reads] at returned
  obtain ⟨serves, bounded⟩ := allocateLoop_serves returned
  exact EndToEnd.safe serves.nonempty bounded laid

/-- A block larger than the parent that is not refused ends where the parent ends. -/
theorem larger_block_ends {bits larger : Nat} (isLarger : bits ≤ larger)
    (within : blockEnd larger (blockStart bits address) ≤ blockEnd bits address) :
    blockEnd larger (blockStart bits address) = blockEnd bits address := by
  have start := le_blockEnd larger (blockStart bits address)
  have reaches := add_le_of_dvd (dvd_blockStart bits address)
    ((Nat.pow_dvd_pow 2 isLarger).trans (dvd_blockEnd_add_one larger (blockStart bits address)))
    (by omega)
  rw [← blockEnd_add_one] at reaches
  omega

/-- A plan for several requirements in a parent below the top of the address space. -/
theorem endToEnd_below_top (reads : ReadsCidr cidr address prefixLength)
    (below : blockEnd (32 - prefixLength) address + 1 < 2 ^ 32) {reqs : List (ν × Nat)}
    (notAlone : ∀ req, reqs = [req] →
      ¬ blockSize req.2 ∣ blockEnd (32 - prefixLength) address + 1)
    {plan : List (ν × Subnet)} (returned : vlsmAllocate cidr reqs = .ok plan) :
    EndToEnd (blockStart (32 - prefixLength) address : Nat) plan := by
  have size := blockEnd_add_one (32 - prefixLength) address
  have positive := Nat.two_pow_pos (32 - prefixLength)
  have sorted := List.pairwise_insertionSort BiggerFirst reqs
  have perm := reqs.perm_insertionSort BiggerFirst
  rw [vlsmAllocate_eq reads] at returned
  generalize reqs.insertionSort BiggerFirst = ordered at *
  by_cases noLarger : ∀ req ∈ ordered.head?, blockSize req.2 ≤ 2 ^ (32 - prefixLength)
  -- no block is larger than the parent, so the cursor stays aligned
  · exact endToEnd_of_returned (Subnet.block_broadcastInt _ _) below sorted
      (aligned_start sorted noLarger) (by omega) returned
  · -- The first block is larger than the parent and ends with it; nothing can follow it.
    simp only [Option.mem_def, not_forall, not_le] at noLarger
    obtain ⟨first, isFirst, larger⟩ := noLarger
    obtain ⟨rest, rfl⟩ := List.head?_eq_some_iff.mp isFirst
    obtain ⟨within, later, rfl, continued⟩ := allocateLoop_cons_eq_ok.mp returned
    have wider : 32 - prefixLength ≤ blockBits first.2 :=
      ((Nat.pow_lt_pow_iff_right (by decide)).mp larger).le
    have isAddress : blockStart (32 - prefixLength) address < 2 ^ 32 := by omega
    rw [Nat.mod_eq_of_lt isAddress, Subnet.block_broadcastInt, Nat.cast_le] at within
    have ends := larger_block_ends wider within
    have divides : blockSize first.2 ∣ blockEnd (32 - prefixLength) address + 1 := by
      rw [← ends]
      exact dvd_blockEnd_add_one _ _
    cases rest with
    | nil => exact absurd divides (notAlone first (List.perm_singleton.mp perm.symm))
    | cons second rest =>
      rw [Nat.mod_eq_of_lt isAddress, ends] at continued
      -- a second block would begin behind the parent
      obtain ⟨withinToo, -⟩ := allocateLoop_cons_eq_ok.mp continued
      have behind := le_blockEnd (blockBits second.2)
        ((blockEnd (32 - prefixLength) address + 1) % 2 ^ 32)
      rw [Nat.mod_eq_of_lt below] at withinToo behind
      rw [Subnet.block_broadcastInt, Nat.cast_le] at withinToo
      omega

/-- A single block that ends with the parent is given out, however large it is. -/
theorem returned_of_single {cidr : Str} {address prefixLength : Nat}
    (reads : ReadsCidr cidr address prefixLength) {req : ν × Nat}
    (ends : blockSize req.2 ∣ blockEnd (32 - prefixLength) address + 1) :
    vlsmAllocate cidr [req] = .ok [(req.1, Subnet.block (blockBits req.2)
      (blockStart (32 - prefixLength) address % 2 ^ 32))] := by
  have isAddress := blockEnd_lt reads.lt (Nat.sub_le 32 prefixLength)
  have size := blockEnd_add_one (32 - prefixLength) address
  have positive := Nat.two_pow_pos (32 - prefixLength)
  -- The block around the parent's start ends no later than the parent.
  have before := blockStart_le (blockBits req.2) (blockStart (32 - prefixLength) address)
  have within := add_le_of_dvd
    (dvd_blockStart (blockBits req.2) (blockStart (32 - prefixLength) address)) ends (by omega)
  rw [← blockEnd_add_one] at within
  rw [vlsmAllocate_eq reads]
  refine allocateLoop_cons_eq_ok.mpr ⟨?_, [], rfl, rfl⟩
  rw [Nat.mod_eq_of_lt (by omega), Subnet.block_broadcastInt, Nat.cast_le]
  omega

/-- Plans that are returned stay inside the parent and do not overlap exactly when the
    sizes fit, or the parent ends below the last address and its end is not that of a
    single larger block. -/
theorem plan_inside_and_disjoint_iff {cidr : Str} {address prefixLength : Nat}
    (reads : ReadsCidr cidr address prefixLength) {parent : Subnet}
    (opened : Subnet.ofCidr cidr = .ok parent) (reqs : List (ν × Nat)) :
    (∀ plan, vlsmAllocate cidr reqs = .ok plan → SafePlan parent plan) ↔
      ((reqs.map fun req => (blockSize req.2 : Int)).sum ≤ parent.totalAddresses ∨
        parent.broadcastInt ≠ 2 ^ 32 - 1 ∧
          ∀ req, reqs = [req] → ¬ (blockSize req.2 : Int) ∣ parent.broadcastInt + 1) := by
  rw [Subnet.ofCidr_eq reads, Except.ok.injEq] at opened
  subst opened
  have isAddress := blockEnd_lt reads.lt (Nat.sub_le 32 prefixLength)
  have size := blockEnd_add_one (32 - prefixLength) address
  have sum : (reqs.map fun req => (blockSize req.2 : Int)).sum =
      ((reqs.map fun req => blockSize req.2).sum : Nat) := by
    rw [Nat.cast_list_sum, List.map_map]
    rfl
  have divides (hosts : Nat) :
      (blockSize hosts : Int) ∣ (blockEnd (32 - prefixLength) address : Int) + 1 ↔
        blockSize hosts ∣ blockEnd (32 - prefixLength) address + 1 := by
    rw [← Nat.cast_one, ← Nat.cast_add, Int.natCast_dvd_natCast]
  simp only [sum, Subnet.block_totalAddresses, Subnet.block_broadcastInt, Nat.cast_le, divides]
  constructor
  · intro safe
    by_contra neither
    rw [not_or, not_and_or] at neither
    obtain ⟨tooMuch, top | alone⟩ := neither
    · -- Nothing is refused, so there is a plan, and a safe one would fit.
      have ends : (Subnet.block (32 - prefixLength) address).broadcastInt = 2 ^ 32 - 1 :=
        not_not.mp top
      obtain ⟨plan, returned⟩ := allocateLoop_returns ends (reqs.insertionSort BiggerFirst)
        (blockStart (32 - prefixLength) address)
      rw [← vlsmAllocate_eq reads] at returned
      exact tooMuch (fits_of_safe reads returned (safe plan returned))
    -- the single block that ends with the parent is given out
    · simp only [not_forall, not_not] at alone
      obtain ⟨req, rfl, ends⟩ := alone
      have returned := returned_of_single reads ends
      exact tooMuch (fits_of_safe reads returned (safe _ returned))
  · rintro (fits | ⟨below, notAlone⟩) plan returned
    -- what fits is laid end to end, and the plan is the one returned
    · obtain ⟨plan', returned', laid⟩ := packs reads fits
      rw [returned, Except.ok.injEq] at returned'
      subst returned'
      exact safe_of_endToEnd reads returned laid
    · exact safe_of_endToEnd reads returned
        (endToEnd_below_top reads (by omega) notAlone returned)

theorem sampleReqs_safe :
    ∃ plan, vlsmAllocate (lit "172.16.0.0/24") sampleReqs = .ok plan ∧
      SafePlan (Subnet.block 8 2886729728) plan := by
  have fits : (sampleReqs.map fun req => blockSize req.2).sum ≤ 2 ^ (32 - 24) := by decide
  obtain ⟨plan, returned, -⟩ := packs readsCidr_sample fits
  exact ⟨plan, returned, (plan_inside_and_disjoint_iff readsCidr_sample
    (Subnet.ofCidr_eq readsCidr_sample) sampleReqs).mpr (.inl (by decide)) plan returned⟩

/-- 200 hosts need 256 addresses, twice the parent: the plan has the `/24` in whose upper
    half the parent lies.  In a parent at the top of the address space the second
    requirement gets `0.0.0.0`. -/
theorem larger_block_leaves_parent :
    (ReadsCidr (lit "10.0.0.128/25") 167772288 25 ∧
      vlsmAllocate (lit "10.0.0.128/25") [(lit "site", 200)] =
        .ok [(lit "site", Subnet.block 8 167772160)] ∧
      ¬ SafePlan (Subnet.block 7 167772288) [(lit "site", Subnet.block 8 167772160)]) ∧
    ReadsCidr (lit "255.255.255.254/31") 4294967294 31 ∧
      vlsmAllocate (lit "255.255.255.254/31") [(lit "link", 2), (lit "host", 1)] =
        .ok [(lit "link", Subnet.block 1 4294967294), (lit "host", Subnet.block 0 0)] ∧
      ¬ SafePlan (Subnet.block 1 4294967294)
        [(lit "link", Subnet.block 1 4294967294), (lit "host", Subnet.block 0 0)] := by
  have half : lit "10.0.0.128/25" = cidrText (167772288 : Nat) (25 : Nat) := by decide
  have top : lit "255.255.255.254/31" = cidrText (4294967294 : Nat) (31 : Nat) := by decide
  refine ⟨⟨?_, by decide +kernel, ?_⟩, ?_, by decide +kernel, ?_⟩
  · rw [half]
    exact readsCidr_cidrText 167772288 (by decide)
  · intro safe
    exact absurd (safe.inside _ List.mem_cons_self).1 (by decide)
  · rw [top]
    exact readsCidr_cidrText 4294967294 (by decide)
  · intro safe
    exact absurd (safe.inside (lit "host", Subnet.block 0 0) (by simp)).1 (by decide)

end Parent

end Excalibur.SubnetCalculator
