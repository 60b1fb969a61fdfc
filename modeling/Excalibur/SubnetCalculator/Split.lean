import Excalibur.SubnetCalculator.Subnet

/-! # Splitting a block

`split` moves an address through the block in steps of the child's size and reads each
child back from the text of that address.  The address is a Python integer: behind
255.255.255.255 it is larger than every broadcast address, and the loop ends there too.
`split_eq` lists the children; that they partition the block is read off the list.
-/

namespace Excalibur.SubnetCalculator

open Excalibur.Library Excalibur.Python

namespace Subnet

/-- The loop on `addr`. -/
def splitLoop (broadcastInt newPrefix step : Int) (positive : 0 < step) (addr : Int) :
    Except PyError (List Subnet) :=
  if addr ≤ broadcastInt then do
    let child ← ofCidr (cidrText addr newPrefix)
    let children ← splitLoop broadcastInt newPrefix step positive (addr + step)
    return child :: children
  else .ok []
termination_by (broadcastInt + 1 - addr).toNat

/-- `1 << (32 - new_prefix)`. -/
def childSize (newPrefix : Int) : Int := (1 : Int) <<< (32 - newPrefix)

theorem childSize_eq {newPrefix : Nat} (narrow : newPrefix ≤ 32) :
    childSize newPrefix = (2 ^ (32 - newPrefix) : Nat) := by
  have distance : (32 : Int) - newPrefix = (32 - newPrefix : Nat) := by omega
  have shifted := shiftLeft_natCast 1 (32 - newPrefix)
  rwa [Nat.one_mul, Nat.cast_one, ← distance] at shifted

theorem childSize_pos {newPrefix : Int} (narrow : newPrefix ≤ 32) : 0 < childSize newPrefix := by
  have distance : (32 : Int) - newPrefix = (32 - newPrefix).toNat := by omega
  have shifted := shiftLeft_natCast 1 (32 - newPrefix).toNat
  rw [childSize, distance]
  refine lt_of_lt_of_eq ?_ shifted.symm
  positivity

def split (s : Subnet) (newPrefix : Int) : Except PyError (List Subnet) :=
  if s.prefixLength < newPrefix then
    if narrow : newPrefix ≤ 32 then
      splitLoop s.broadcastInt newPrefix (childSize newPrefix) (childSize_pos narrow) s.networkInt
    else .error .valueError  -- a shift by a negative number
  else .error .assertionError

end Subnet

/-! ## The children -/

/-- The blocks of `2 ^ bits` addresses from `start` on. -/
def blocksFrom (bits start count : Nat) : List Subnet :=
  (List.range count).map fun i => Subnet.block bits (start + i * 2 ^ bits)

theorem blocksFrom_succ (bits start count : Nat) :
    blocksFrom bits start (count + 1) =
      Subnet.block bits start :: blocksFrom bits (start + 2 ^ bits) count := by
  have moved : ∀ i, start + (i + 1) * 2 ^ bits = start + 2 ^ bits + i * 2 ^ bits := by
    intro i
    rw [Nat.add_one_mul]
    omega
  simp [blocksFrom, List.range_succ_eq_map, Function.comp_def, moved]

/-- The loop with `count` children to go, none of which starts behind the last address. -/
theorem splitLoop_eq {newPrefix : Nat} (narrow : newPrefix ≤ 32) (count addr : Nat)
    (fits : addr + count * 2 ^ (32 - newPrefix) ≤ 2 ^ 32)
    (positive : (0 : Int) < (2 ^ (32 - newPrefix) : Nat)) (broadcastInt : Int)
    (ends : broadcastInt + 1 = (addr + count * 2 ^ (32 - newPrefix) : Nat)) :
    Subnet.splitLoop broadcastInt newPrefix (2 ^ (32 - newPrefix) : Nat) positive addr =
      .ok (blocksFrom (32 - newPrefix) addr count) := by
  have size := Nat.two_pow_pos (32 - newPrefix)
  induction count generalizing addr with
  | zero =>
    rw [Subnet.splitLoop, if_neg (by omega)]
    rfl
  | succ count ih =>
    rw [Nat.add_one_mul] at fits ends
    have opened := Subnet.ofCidr_eq (readsCidr_cidrText addr narrow)
    rw [Nat.mod_eq_of_lt (by omega)] at opened
    have moved : (addr : Int) + (2 ^ (32 - newPrefix) : Nat) =
        (addr + 2 ^ (32 - newPrefix) : Nat) := by
      omega
    have rest := ih (addr + 2 ^ (32 - newPrefix)) (by omega) (by omega)
    rw [Subnet.splitLoop, if_pos (by omega), moved, blocksFrom_succ]
    simp only [opened, rest, bind, Except.bind, pure, Except.pure]

theorem split_eq {prefixLength newPrefix : Nat} (longer : prefixLength < newPrefix)
    (narrow : newPrefix ≤ 32) {address : Nat} (inside : address < 2 ^ 32) :
    (Subnet.block (32 - prefixLength) address).split newPrefix =
      .ok (blocksFrom (32 - newPrefix) (blockStart (32 - prefixLength) address)
        (2 ^ (newPrefix - prefixLength))) := by
  have positive : (0 : Int) < (2 ^ (32 - newPrefix) : Nat) := by positivity
  have whole : 2 ^ (newPrefix - prefixLength) * 2 ^ (32 - newPrefix) = 2 ^ (32 - prefixLength) := by
    rw [← pow_add]
    congr 1
    omega
  have top := blockEnd_lt inside (Nat.sub_le 32 prefixLength)
  have ends := blockEnd_add_one (32 - prefixLength) address
  have loop := splitLoop_eq narrow (2 ^ (newPrefix - prefixLength))
    (blockStart (32 - prefixLength) address) (by rw [whole]; omega) positive
    (blockEnd (32 - prefixLength) address) (by rw [whole]; omega)
  have shorter : (Subnet.block (32 - prefixLength) address).prefixLength < newPrefix := by
    rw [Subnet.block_prefixLength]
    omega
  have fits : (newPrefix : Int) ≤ 32 := by omega
  simp only [Subnet.split, if_pos shorter, dif_pos fits, Subnet.childSize_eq narrow]
  exact loop

/-! ## The partition -/

def Subnet.Contains (s : Subnet) (address : Int) : Prop :=
  s.networkInt ≤ address ∧ address ≤ s.broadcastInt

structure Partition (s : Subnet) (newPrefix : Nat) (children : List Subnet) : Prop where
  count : children.length = 2 ^ (newPrefix - s.prefixLength).toNat
  sized : ∀ child ∈ children,
    child.prefixLength = newPrefix ∧ child.totalAddresses = (2 ^ (32 - newPrefix) : Nat)
  aligned : ∀ child ∈ children, ((2 ^ (32 - newPrefix) : Nat) : Int) ∣ child.networkInt
  disjoint : children.Pairwise fun child later => child.broadcastInt < later.networkInt
  contiguous : children.IsChain fun child next => next.networkInt = child.broadcastInt + 1
  covers : ∀ address, (∃ child ∈ children, child.Contains address) ↔ s.Contains address

section Blocks

variable {bits start count : Nat}

theorem block_bounds (aligned : 2 ^ bits ∣ start) (i : Nat) :
    (Subnet.block bits (start + i * 2 ^ bits)).networkInt = (start + i * 2 ^ bits : Nat) ∧
      (Subnet.block bits (start + i * 2 ^ bits)).broadcastInt + 1 =
        (start + i * 2 ^ bits + 2 ^ bits : Nat) := by
  have first : blockStart bits (start + i * 2 ^ bits) = start + i * 2 ^ bits :=
    blockStart_of_dvd (aligned.add (Nat.dvd_mul_left _ _))
  have last := blockEnd_add_one bits (start + i * 2 ^ bits)
  rw [first] at last
  refine ⟨congrArg Nat.cast first, ?_⟩
  rw [Subnet.block_broadcastInt, ← last]
  rfl

theorem blocksFrom_disjoint (aligned : 2 ^ bits ∣ start) :
    (blocksFrom bits start count).Pairwise fun child later =>
      child.broadcastInt < later.networkInt := by
  refine List.pairwise_map.mpr (List.pairwise_lt_range.imp ?_)
  intro i j less
  obtain ⟨-, ends⟩ := block_bounds aligned i
  obtain ⟨begins, -⟩ := block_bounds aligned j
  have behind : (i + 1) * 2 ^ bits ≤ j * 2 ^ bits := Nat.mul_le_mul_right _ less
  rw [Nat.add_one_mul] at behind
  omega

theorem blocksFrom_contiguous (aligned : 2 ^ bits ∣ start) :
    (blocksFrom bits start count).IsChain fun child next =>
      next.networkInt = child.broadcastInt + 1 := by
  rw [blocksFrom, List.isChain_map, List.isChain_range]
  intro i _
  rw [(block_bounds aligned i).2, (block_bounds aligned (i + 1)).1, Nat.add_one_mul, Nat.add_assoc]

theorem blocksFrom_covers (aligned : 2 ^ bits ∣ start) (address : Int) :
    (∃ child ∈ blocksFrom bits start count, child.Contains address) ↔
      (start : Int) ≤ address ∧ address < (start + count * 2 ^ bits : Nat) := by
  have parts : (∃ child ∈ blocksFrom bits start count, child.Contains address) ↔
      ∃ i < count, ((start + i * 2 ^ bits : Nat) : Int) ≤ address ∧
        address < (start + i * 2 ^ bits + 2 ^ bits : Nat) := by
    simp only [blocksFrom, List.mem_map, List.mem_range, exists_exists_and_eq_and]
    apply exists_congr
    intro i
    obtain ⟨begins, ends⟩ := block_bounds aligned i
    rw [Subnet.Contains, begins, ← ends, Int.lt_add_one_iff]
  rw [parts]
  cases address with
  | ofNat a =>
    simp only [Int.ofNat_eq_natCast, Nat.cast_le, Nat.cast_lt]
    exact exists_part_iff (Nat.two_pow_pos bits)
  | negSucc a =>
    -- No address is negative.
    constructor
    · rintro ⟨i, -, lower, -⟩
      omega
    · rintro ⟨lower, -⟩
      omega

end Blocks

theorem split_partitions {cidr : Str} {address prefixLength newPrefix : Nat}
    (reads : ReadsCidr cidr address prefixLength) {s : Subnet} (opened : Subnet.ofCidr cidr = .ok s)
    (longer : prefixLength < newPrefix) (narrow : newPrefix ≤ 32) :
    ∃ children, s.split newPrefix = .ok children ∧ Partition s newPrefix children := by
  have inside : address < 2 ^ 32 := by
    cases reads with
    | slash _ net _ _ => exact net.lt
  rw [Subnet.ofCidr_eq reads, Except.ok.injEq] at opened
  subst opened
  -- A parent starts at a multiple of its own size, hence of every smaller block.
  have aligned : 2 ^ (32 - newPrefix) ∣ blockStart (32 - prefixLength) address :=
    (Nat.pow_dvd_pow 2 (by omega)).trans (dvd_blockStart _ _)
  have longerBy : ((newPrefix : Int) - (Subnet.block (32 - prefixLength) address).prefixLength).toNat =
      newPrefix - prefixLength := by
    rw [Subnet.block_prefixLength]
    omega
  have whole : 2 ^ (newPrefix - prefixLength) * 2 ^ (32 - newPrefix) = 2 ^ (32 - prefixLength) := by
    rw [← pow_add]
    congr 1
    omega
  -- Number of children, their sizes, their alignment, and the addresses they cover.
  refine ⟨_, split_eq longer narrow inside, ?_, ?_, ?_, blocksFrom_disjoint aligned,
    blocksFrom_contiguous aligned, ?_⟩
  · rw [longerBy]
    simp [blocksFrom]
  · intro child member
    obtain ⟨i, -, rfl⟩ := List.mem_map.mp member
    refine ⟨?_, Subnet.block_totalAddresses _ _⟩
    rw [Subnet.block_prefixLength]
    omega
  · intro child member
    obtain ⟨i, -, rfl⟩ := List.mem_map.mp member
    rw [Subnet.block_networkInt, Int.natCast_dvd_natCast]
    exact dvd_blockStart _ _
  · intro a
    have ends := blockEnd_add_one (32 - prefixLength) address
    rw [blocksFrom_covers aligned, whole, ← ends, Subnet.Contains, Subnet.block_networkInt,
      Subnet.block_broadcastInt]
    omega

/-- The demonstration's block, and one that ends at the last address. -/
theorem sample_splits :
    (∃ children, (Subnet.block 10 167772160).split (24 : Nat) = .ok children ∧
      Partition (Subnet.block 10 167772160) 24 children) ∧
    ∃ children, (Subnet.block 1 4294967294).split (32 : Nat) = .ok children ∧
      Partition (Subnet.block 1 4294967294) 32 children := by
  have demonstration : ReadsCidr (cidrText (167772160 : Nat) (22 : Nat)) 167772160 22 :=
    readsCidr_cidrText 167772160 (by decide)
  have top : ReadsCidr (cidrText (4294967294 : Nat) (31 : Nat)) 4294967294 31 :=
    readsCidr_cidrText 4294967294 (by decide)
  exact ⟨split_partitions demonstration (Subnet.ofCidr_eq demonstration) (by decide) (by decide),
    split_partitions top (Subnet.ofCidr_eq top) (by decide) (by decide)⟩

end Excalibur.SubnetCalculator
