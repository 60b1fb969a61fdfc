import Excalibur.Library.AlignedBlock
import Excalibur.Python.IntParse

/-! # Subnets

The bit arithmetic of the subnet calculator on Python's integers, and the texts it goes
through: a subnet is always read from its CIDR text, also where the program has just
printed one.  `ofCidr_eq` says what is read: the aligned block around the address.
-/

namespace Excalibur.SubnetCalculator

open Excalibur.Library Excalibur.Python

def ipToInt (ip : Str) : Except PyError Int := do
  match ← (ip.splitOn '.').mapM intOfStr with
  | [a, b, c, d] =>
    return (((a <<< (24 : Int)).lor (b <<< (16 : Int))).lor (c <<< (8 : Int))).lor d
  | _ => .error .valueError

def intToIp (n : Int) : Str :=
  ['.'].intercalate
    [strOfInt ((n >>> (24 : Int)).land 0xFF), strOfInt ((n >>> (16 : Int)).land 0xFF),
      strOfInt ((n >>> (8 : Int)).land 0xFF), strOfInt (n.land 0xFF)]

def maskFromPrefix (prefixLength : Int) : Except PyError Int :=
  if prefixLength = 0 then .ok 0
  else if 32 - prefixLength < 0 then .error .valueError
  else .ok (((0xFFFFFFFF : Int) <<< (32 - prefixLength)).land 0xFFFFFFFF)

/-- `prefix`, `mask`, `network_int` and `broadcast_int`. -/
structure Subnet where
  prefixLength : Int
  mask : Int
  networkInt : Int
  broadcastInt : Int
  deriving Repr, DecidableEq

/-- `f"{int_to_ip(address)}/{prefix}"`. -/
def cidrText (address prefixLength : Int) : Str :=
  intToIp address ++ '/' :: strOfInt prefixLength

namespace Subnet

/-- `__init__`. -/
def ofCidr (cidr : Str) : Except PyError Subnet :=
  match cidr.splitOn '/' with
  | [netStr, prefixStr] => do
    let prefixLength ← intOfStr prefixStr
    let mask ← maskFromPrefix prefixLength
    let ipInt ← ipToInt netStr
    let networkInt := ipInt.land mask
    return ⟨prefixLength, mask, networkInt, networkInt.lor (mask.lnot.land 0xFFFFFFFF)⟩
  | _ => .error .valueError

def totalAddresses (s : Subnet) : Int := s.broadcastInt - s.networkInt + 1

def usableHosts (s : Subnet) : Int :=
  if 31 ≤ s.prefixLength then s.totalAddresses else s.totalAddresses - 2

/-- The block of `2 ^ bits` addresses around an address. -/
def block (bits address : Nat) : Subnet where
  prefixLength := 32 - bits
  mask := (2 ^ 32 - 2 ^ bits : Nat)
  networkInt := blockStart bits address
  broadcastInt := blockEnd bits address

end Subnet

/-! ## Valid texts -/

/-- Four numbers below 256, separated by dots. -/
inductive ReadsAddress : Str → Nat → Prop where
  | quad {ip first second third fourth : Str} {a b c d : Nat}
      (split : ip.splitOn '.' = [first, second, third, fourth])
      (readFirst : intOfStr first = .ok a) (readSecond : intOfStr second = .ok b)
      (readThird : intOfStr third = .ok c) (readFourth : intOfStr fourth = .ok d)
      (small : a < 256 ∧ b < 256 ∧ c < 256 ∧ d < 256) :
      ReadsAddress ip (((a * 256 + b) * 256 + c) * 256 + d)

/-- An address and a prefix length of at most 32, separated by a slash. -/
inductive ReadsCidr : Str → Nat → Nat → Prop where
  | slash {cidr netStr prefixStr : Str} {address prefixLength : Nat}
      (split : cidr.splitOn '/' = [netStr, prefixStr]) (net : ReadsAddress netStr address)
      (readPrefix : intOfStr prefixStr = .ok prefixLength) (narrow : prefixLength ≤ 32) :
      ReadsCidr cidr address prefixLength

theorem ReadsAddress.lt {ip : Str} {address : Nat} (reads : ReadsAddress ip address) :
    address < 2 ^ 32 := by
  cases reads
  omega

/-! ## Shifts and masks of natural numbers -/

theorem shiftLeft_natCast (n k : Nat) : (n : Int) <<< (k : Int) = ((n * 2 ^ k : Nat) : Int) := by
  rw [Int.shiftLeft_natCast, Nat.shiftLeft_eq]

theorem shiftRight_natCast (n k : Nat) : (n : Int) >>> (k : Int) = ((n / 2 ^ k : Nat) : Int) := by
  rw [Int.shiftRight_natCast, Nat.shiftRight_eq_div_pow]

theorem land_byte (n : Nat) : (n : Int).land 0xFF = ((n % 256 : Nat) : Int) := by
  show ((n &&& 2 ^ 8 - 1 : Nat) : Int) = _
  rw [Nat.and_two_pow_sub_one_eq_mod]

theorem mul_lor {high low k : Nat} (small : low < 2 ^ k) :
    ((high * 2 ^ k : Nat) : Int).lor low = ((high * 2 ^ k + low : Nat) : Int) := by
  show ((high * 2 ^ k ||| low : Nat) : Int) = _
  rw [Nat.mul_comm, Nat.two_pow_add_eq_or_of_lt small]

/-- The four parts lie beside each other, so setting bits is adding. -/
theorem join_octets {a b c d : Nat} (bSmall : b < 256) (cSmall : c < 256) (dSmall : d < 256) :
    ((((a : Int) <<< (24 : Int)).lor ((b : Int) <<< (16 : Int))).lor
      ((c : Int) <<< (8 : Int))).lor d = ((((a * 256 + b) * 256 + c) * 256 + d : Nat) : Int) := by
  have shiftA : (a : Int) <<< (24 : Int) = ((a * 2 ^ 24 : Nat) : Int) := shiftLeft_natCast a 24
  have shiftB : (b : Int) <<< (16 : Int) = ((b * 2 ^ 16 : Nat) : Int) := shiftLeft_natCast b 16
  have shiftC : (c : Int) <<< (8 : Int) = ((c * 2 ^ 8 : Nat) : Int) := shiftLeft_natCast c 8
  have high : a * 2 ^ 24 + b * 2 ^ 16 = (a * 256 + b) * 2 ^ 16 := by ring
  have middle : (a * 256 + b) * 2 ^ 16 + c * 2 ^ 8 = ((a * 256 + b) * 256 + c) * 2 ^ 8 := by ring
  rw [shiftA, shiftB, shiftC, mul_lor (by omega), high, mul_lor (by omega), middle,
    mul_lor (by omega)]
  rfl

theorem ReadsAddress.ipToInt_eq {ip : Str} {address : Nat} (reads : ReadsAddress ip address) :
    ipToInt ip = .ok address := by
  cases reads with
  | @quad _ _ _ _ a b c d split readFirst readSecond readThird readFourth small =>
    have joined := join_octets (a := a) small.2.1 small.2.2.1 small.2.2.2
    simp only [ipToInt, split, List.mapM_cons, List.mapM_nil, readFirst, readSecond, readThird,
      readFourth, bind, Except.bind, pure, Except.pure, joined]

/-! ## A printed address is read back -/

theorem intOfStr_octet {n : Nat} (small : n < 256) : intOfStr (strOfInt n) = .ok n := by
  have all : ∀ n < 256, intOfStr (strOfInt (n : Nat)) = .ok (n : Int) := by decide +kernel
  exact all n small

theorem intToIp_natCast (n : Nat) :
    intToIp n = ['.'].intercalate [strOfInt ((n / 2 ^ 24 % 256 : Nat) : Int),
      strOfInt ((n / 2 ^ 16 % 256 : Nat) : Int), strOfInt ((n / 2 ^ 8 % 256 : Nat) : Int),
      strOfInt ((n % 256 : Nat) : Int)] := by
  have part (k : Nat) : ((n : Int) >>> (k : Int)).land 0xFF = ((n / 2 ^ k % 256 : Nat) : Int) := by
    rw [shiftRight_natCast, land_byte]
  have first := part 24
  have second := part 16
  have third := part 8
  simp only [Nat.cast_ofNat] at first second third
  rw [intToIp, first, second, third, land_byte]

theorem splitOn_intToIp (n : Nat) :
    (intToIp n).splitOn '.' = [strOfInt ((n / 2 ^ 24 % 256 : Nat) : Int),
      strOfInt ((n / 2 ^ 16 % 256 : Nat) : Int), strOfInt ((n / 2 ^ 8 % 256 : Nat) : Int),
      strOfInt ((n % 256 : Nat) : Int)] := by
  rw [intToIp_natCast]
  apply List.splitOn_intercalate
  · intro part member
    simp only [List.mem_cons, List.not_mem_nil, or_false] at member
    obtain rfl | rfl | rfl | rfl := member <;> exact not_mem_strOfInt (by decide) (by decide)
  · simp

theorem readsAddress_intToIp (n : Nat) : ReadsAddress (intToIp n) (n % 2 ^ 32) := by
  have bounds : n / 2 ^ 24 % 256 < 256 ∧ n / 2 ^ 16 % 256 < 256 ∧ n / 2 ^ 8 % 256 < 256 ∧
      n % 256 < 256 := by
    omega
  have value : n % 2 ^ 32 = ((n / 2 ^ 24 % 256 * 256 + n / 2 ^ 16 % 256) * 256 +
      n / 2 ^ 8 % 256) * 256 + n % 256 := by
    omega
  rw [value]
  exact .quad (splitOn_intToIp n) (intOfStr_octet bounds.1) (intOfStr_octet bounds.2.1)
    (intOfStr_octet bounds.2.2.1) (intOfStr_octet bounds.2.2.2) bounds

/-- An address of more than 32 bits is printed without its high bits. -/
theorem readsCidr_cidrText (n : Nat) {prefixLength : Nat} (narrow : prefixLength ≤ 32) :
    ReadsCidr (cidrText n prefixLength) (n % 2 ^ 32) prefixLength := by
  have text : cidrText n prefixLength = ['/'].intercalate [intToIp n, strOfInt prefixLength] := by
    simp [cidrText, List.intercalate]
  suffices split : (cidrText n prefixLength).splitOn '/' = [intToIp n, strOfInt prefixLength] from
    .slash split (readsAddress_intToIp n) (intOfStr_octet (by omega)) narrow
  rw [text]
  apply List.splitOn_intercalate
  · intro part member
    simp only [List.mem_cons, List.not_mem_nil, or_false] at member
    obtain rfl | rfl := member
    · rw [intToIp_natCast]
      simp only [List.intercalate, List.intersperse, List.flatten_cons, List.flatten_nil,
        List.mem_append, List.mem_singleton, List.append_nil]
      simp [not_mem_strOfInt]
    · exact not_mem_strOfInt (by decide) (by decide)
  · simp

/-! ## What a text denotes -/

theorem maskFromPrefix_eq {prefixLength : Nat} (narrow : prefixLength ≤ 32) :
    maskFromPrefix prefixLength = .ok (2 ^ 32 - 2 ^ (32 - prefixLength) : Nat) := by
  have all : ∀ length ≤ 32,
      maskFromPrefix (length : Nat) = .ok (2 ^ 32 - 2 ^ (32 - length) : Nat) := by
    decide +kernel
  exact all prefixLength narrow

namespace Subnet

theorem ofCidr_eq {cidr : Str} {address prefixLength : Nat}
    (reads : ReadsCidr cidr address prefixLength) :
    ofCidr cidr = .ok (block (32 - prefixLength) address) := by
  cases reads with
  | slash split net readPrefix narrow =>
    have bits : (32 : Int) - ((32 - prefixLength : Nat) : Int) = prefixLength := by omega
    have network : (address : Int).land (2 ^ 32 - 2 ^ (32 - prefixLength) : Nat) =
        blockStart (32 - prefixLength) address := by
      show ((address &&& (2 ^ 32 - 2 ^ (32 - prefixLength)) : Nat) : Int) = _
      rw [and_mask (Nat.sub_le 32 prefixLength) net.lt]
    have broadcast : (blockStart (32 - prefixLength) address : Int).lor
        (((2 ^ 32 - 2 ^ (32 - prefixLength) : Nat) : Int).lnot.land 0xFFFFFFFF) =
          blockEnd (32 - prefixLength) address := by
      show ((blockStart (32 - prefixLength) address |||
        Nat.ldiff (2 ^ 32 - 1) (2 ^ 32 - 2 ^ (32 - prefixLength)) : Nat) : Int) = _
      rw [ldiff_mask (Nat.sub_le 32 prefixLength), or_low_bits]
    simp only [ofCidr, split, readPrefix, maskFromPrefix_eq narrow, net.ipToInt_eq, bind,
      Except.bind, pure, Except.pure, network, broadcast, block, bits]

variable (bits address : Nat)

@[simp] theorem block_prefixLength : (block bits address).prefixLength = 32 - bits := rfl

@[simp] theorem block_networkInt : (block bits address).networkInt = blockStart bits address := rfl

@[simp] theorem block_broadcastInt : (block bits address).broadcastInt = blockEnd bits address :=
  rfl

theorem block_totalAddresses : (block bits address).totalAddresses = (2 ^ bits : Nat) := by
  have size := blockEnd_add_one bits address
  rw [totalAddresses, block_broadcastInt, block_networkInt]
  omega

end Subnet

end Excalibur.SubnetCalculator
