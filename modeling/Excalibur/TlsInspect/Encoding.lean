import Excalibur.Library.Der
import Excalibur.Python.IntBytes
import Excalibur.Python.IntParse

/-! # The DER encoder

The minimal encoder of the certificate generator.  Each of its functions is shown to
produce what the strict reader takes back; lengths need at most 126 octets for that,
which is where the long form ends.
-/

namespace Excalibur.TlsInspect

open Excalibur.Library Excalibur.Python

def derLen (n : Nat) : Except PyError Bytes :=
  if n < 0x80 then do
    return [← byte n]
  else do
    let b ← toBytes n (byteLength n)
    return (← byte (0x80 ||| b.length : Nat)) :: b

def der (tag : UInt8) (body : Bytes) : Except PyError Bytes := do
  return tag :: (← derLen body.length) ++ body

def derInt (x : Nat) : Except PyError Bytes :=
  if x = 0 then der 0x02 [0x00]
  else do
    let b ← toBytes x (byteLength x)
    -- The leading sign bit is kept clear.
    der 0x02 (if b.headD 0 &&& 0x80 ≠ 0 then 0x00 :: b else b)

def seq (items : List Bytes) : Except PyError Bytes := der 0x30 items.flatten

def set (items : List Bytes) : Except PyError Bytes := der 0x31 items.flatten

/-- The stack of seven-bit digits, the lowest first. -/
def septets (p : Nat) : List Nat :=
  if p = 0 then [] else (p &&& 0x7F) :: septets (p >>> 7)
  decreasing_by simp only [Nat.shiftRight_eq_div_pow]; omega

/-- The bytes of one arc. -/
def base128 (p : Nat) : Bytes :=
  if p = 0 then [0x00]
  else
    let stack := septets p
    stack.reverse.zipIdx.map fun digit =>
      UInt8.ofNat (digit.1 ||| if digit.2 < stack.length - 1 then 0x80 else 0)

def oid (dotted : Str) : Except PyError Bytes := do
  match ← (dotted.splitOn '.').mapM intOfStr with
  | first :: second :: parts =>
    let start ← byte (first * 40 + second)
    -- The loop over the digits does not end on a negative part; no caller has one.
    der 0x06 (start :: parts.flatMap fun p => base128 p.toNat)
  | _ => .error .indexError

def null : Bytes := [0x05, 0x00]

/-! ## What is read back -/

/-- Tag, length octets and contents together. -/
def tlvSize (contents : Nat) : Nat :=
  1 + (if contents < 0x80 then 1 else 1 + byteLength contents) + contents

/-- The encoder returns `size` bytes that are read as `value`. -/
def Encodes {α : Type} (encoder : Except PyError Bytes) (size : Nat) (reader : Der.Reader α)
    (value : α) : Prop :=
  ∃ encoded, encoder = .ok encoded ∧ encoded.length = size ∧ Der.Reads reader encoded value

theorem le_tlvSize (contents : Nat) : contents ≤ tlvSize contents := by
  unfold tlvSize
  omega

theorem derLen_short {n : Nat} (short : n < 0x80) : derLen n = .ok [UInt8.ofNat n] := by
  rw [derLen, if_pos short, byte_natCast (by omega)]
  rfl

theorem derLen_long {n : Nat} (long : ¬ n < 0x80) (few : byteLength n < 0x7F) :
    derLen n = .ok (UInt8.ofNat (0x80 + byteLength n) :: bigEndian (byteLength n) n) := by
  have first : 0x80 ||| byteLength n = 0x80 + byteLength n := by
    rw [← Nat.two_pow_add_eq_or_of_lt (i := 7) (by omega) 1]
  rw [derLen, if_neg long, toBytes_byteLength]
  simp only [bind, Except.bind, length_bigEndian, first,
    byte_natCast (by omega : 0x80 + byteLength n < 256)]
  rfl

theorem encodes_derLen {n : Nat} (small : n < 256 ^ 126) :
    Encodes (derLen n) (tlvSize n - 1 - n) Der.length n := by
  unfold tlvSize
  by_cases short : n < 0x80
  · refine ⟨[UInt8.ofNat n], derLen_short short, ?_, Der.reads_length_short short⟩
    simp [short]
  · have few : byteLength n < 0x7F := Nat.lt_succ_of_le (byteLength_le_of_lt small)
    obtain ⟨width, widthEq⟩ : ∃ width, byteLength n = width + 1 := by
      refine ⟨byteLength n - 1, ?_⟩
      have positive := bitLength_pos (n := n) (by omega)
      unfold byteLength
      omega
    refine ⟨_, derLen_long short few, ?_, ?_⟩
    · simp [short]
      omega
    · apply Der.reads_length_long few (by omega) _ (lt_of_byteLength n)
      rw [widthEq]
      exact le_of_byteLength widthEq

theorem encodes_der (tag : UInt8) {body : Bytes} (small : body.length < 256 ^ 126) :
    Encodes (der tag body) (tlvSize body.length) (Der.element tag) body := by
  obtain ⟨size, encoded, length, reads⟩ := encodes_derLen small
  refine ⟨tag :: size ++ body, ?_, ?_, Der.reads_element reads⟩
  · rw [der, encoded]
    rfl
  · have least : 1 + body.length ≤ tlvSize body.length := by
      unfold tlvSize
      omega
    simp [length]
    omega

theorem seven_bit_test {n : Nat} (small : n < 256) :
    (UInt8.ofNat n &&& 0x80 ≠ 0) ↔ 0x80 ≤ n := by
  have masked : (UInt8.ofNat n &&& 0x80).toNat = (n.testBit 7).toNat * 2 ^ 7 := by
    rw [UInt8.toNat_and, UInt8.toNat_ofNat', Nat.mod_eq_of_lt small, ← Nat.and_two_pow]
    rfl
  have topBit : n.testBit 7 = decide (0x80 ≤ n) := by
    rw [Nat.testBit_eq_decide_div_mod_eq]
    exact decide_eq_decide.mpr (by omega)
  rw [ne_eq, ← UInt8.toNat_inj, masked, topBit]
  by_cases high : 0x80 ≤ n <;> simp [high]

/-- The sign byte is put where the top bit of the number is set. -/
theorem derInt_eq {x width : Nat} (positive : x ≠ 0) (widthEq : byteLength x = width + 1) :
    derInt x = der 0x02 (if 128 * 256 ^ width ≤ x then 0x00 :: bigEndian (width + 1) x
      else bigEndian (width + 1) x) := by
  have first : (bigEndian (width + 1) x).headD 0 = UInt8.ofNat (x / 256 ^ width) := by
    rw [bigEndian_succ]
    rfl
  have small : x / 256 ^ width < 256 := by
    apply Nat.div_lt_of_lt_mul
    rw [← pow_succ, ← widthEq]
    exact lt_of_byteLength x
  have topBit : 0x80 ≤ x / 256 ^ width ↔ 128 * 256 ^ width ≤ x :=
    Nat.le_div_iff_mul_le (by positivity)
  rw [derInt, if_neg positive, toBytes_byteLength, widthEq]
  simp only [bind, Except.bind, first, seven_bit_test small, topBit]

/-- What `_der_int` puts into the element. -/
theorem derInt_contents (x : Nat) :
    ∃ contents, derInt x = der 0x02 contents ∧ contents.length = bitLength x / 8 + 1 ∧
      Der.minimal contents = true ∧ Der.twosComplement contents = x := by
  by_cases zero : x = 0
  · subst zero
    exact ⟨[0x00], rfl, by simp [bitLength], rfl, rfl⟩
  · obtain ⟨bits, bitsEq⟩ : ∃ bits, bitLength x = bits + 1 :=
      Nat.exists_eq_succ_of_ne_zero (bitLength_pos zero).ne'
    obtain ⟨width, widthBits⟩ : ∃ width, bits / 8 = width := ⟨_, rfl⟩
    have widthEq : byteLength x = width + 1 := by
      unfold byteLength
      omega
    have least := two_pow_le_of_bitLength bitsEq
    have fits := lt_two_pow_bitLength x
    -- `128 * 256 ^ width` is the number whose only bit is the top one of the first octet.
    have power : 128 * 256 ^ width = 2 ^ (8 * width + 7) := by
      rw [pow_add, two_pow_eight_mul, Nat.mul_comm]
      rfl
    rw [bitsEq] at fits ⊢
    by_cases high : 128 * 256 ^ width ≤ x
    -- The top bit is set, so a zero octet is put in front.
    · have top : 8 * width + 7 < bits + 1 := by
        rw [power] at high
        exact (Nat.pow_lt_pow_iff_right (by decide)).mp (high.trans_lt fits)
      obtain ⟨minimal, value⟩ := Der.integer_of_high high (widthEq ▸ lt_of_byteLength x)
      refine ⟨0x00 :: bigEndian (width + 1) x, ?_, ?_, minimal, value⟩
      · rw [derInt_eq zero widthEq, if_pos high]
      · simp only [List.length_cons, length_bigEndian]
        omega
    · have low := not_le.mp high
      have below : bits < 8 * width + 7 := by
        rw [power] at low
        exact (Nat.pow_lt_pow_iff_right (by decide)).mp (least.trans_lt low)
      obtain ⟨minimal, value⟩ := Der.integer_of_low (le_of_byteLength widthEq) low
      refine ⟨bigEndian (width + 1) x, ?_, ?_, minimal, value⟩
      · rw [derInt_eq zero widthEq, if_neg high]
      · simp only [length_bigEndian]
        omega

def intSize (x : Nat) : Nat := tlvSize (bitLength x / 8 + 1)

theorem encodes_derInt {x : Nat} (small : intSize x < 256 ^ 126) :
    Encodes (derInt x) (intSize x) Der.integer x := by
  obtain ⟨contents, encoder, length, minimal, value⟩ := derInt_contents x
  have fits : contents.length < 256 ^ 126 := by
    rw [length]
    exact (le_tlvSize _).trans_lt small
  obtain ⟨encoded, returned, size, reads⟩ := encodes_der 0x02 fits
  refine ⟨encoded, encoder.trans returned, ?_, ?_⟩
  · rw [size, length, intSize]
  · rw [← value]
    exact Der.reads_integer reads minimal

/-! ### Arcs -/

theorem septets_of_pos {p : Nat} (positive : p ≠ 0) : septets p = p % 128 :: septets (p / 128) := by
  rw [septets, if_neg positive, Nat.shiftRight_eq_div_pow]
  congr 1
  exact Nat.and_two_pow_sub_one_eq_mod p 7

/-- The digits above the last, each with the mark that another follows. -/
def continued (p : Nat) : Bytes := (septets p).reverse.map fun v => UInt8.ofNat (v + 128)

theorem continued_zero : continued 0 = [] := by
  rw [continued, septets]
  rfl

theorem septets_small {p v : Nat} (member : v ∈ septets p) : v < 128 := by
  induction p using septets.induct with
  | case1 => simp [septets] at member
  | case2 p positive ih =>
    rw [septets_of_pos positive, List.mem_cons] at member
    rcases member with rfl | member
    · omega
    · rw [Nat.shiftRight_eq_div_pow] at ih
      exact ih member

theorem base128_eq (p : Nat) : base128 p = continued (p / 128) ++ [UInt8.ofNat (p % 128)] := by
  by_cases zero : p = 0
  · subst zero
    simp [base128, continued, septets]
  · simp only [base128, if_neg zero, septets_of_pos zero, List.reverse_cons, List.zipIdx_append,
      List.map_append]
    congr 1
    · have marked : ∀ digit ∈ (septets (p / 128)).reverse.zipIdx,
          UInt8.ofNat (digit.1 ||| if digit.2 < (p % 128 :: septets (p / 128)).length - 1
            then 0x80 else 0) = UInt8.ofNat (digit.1 + 128) := by
        intro digit member
        have before := List.snd_lt_of_mem_zipIdx member
        have small := septets_small (List.mem_reverse.mp (List.fst_mem_of_mem_zipIdx member))
        simp only [List.length_reverse, List.length_cons] at before ⊢
        rw [if_pos (by omega), Nat.or_comm, ← Nat.two_pow_add_eq_or_of_lt (i := 7) small 1]
        congr 1
        omega
      rw [List.map_congr_left marked, continued]
      conv_rhs => rw [← List.zipIdx_map_fst 0 (septets (p / 128)).reverse, List.map_map]
      rfl
    · simp

theorem subidentifiers_leading {p : Nat} (positive : p ≠ 0) (rest : List UInt8) :
    Der.subidentifiers none (continued p ++ rest) = Der.subidentifiers (some p) rest := by
  induction p using Nat.strong_induction_on generalizing rest with
  | _ p ih =>
    rw [continued, septets_of_pos positive, List.reverse_cons, List.map_append, ← continued,
      List.append_assoc]
    have small : p % 128 < 128 := Nat.mod_lt p (by decide)
    by_cases last : p / 128 = 0
    · rw [last, continued_zero]
      refine (Der.subidentifiers_continued small (by omega) rest).trans ?_
      congr 2
      simp only [Option.getD_none]
      omega
    · rw [ih (p / 128) (by omega) last]
      refine (Der.subidentifiers_continued small (by simp) rest).trans ?_
      congr 2
      exact Nat.div_add_mod p 128

theorem subidentifiers_base128 (p : Nat) (rest : List UInt8) :
    Der.subidentifiers none (base128 p ++ rest) =
      (Der.subidentifiers none rest).map (p :: ·) := by
  have small : p % 128 < 128 := Nat.mod_lt p (by decide)
  rw [base128_eq, List.append_assoc]
  by_cases single : p / 128 = 0
  · rw [single, continued_zero]
    refine (Der.subidentifiers_last small rest).trans ?_
    simp only [Option.getD_none]
    congr 2
    funext others
    congr 1
    omega
  · rw [subidentifiers_leading single]
    refine (Der.subidentifiers_last small rest).trans ?_
    simp only [Option.getD_some, Nat.div_add_mod]

theorem subidentifiers_parts (parts : List Nat) :
    Der.subidentifiers none (parts.flatMap base128) = some parts := by
  induction parts with
  | nil => rfl
  | cons p parts ih => rw [List.flatMap_cons, subidentifiers_base128, ih, Option.map_some]

theorem encodes_oid {dotted : Str} {first second : Nat} {parts : List Nat}
    (text : (dotted.splitOn '.').mapM intOfStr =
      .ok ((first : Int) :: (second : Int) :: parts.map Nat.cast))
    (valid : first < 2 ∧ second < 40 ∨ first = 2 ∧ second < 48)
    (small : (parts.flatMap base128).length + 1 < 256 ^ 126) :
    Encodes (oid dotted) (tlvSize ((parts.flatMap base128).length + 1)) Der.objectIdentifier
      (first :: second :: parts) := by
  -- The first two numbers share one subidentifier, which fits one octet here.
  have start : first * 40 + second < 128 := by omega
  have contents : (UInt8.ofNat (first * 40 + second) :: parts.flatMap base128).length =
    (parts.flatMap base128).length + 1 := rfl
  rw [← contents] at small ⊢
  obtain ⟨encoded, returned, size, reads⟩ := encodes_der 0x06 small
  refine ⟨encoded, ?_, size, ?_⟩
  · have same : (parts.map (Nat.cast : Nat → Int)).flatMap (fun p => base128 p.toNat) =
        parts.flatMap base128 := by
      simp [List.flatMap_map]
    have firstByte := byte_natCast (show first * 40 + second < 256 by omega)
    push_cast at firstByte
    simp only [oid, text, bind, Except.bind, firstByte, same, returned]
  · have split : Der.subidentifiers none
        (UInt8.ofNat (first * 40 + second) :: parts.flatMap base128) =
          some ((first * 40 + second) :: parts) := by
      refine (Der.subidentifiers_last start _).trans ?_
      rw [subidentifiers_parts]
      simp
    -- The reader takes the first number back from the range of the subidentifier.
    refine Der.reads_objectIdentifier reads split ?_
    simp only [Der.arcs, Option.some.injEq]
    split
    · have firstZero : first = 0 := by omega
      simp [firstZero]
    · split
      · have firstOne : first = 1 := by omega
        simp [firstOne]
      · have firstTwo : first = 2 := by omega
        simp [firstTwo]

def oidRsa : Str := lit "1.2.840.113549.1.1.1"

theorem parts_of_oidRsa : [840, 113549, 1, 1, 1].flatMap base128 =
    [0x86, 0x48, 0x86, 0xF7, 0x0D, 0x01, 0x01, 0x01] := by
  simp [base128, septets]
  decide

example : oid oidRsa = .ok [0x06, 0x09, 0x2A, 0x86, 0x48, 0x86, 0xF7, 0x0D, 0x01, 0x01, 0x01] := by
  decide +kernel

end Excalibur.TlsInspect
