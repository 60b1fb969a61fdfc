import Mathlib

/-! # Base64

Three bytes are four digits, and one or two bytes at the end are padded to four
characters.  The reader is strict: it wants the padding, and the bits that the padding
leaves over have to be zero.  Encodings of whole triples can be joined.
-/

namespace Excalibur.Library.Base64

/-- The alphabet: letters, decimal digits, `+` and `/`. -/
def digit (n : Nat) : Char :=
  Char.ofNat (if n < 26 then 65 + n else if n < 52 then 71 + n else if n < 62 then n - 4
    else if n = 62 then 43 else 47)

def value (c : Char) : Option Nat :=
  if 65 ≤ c.toNat ∧ c.toNat ≤ 90 then some (c.toNat - 65)
  else if 97 ≤ c.toNat ∧ c.toNat ≤ 122 then some (c.toNat - 71)
  else if 48 ≤ c.toNat ∧ c.toNat ≤ 57 then some (c.toNat + 4)
  else if c = '+' then some 62
  else if c = '/' then some 63
  else none

def encode : List UInt8 → List Char
  | [] => []
  | [a] => [digit (a.toNat / 4), digit (a.toNat % 4 * 16), '=', '=']
  | [a, b] => [digit (a.toNat / 4), digit (a.toNat % 4 * 16 + b.toNat / 16),
      digit (b.toNat % 16 * 4), '=']
  | a :: b :: c :: rest =>
    digit (a.toNat / 4) :: digit (a.toNat % 4 * 16 + b.toNat / 16) ::
      digit (b.toNat % 16 * 4 + c.toNat / 64) :: digit (c.toNat % 64) :: encode rest

def decode : List Char → Option (List UInt8)
  | [] => some []
  | [w, x, '=', '='] => do
    let first ← value w
    let second ← value x
    guard (second % 16 = 0)
    return [UInt8.ofNat (first * 4 + second / 16)]
  | [w, x, y, '='] => do
    let first ← value w
    let second ← value x
    let third ← value y
    guard (third % 4 = 0)
    return [UInt8.ofNat (first * 4 + second / 16), UInt8.ofNat (second % 16 * 16 + third / 4)]
  | w :: x :: y :: z :: rest => do
    let first ← value w
    let second ← value x
    let third ← value y
    let fourth ← value z
    let bytes ← decode rest
    return UInt8.ofNat (first * 4 + second / 16) :: UInt8.ofNat (second % 16 * 16 + third / 4) ::
      UInt8.ofNat (third % 4 * 64 + fourth) :: bytes
  | _ => none

theorem value_digit {n : Nat} (small : n < 64) : value (digit n) = some n := by
  have all : ∀ n < 64, value (digit n) = some n := by decide
  exact all n small

/-- The characters of an encoding. -/
def isCode (c : Char) : Bool := (value c).isSome || c == '='

theorem isCode_digit {n : Nat} (small : n < 64) : isCode (digit n) = true := by
  rw [isCode, value_digit small]
  rfl

theorem digit_ne_pad {n : Nat} (small : n < 64) : digit n ≠ '=' := by
  intro pad
  have read := value_digit small
  rw [pad] at read
  cases read

theorem isCode_of_mem_encode {bytes : List UInt8} {c : Char} (member : c ∈ encode bytes) :
    isCode c = true := by
  induction bytes using encode.induct with
  | case1 => cases member
  | case2 a =>
    have := a.toNat_lt
    simp only [encode, List.mem_cons, List.not_mem_nil, or_false] at member
    rcases member with rfl | rfl | rfl | rfl
    · exact isCode_digit (by omega)
    · exact isCode_digit (by omega)
    · rfl
    · rfl
  | case3 a b =>
    have := a.toNat_lt
    have := b.toNat_lt
    simp only [encode, List.mem_cons, List.not_mem_nil, or_false] at member
    rcases member with rfl | rfl | rfl | rfl
    · exact isCode_digit (by omega)
    · exact isCode_digit (by omega)
    · exact isCode_digit (by omega)
    · rfl
  | case4 a b c rest ih =>
    have := a.toNat_lt
    have := b.toNat_lt
    have := c.toNat_lt
    simp only [encode, List.mem_cons] at member
    rcases member with rfl | rfl | rfl | rfl | member
    · exact isCode_digit (by omega)
    · exact isCode_digit (by omega)
    · exact isCode_digit (by omega)
    · exact isCode_digit (by omega)
    · exact ih member

theorem byte_of_parts {b : UInt8} {n : Nat} (same : n = b.toNat) : UInt8.ofNat n = b := by
  rw [same, UInt8.ofNat_toNat]

theorem decode_encode (bytes : List UInt8) : decode (encode bytes) = some bytes := by
  induction bytes using encode.induct with
  | case1 => rfl
  | case2 a =>
    have small := a.toNat_lt
    have whole : UInt8.ofNat (a.toNat / 4 * 4 + a.toNat % 4 * 16 / 16) = a :=
      byte_of_parts (by omega)
    have rest : a.toNat % 4 * 16 % 16 = 0 := by omega
    simp only [encode, decode, value_digit (by omega : a.toNat / 4 < 64),
      value_digit (by omega : a.toNat % 4 * 16 < 64), bind, Option.bind, rest, whole, guard]
    rfl
  | case3 a b =>
    have smallA := a.toNat_lt
    have smallB := b.toNat_lt
    have third : b.toNat % 16 * 4 < 64 := by omega
    have first : UInt8.ofNat (a.toNat / 4 * 4 + (a.toNat % 4 * 16 + b.toNat / 16) / 16) = a :=
      byte_of_parts (by omega)
    have second : UInt8.ofNat ((a.toNat % 4 * 16 + b.toNat / 16) % 16 * 16 +
        b.toNat % 16 * 4 / 4) = b := byte_of_parts (by omega)
    have rest : b.toNat % 16 * 4 % 4 = 0 := by omega
    rw [encode, decode.eq_3 _ _ _ (digit_ne_pad third)]
    simp only [value_digit (by omega : a.toNat / 4 < 64),
      value_digit (by omega : a.toNat % 4 * 16 + b.toNat / 16 < 64), value_digit third, bind,
      Option.bind, rest, first, second, guard]
    rfl
  | case4 a b c rest ih =>
    have smallA := a.toNat_lt
    have smallB := b.toNat_lt
    have smallC := c.toNat_lt
    have fourth : c.toNat % 64 < 64 := by omega
    have first : UInt8.ofNat (a.toNat / 4 * 4 + (a.toNat % 4 * 16 + b.toNat / 16) / 16) = a :=
      byte_of_parts (by omega)
    have second : UInt8.ofNat ((a.toNat % 4 * 16 + b.toNat / 16) % 16 * 16 +
        (b.toNat % 16 * 4 + c.toNat / 64) / 4) = b := byte_of_parts (by omega)
    have third : UInt8.ofNat ((b.toNat % 16 * 4 + c.toNat / 64) % 4 * 64 + c.toNat % 64) = c :=
      byte_of_parts (by omega)
    rw [encode, decode.eq_4]
    · simp only [value_digit (by omega : a.toNat / 4 < 64),
        value_digit (by omega : a.toNat % 4 * 16 + b.toNat / 16 < 64),
        value_digit (by omega : b.toNat % 16 * 4 + c.toNat / 64 < 64), value_digit fourth, ih, bind,
        Option.bind, first, second, third]
      rfl
    -- The last digit is no padding, so none of the padded forms applies.
    · intro _ pad
      exact absurd pad (digit_ne_pad fourth)
    · intro pad
      exact absurd pad (digit_ne_pad fourth)

theorem encode_append {first : List UInt8} (whole : 3 ∣ first.length) (second : List UInt8) :
    encode (first ++ second) = encode first ++ encode second := by
  induction first using encode.induct with
  | case1 => rfl
  | case2 a =>
    rw [List.length_singleton] at whole
    omega
  | case3 a b =>
    rw [List.length_cons, List.length_singleton] at whole
    omega
  | case4 a b c rest ih =>
    simp only [List.length_cons] at whole
    simp only [List.cons_append, encode, ih (by omega)]

end Excalibur.Library.Base64
