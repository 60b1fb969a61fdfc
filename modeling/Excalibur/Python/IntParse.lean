import Excalibur.Python.Basic

/-! # Reading integers

`int(text)` and `int(bytes, 16)`.  Both skip white space at the ends, take one
sign, allow single underscores between digits and, in base 16, a `0x` in front.
A text may spell its digits with any Unicode decimal digit.  In base 10 an input
of more than `maxStrDigits` digits is rejected; base 16 has no limit.
-/

namespace Excalibur.Python

/-! ## Digits -/

def digitValue (c : Char) : Option Nat :=
  if '0' ≤ c ∧ c ≤ '9' then some (c.toNat - 48)
  else if 'a' ≤ c ∧ c ≤ 'z' then some (c.toNat - 87)
  else if 'A' ≤ c ∧ c ≤ 'Z' then some (c.toNat - 55)
  else none

def digitIn (base : Nat) (c : Char) : Option Nat :=
  (digitValue c).filter fun d => decide (d < base)

/-- One or more digits with at most one underscore between two of them. -/
def readDigits (base : Nat) : Str → Option (List Nat)
  | [] => none
  | [c] => (digitIn base c).map fun d => [d]
  | c :: '_' :: rest => do
    let d ← digitIn base c
    let ds ← readDigits base rest
    return d :: ds
  | c :: next :: rest => do
    let d ← digitIn base c
    let ds ← readDigits base (next :: rest)
    return d :: ds

def ofDigits (base : Nat) (digits : List Nat) : Nat :=
  digits.foldl (fun value d => value * base + d) 0

/-! ## The parser shared by both forms of `int` -/

/-- The longest digit string that `int` converts in a base that is no power of two. -/
def maxStrDigits : Nat := 4300

def digitsAllowed (base count : Nat) : Bool := base == 16 || count ≤ maxStrDigits

def isCSpace (c : Char) : Bool := (9 ≤ c.toNat && c.toNat ≤ 13) || c.toNat == 32

def readSign : Str → Bool × Str
  | '+' :: rest => (false, rest)
  | '-' :: rest => (true, rest)
  | rest => (false, rest)

/-- The `0x` of base 16, after which one underscore is allowed. -/
def dropHexMark (base : Nat) (text : Str) : Str :=
  match text with
  | '0' :: mark :: rest =>
    if base = 16 ∧ (mark = 'x' ∨ mark = 'X') then
      match rest with
      | '_' :: rest => rest
      | rest => rest
    else text
  | text => text

/-- `int` on a text that has only ASCII white space and digits left. -/
def parseInt (base : Nat) (text : Str) : Option Int := do
  let (negative, rest) := readSign (stripBy isCSpace text)
  let digits ← readDigits base (dropHexMark base rest)
  if digitsAllowed base digits.length then
    return if negative then -(ofDigits base digits : Int) else ofDigits base digits
  else none

/-! ## The two forms

`int(text)` and `int(bytes, 16)`. -/

/-- Code points of the zeros of the Unicode decimal digits; each block of ten is
    contiguous. -/
def decimalZeros : List Nat :=
  [0x30, 0x660, 0x6f0, 0x7c0, 0x966, 0x9e6, 0xa66, 0xae6, 0xb66, 0xbe6, 0xc66, 0xce6, 0xd66,
   0xde6, 0xe50, 0xed0, 0xf20, 0x1040, 0x1090, 0x17e0, 0x1810, 0x1946, 0x19d0, 0x1a80, 0x1a90,
   0x1b50, 0x1bb0, 0x1c40, 0x1c50, 0xa620, 0xa8d0, 0xa900, 0xa9d0, 0xa9f0, 0xaa50, 0xabf0,
   0xff10, 0x104a0, 0x10d30, 0x11066, 0x110f0, 0x11136, 0x111d0, 0x112f0, 0x11450, 0x114d0,
   0x11650, 0x116c0, 0x11730, 0x118e0, 0x11950, 0x11c50, 0x11d50, 0x11da0, 0x16a60, 0x16ac0,
   0x16b50, 0x1d7ce, 0x1d7d8, 0x1d7e2, 0x1d7ec, 0x1d7f6, 0x1e140, 0x1e2f0, 0x1e950, 0x1fbf0]

/-- A non-ASCII character as `int` sees it: white space is a blank, a decimal digit
    is the ASCII digit of its value, anything else is rejected. -/
def toAsciiDigit (c : Char) : Char :=
  if c.toNat < 127 then c
  else if isSpace c then ' '
  else
    match decimalZeros.find? fun first => first ≤ c.toNat && c.toNat < first + 10 with
    | some first => Char.ofNat (48 + (c.toNat - first))
    | none => '?'

def intOfStr (text : Str) : Except PyError Int :=
  match parseInt 10 (text.map toAsciiDigit) with
  | some n => .ok n
  | none => .error .valueError

def intOfHexBytes (bytes : Bytes) : Except PyError Int :=
  match parseInt 16 (decodeLatin1 bytes) with
  | some n => .ok n
  | none => .error .valueError

/-! ## Plain digits -/

theorem readDigits_eq_some {base : Nat} {text : Str} {digits : List Nat} (nonempty : text ≠ [])
    (spelled : text.map (digitIn base) = digits.map some) : readDigits base text = some digits := by
  have underscore : digitIn base '_' = none := by
    have noDigit : digitValue '_' = none := by decide
    rw [digitIn, noDigit]
    rfl
  induction text using readDigits.induct generalizing digits with
  | case1 => exact absurd rfl nonempty
  | case2 c =>
    obtain ⟨d, ds, rfl⟩ := List.exists_cons_of_ne_nil (l := digits) (by rintro rfl; simp at spelled)
    simp only [List.map_cons, List.map_nil, List.cons.injEq] at spelled
    obtain ⟨first, rest⟩ := spelled
    have none_left : ds = [] := List.map_eq_nil_iff.mp rest.symm
    rw [readDigits, first, none_left]
    rfl
  | case3 c rest _ =>
    obtain ⟨d, ds, rfl⟩ := List.exists_cons_of_ne_nil (l := digits) (by rintro rfl; simp at spelled)
    -- An underscore would have to be a digit.
    cases ds with
    | nil => simp at spelled
    | cons second ds => simp [underscore] at spelled
  | case4 c next rest notUnderscore ih =>
    obtain ⟨d, ds, rfl⟩ := List.exists_cons_of_ne_nil (l := digits) (by rintro rfl; simp at spelled)
    simp only [List.map_cons, List.cons.injEq] at spelled
    obtain ⟨first, others⟩ := spelled
    have read := ih (by simp) others
    simp [readDigits, first, read]

def hexValue (b : UInt8) : Option Nat :=
  if 48 ≤ b.toNat ∧ b.toNat ≤ 57 then some (b.toNat - 48)
  else if 65 ≤ b.toNat ∧ b.toNat ≤ 70 then some (b.toNat - 55)
  else if 97 ≤ b.toNat ∧ b.toNat ≤ 102 then some (b.toNat - 87)
  else none

theorem digitIn_eq_hexValue (b : UInt8) : digitIn 16 (Char.ofNat b.toNat) = hexValue b := by
  have all : ∀ n < 256, digitIn 16 (Char.ofNat (UInt8.ofNat n).toNat) = hexValue (UInt8.ofNat n) := by
    decide +kernel
  simpa using all b.toNat b.toNat_lt

/-- A hexadecimal digit is no white space, no sign and not the `x` of `0x`. -/
theorem hexValue_isSome {b : UInt8} (digit : (hexValue b).isSome) :
    (48 ≤ b.toNat ∧ b.toNat ≤ 57) ∨ (65 ≤ b.toNat ∧ b.toNat ≤ 70) ∨
      (97 ≤ b.toNat ∧ b.toNat ≤ 102) := by
  simp only [hexValue] at digit
  split at digit
  · omega
  · split at digit
    · omega
    · split at digit
      · omega
      · simp at digit

theorem isAsciiSpace_of_hexValue {b : UInt8} (digit : (hexValue b).isSome) :
    isAsciiSpace b = false := by
  have range := hexValue_isSome digit
  simp only [isAsciiSpace, Bool.or_eq_false_iff, Bool.and_eq_false_iff, decide_eq_false_iff_not,
    beq_eq_false_iff_ne]
  omega

/-- A digit is a letter or an ASCII digit: no white space and no sign. -/
theorem digitIn_range {base : Nat} {c : Char} (digit : (digitIn base c).isSome) :
    (48 ≤ c.toNat ∧ c.toNat ≤ 57) ∨ (65 ≤ c.toNat ∧ c.toNat ≤ 90) ∨
      (97 ≤ c.toNat ∧ c.toNat ≤ 122) := by
  obtain ⟨d, isDigit⟩ := Option.isSome_iff_exists.mp digit
  obtain ⟨value, -⟩ := Option.filter_eq_some_iff.mp isDigit
  rw [digitValue] at value
  split at value
  · rename_i range
    exact .inl range
  · split at value
    · rename_i range
      exact .inr (.inr range)
    · split at value
      · rename_i range
        exact .inr (.inl range)
      · cases value

/-- Nothing but digits is read as they stand. -/
theorem parseInt_of_digits {base : Nat} {text : Str} {digits : List Nat} (nonempty : text ≠ [])
    (spelled : text.map (digitIn base) = digits.map some) :
    parseInt base text =
      if digitsAllowed base digits.length then some (ofDigits base digits : Int) else none := by
  have isDigit : ∀ c ∈ text, (digitIn base c).isSome := by
    intro c member
    have listed : digitIn base c ∈ digits.map some := by
      rw [← spelled]
      exact List.mem_map_of_mem member
    obtain ⟨d, -, same⟩ := List.mem_map.mp listed
    rw [← same]
    rfl
  have notSpace : ∀ c ∈ text, isCSpace c = false := by
    intro c member
    have range := digitIn_range (isDigit c member)
    simp only [isCSpace, Bool.or_eq_false_iff, Bool.and_eq_false_iff, decide_eq_false_iff_not,
      beq_eq_false_iff_ne]
    omega
  -- No blank, no sign and no mark is found, so the digits are all that is read.
  have stripped : stripBy isCSpace text = text :=
    stripBy_eq_self (fun c head => notSpace c (List.mem_of_mem_head? head))
      (fun c last => notSpace c (List.mem_of_mem_getLast? last))
  have unsigned : readSign text = (false, text) := by
    unfold readSign
    split
    · exact absurd (digitIn_range (isDigit '+' (by simp))) (by decide)
    · exact absurd (digitIn_range (isDigit '-' (by simp))) (by decide)
    · rfl
  have unmarked : dropHexMark base text = text := by
    -- A mark `x` is no hexadecimal digit, so the text has none.
    have noMark : digitIn 16 'x' = none ∧ digitIn 16 'X' = none := by decide
    unfold dropHexMark
    split
    · rename_i mark rest
      split
      · rename_i isMark
        obtain ⟨rfl, rfl | rfl⟩ := isMark
        · have digit := isDigit 'x' (by simp)
          rw [noMark.1] at digit
          cases digit
        · have digit := isDigit 'X' (by simp)
          rw [noMark.2] at digit
          cases digit
      · rfl
    · rfl
  simp only [parseInt, stripped, unsigned, unmarked, readDigits_eq_some nonempty spelled, bind,
    Option.bind, Bool.false_eq_true, if_false, pure]

/-- Hexadecimal digits in either case, with any number of zeros in front. -/
theorem intOfHexBytes_of_digits {bytes : Bytes} (nonempty : bytes ≠ [])
    (digits : ∀ b ∈ bytes, (hexValue b).isSome) :
    intOfHexBytes bytes = .ok (ofDigits 16 (bytes.filterMap hexValue)) := by
  have spelled : (decodeLatin1 bytes).map (digitIn 16) = (bytes.filterMap hexValue).map some := by
    rw [decodeLatin1, List.map_map]
    clear nonempty
    induction bytes with
    | nil => rfl
    | cons b bytes ih =>
      obtain ⟨value, isValue⟩ := Option.isSome_iff_exists.mp (digits b (by simp))
      have rest := ih fun c member => digits c (by simp [member])
      simp [digitIn_eq_hexValue, isValue, rest]
  have read := parseInt_of_digits (by simpa [decodeLatin1] using nonempty) spelled
  rw [digitsAllowed, beq_self_eq_true, Bool.true_or, if_pos rfl] at read
  rw [intOfHexBytes, read]

/-- The value of an ASCII digit. -/
def decimalValue (c : Char) : Nat := c.toNat - 48

/-- Decimal digits, with any number of zeros in front. -/
theorem intOfStr_of_digits {text : Str} (nonempty : text ≠ [])
    (digits : ∀ c ∈ text, '0' ≤ c ∧ c ≤ '9') :
    intOfStr text =
      if text.length ≤ maxStrDigits then .ok (ofDigits 10 (text.map decimalValue) : Nat)
      else .error .valueError := by
  have plain : text.map toAsciiDigit = text := by
    refine (List.map_congr_left ?_).trans (List.map_id text)
    intro c member
    have small : c.toNat < 127 := Nat.lt_of_le_of_lt (digits c member).2 (by decide)
    rw [toAsciiDigit, if_pos small, id]
  have spelled : text.map (digitIn 10) = (text.map decimalValue).map some := by
    rw [List.map_map]
    apply List.map_congr_left
    intro c member
    have range : 48 ≤ c.toNat ∧ c.toNat ≤ 57 := digits c member
    have value : digitValue c = some (c.toNat - 48) := if_pos (digits c member)
    have small : c.toNat - 48 < 10 := by omega
    simp [digitIn, value, small, decimalValue]
  rw [intOfStr, plain, parseInt_of_digits nonempty spelled, List.length_map, digitsAllowed]
  by_cases short : text.length ≤ maxStrDigits
  · simp [short]
  · simp [short]

/-- `int(str(n))`, with the limit on the number of digits. -/
theorem intOfStr_strOfInt (n : Nat) :
    intOfStr (strOfInt n) =
      if (strOfInt n).length ≤ maxStrDigits then .ok (n : Int) else .error .valueError := by
  have text : strOfInt (n : Int) = Nat.toDigits 10 n := rfl
  have nonempty : strOfInt (n : Int) ≠ [] := by
    rw [text]
    exact Nat.toDigits_ne_nil
  have digits : ∀ c ∈ strOfInt (n : Int), '0' ≤ c ∧ c ≤ '9' := by
    intro c member
    have isDigit := isDigit_of_mem_toDigits member
    simpa [Char.isDigit, Char.le_def] using isDigit
  have value : ofDigits 10 ((strOfInt (n : Int)).map decimalValue) = n := by
    conv_rhs => rw [← Nat.ofDigitChars_ten_toDigits (n := n)]
    rw [ofDigits, List.foldl_map, Nat.ofDigitChars_eq_foldl, text]
    simp only [decimalValue, Nat.mul_comm]
    rfl
  rw [intOfStr_of_digits nonempty digits, value]

example : intOfHexBytes (bytesLit "0X_1f") = .ok 31 := by decide
example : intOfHexBytes (bytesLit "-5 ") = .ok (-5) := by decide
example : intOfStr (lit "1__0") = .error .valueError := by decide

end Excalibur.Python
