import Excalibur.Library.BigEndian

/-! # Reading DER

A reader of the distinguished encoding rules of ASN.1, for the types that key files are
made of.  It is strict: lengths are definite and take the fewest octets that hold them,
integers are the shortest two's complement, arcs of an object identifier start with no
padding, and the contents of a constructed value are read to their end.

`Reads reader bytes value` says that `bytes` is read as `value` whatever follows.  There
is one rule for each form of encoding, and `Reads.bind` puts them together.
-/

namespace Excalibur.Library.Der

abbrev Reader := StateT (List UInt8) Option

variable {α β : Type}

/-! ## Tags and lengths -/

def octet : Reader UInt8
  | [] => none
  | b :: rest => some (b, rest)

def octets (count : Nat) : Reader (List UInt8) := fun bytes =>
  if count ≤ bytes.length then some (bytes.splitAt count) else none

/-- The length whose first octet has the high bit set.  0x80 is the indefinite form, and
    0xFF is reserved. -/
def longLength (first : Nat) : Reader Nat := do
  guard (0x80 < first ∧ first < 0xFF)
  let value := ofBigEndian (← octets (first - 0x80))
  guard (0x80 ≤ value ∧ 256 ^ (first - 0x80 - 1) ≤ value)
  return value

def length : Reader Nat := do
  let first ← octet
  if first.toNat < 0x80 then return first.toNat else longLength first.toNat

/-- A length in any definite form, in more octets than it needs as well. -/
def definiteLength : Reader Nat := do
  let first ← octet
  if first.toNat < 0x80 then return first.toNat
  else do
    guard (0x80 < first.toNat ∧ first.toNat < 0xFF)
    return ofBigEndian (← octets (first.toNat - 0x80))

/-- The contents of a value with the given tag. -/
def element (tag : UInt8) : Reader (List UInt8) := do
  guard ((← octet) = tag)
  octets (← length)

/-- The contents, read as a whole by another reader. -/
def within (tag : UInt8) (reader : Reader α) : Reader α := do
  match reader (← element tag) with
  | some (value, []) => return value
  | _ => failure

def times (reader : Reader α) : Nat → Reader (List α)
  | 0 => return []
  | count + 1 => do
    let value ← reader
    let values ← times reader count
    return value :: values

/-! ## Universal types -/

def sequence (reader : Reader α) : Reader α := within 0x30 reader

/-- An octet string that holds an encoding. -/
def octetString (reader : Reader α) : Reader α := within 0x04 reader

def null : Reader Unit := do
  guard ((← element 0x05) = [])

/-- Nine equal bits at the front could be eight. -/
def minimal : List UInt8 → Bool
  | first :: second :: _ =>
    !(first == 0 && second.toNat < 0x80) && !(first == 0xFF && 0x80 ≤ second.toNat)
  | [_] => true
  | [] => false

def twosComplement (bytes : List UInt8) : Int :=
  if (bytes.headD 0).toNat < 0x80 then ofBigEndian bytes
  else ofBigEndian bytes - 256 ^ bytes.length

def integer : Reader Int := do
  let contents ← element 0x02
  guard (minimal contents)
  return twosComplement contents

/-- The numbers in base 128; `started` is what has been read of the next one. -/
def subidentifiers (started : Option Nat) : List UInt8 → Option (List Nat)
  | [] => if started = none then some [] else none
  | b :: rest =>
    let value := 128 * started.getD 0 + b.toNat % 128
    if started = none ∧ b = 0x80 then none
    else if b.toNat < 0x80 then (value :: ·) <$> subidentifiers none rest
    else subidentifiers (some value) rest

/-- The first number holds two arcs, of which the first is at most 2. -/
def arcs : List Nat → Option (List Nat)
  | [] => none
  | first :: rest =>
    some (if first < 40 then 0 :: first :: rest
      else if first < 80 then 1 :: (first - 40) :: rest
      else 2 :: (first - 80) :: rest)

def objectIdentifier : Reader (List Nat) := do
  match (subidentifiers none (← element 0x06)).bind arcs with
  | some found => return found
  | none => failure

/-- A bit string of whole octets: none of its bits is unused. -/
def bitString : Reader (List UInt8) := do
  match ← element 0x03 with
  | unused :: bits => do
    guard (unused = 0)
    return bits
  | [] => failure

def utf8String : Reader (List Char) := do
  match (List.toByteArray (← element 0x0C)).utf8Decode? with
  | some text => return text.toList
  | none => failure

/-- One value after the other to the end of the bytes, at most `count` of them. -/
def toEnd (reader : Reader α) : Nat → Reader (List α)
  | 0, bytes => if bytes = [] then some ([], []) else none
  | count + 1, bytes =>
    if bytes = [] then some ([], [])
    else (do
      let value ← reader
      let values ← toEnd reader count
      return value :: values) bytes

/-- Any number of values of one type. -/
def listOf (tag : UInt8) (reader : Reader α) : Reader (List α) :=
  within tag fun contents => toEnd reader contents.length contents

def sequenceOf (reader : Reader α) : Reader (List α) := listOf 0x30 reader

def setOf (reader : Reader α) : Reader (List α) := listOf 0x31 reader

/-- The value with the bytes it has been read from. -/
def captured (reader : Reader α) : Reader (List UInt8 × α) := fun bytes => do
  let (value, rest) ← reader bytes
  return ((bytes.take (bytes.length - rest.length), value), rest)

/-! ## Rules -/

/-- The bytes are read as the value, and what follows is left. -/
def Reads (reader : Reader α) (bytes : List UInt8) (value : α) : Prop :=
  ∀ rest, reader (bytes ++ rest) = some (value, rest)

theorem Reads.pure (value : α) : Reads (Pure.pure value) [] value := fun _ => rfl

theorem Reads.bind {reader : Reader α} {next : α → Reader β} {first second : List UInt8}
    {value : α} {result : β} (reads : Reads reader first value)
    (readsNext : Reads (next value) second result) :
    Reads (reader >>= next) (first ++ second) result := by
  intro rest
  rw [List.append_assoc]
  show (reader (first ++ (second ++ rest))).bind (fun found => next found.1 found.2) = _
  rw [reads (second ++ rest)]
  exact readsNext rest

theorem reads_guard {p : Prop} [Decidable p] (holds : p) : Reads (guard p) [] () := by
  rw [guard, if_pos holds]
  exact Reads.pure ()

theorem Reads.guarded {p : Prop} [Decidable p] (holds : p) {reader : Reader α}
    {bytes : List UInt8} {value : α} (reads : Reads reader bytes value) :
    Reads (do guard p; reader) bytes value :=
  (reads_guard holds).bind reads

theorem Reads.times_cons {reader : Reader α} {count : Nat} {first rest : List UInt8} {value : α}
    {values : List α} (reads : Reads reader first value)
    (readsRest : Reads (times reader count) rest values) :
    Reads (times reader (count + 1)) (first ++ rest) (value :: values) := by
  refine reads.bind ?_
  rw [← List.append_nil rest]
  exact readsRest.bind (Reads.pure _)

/-- No value is read from a proper beginning of what another value is read from. -/
theorem Reads.eq_of_isPrefix {reader : Reader α} {first second : List UInt8} {value other : α}
    (reads : Reads reader first value) (readsOther : Reads reader second other)
    (starts : first <+: second) : first = second := by
  obtain ⟨rest, rfl⟩ := starts
  have whole := readsOther []
  rw [List.append_nil, reads rest] at whole
  cases whole
  rw [List.append_nil]

theorem reads_octet (b : UInt8) : Reads octet [b] b := fun _ => rfl

theorem reads_octets {bytes : List UInt8} {count : Nat} (size : bytes.length = count) :
    Reads (octets count) bytes bytes := by
  intro rest
  rw [octets, if_pos (by simp [← size])]
  simp [← size]

theorem reads_length_short {n : Nat} (short : n < 0x80) : Reads length [UInt8.ofNat n] n := by
  have value : (UInt8.ofNat n).toNat = n := by
    rw [UInt8.toNat_ofNat']
    omega
  show Reads length ([UInt8.ofNat n] ++ []) n
  refine (reads_octet _).bind ?_
  rw [value, if_pos short]
  exact Reads.pure n

theorem reads_length_long {count n : Nat} (few : count < 0x7F) (long : 0x80 ≤ n)
    (least : 256 ^ (count - 1) ≤ n) (fits : n < 256 ^ count) :
    Reads length (UInt8.ofNat (0x80 + count) :: bigEndian count n) n := by
  have some : 0 < count := by
    by_contra none
    obtain rfl : count = 0 := by omega
    omega
  have first : (UInt8.ofNat (0x80 + count)).toNat = 0x80 + count := by
    rw [UInt8.toNat_ofNat']
    omega
  refine (reads_octet _).bind ?_
  rw [first, if_neg (by omega), longLength]
  refine Reads.guarded (by omega) ?_
  rw [Nat.add_sub_cancel_left]
  rw [← List.append_nil (bigEndian count n)]
  refine (reads_octets (length_bigEndian count n)).bind ?_
  simp only [ofBigEndian_bigEndian fits]
  exact Reads.guarded ⟨long, least⟩ (Reads.pure n)

theorem reads_element {tag : UInt8} {size contents : List UInt8}
    (reads : Reads length size contents.length) :
    Reads (element tag) (tag :: size ++ contents) contents := by
  show Reads _ ([tag] ++ size ++ contents) contents
  rw [List.append_assoc]
  refine (reads_octet tag).bind ?_
  refine Reads.guarded rfl ?_
  exact reads.bind (reads_octets rfl)

/-- The contents are read to their end. -/
theorem reads_within_of_whole {tag : UInt8} {bytes contents : List UInt8} {reader : Reader α}
    {value : α} (reads : Reads (element tag) bytes contents)
    (whole : reader contents = some (value, [])) : Reads (within tag reader) bytes value := by
  rw [← List.append_nil bytes]
  refine reads.bind ?_
  simp only [whole]
  exact Reads.pure value

theorem Reads.whole {reader : Reader α} {bytes : List UInt8} {value : α}
    (reads : Reads reader bytes value) : reader bytes = some (value, []) := by
  have alone := reads []
  rwa [List.append_nil] at alone

theorem reads_within {tag : UInt8} {bytes contents : List UInt8} {reader : Reader α} {value : α}
    (reads : Reads (element tag) bytes contents) (readsContents : Reads reader contents value) :
    Reads (within tag reader) bytes value :=
  reads_within_of_whole reads readsContents.whole

theorem reads_null : Reads null [0x05, 0x00] () := by
  have none : Reads length [0x00] ([] : List UInt8).length := reads_length_short (by decide)
  have empty : Reads (element 0x05) [0x05, 0x00] [] := reads_element none
  exact empty.bind (reads_guard rfl)

/-! ### Lists and choices -/

/-- The second reader takes over where the first one finds nothing. -/
theorem orElse_of_none {first : Reader α} {bytes : List UInt8} (fails : first bytes = none)
    (second : Reader α) : (first <|> second) bytes = second bytes := by
  show (first bytes <|> second bytes) = _
  rw [fails]
  rfl

theorem Reads.orElse {first second : Reader α} {bytes : List UInt8} {value : α}
    (fails : ∀ rest, first (bytes ++ rest) = none) (reads : Reads second bytes value) :
    Reads (first <|> second) bytes value := by
  intro rest
  rw [orElse_of_none (fails rest) second]
  exact reads rest

theorem Reads.orElse_left {first : Reader α} {bytes : List UInt8} {value : α}
    (reads : Reads first bytes value) (second : Reader α) :
    Reads (first <|> second) bytes value := by
  intro rest
  show (first (bytes ++ rest) <|> second (bytes ++ rest)) = _
  rw [reads rest]
  rfl

theorem Reads.map {reader : Reader α} {bytes : List UInt8} {value : α}
    (reads : Reads reader bytes value) (f : α → β) : Reads (f <$> reader) bytes (f value) := by
  intro rest
  show (reader (bytes ++ rest)).bind (fun found => some (f found.1, found.2)) = _
  rw [reads rest]
  rfl

theorem element_of_other_tag {tag other : UInt8} (differ : other ≠ tag) (bytes : List UInt8) :
    element tag (other :: bytes) = none := by
  show (if other = tag then Pure.pure () else failure : Reader Unit) bytes >>= _ = none
  rw [if_neg differ]
  rfl

theorem toEnd_flatten {reader : Reader α} {pieces : List (List UInt8)} {values : List α}
    (reads : List.Forall₂ (fun piece value => piece ≠ [] ∧ Reads reader piece value) pieces values)
    {count : Nat} (enough : pieces.flatten.length ≤ count) :
    toEnd reader count pieces.flatten = some (values, []) := by
  induction reads generalizing count with
  | nil => cases count <;> rfl
  | @cons piece value pieces values first _ ih =>
    obtain ⟨nonempty, readsFirst⟩ := first
    have positive := List.length_pos_iff.mpr nonempty
    rw [List.flatten_cons, List.length_append] at enough
    obtain ⟨count, rfl⟩ : ∃ more, count = more + 1 := ⟨count - 1, by omega⟩
    have more : (piece :: pieces).flatten ≠ [] := by
      simp [nonempty]
    rw [toEnd, if_neg more, List.flatten_cons]
    show (reader (piece ++ pieces.flatten)).bind _ = _
    rw [readsFirst]
    show (toEnd reader count pieces.flatten).bind _ = _
    rw [ih (by omega)]
    rfl

theorem reads_listOf {tag : UInt8} {bytes : List UInt8} {reader : Reader α}
    {pieces : List (List UInt8)} {values : List α}
    (readsElement : Reads (element tag) bytes pieces.flatten)
    (reads : List.Forall₂ (fun piece value => piece ≠ [] ∧ Reads reader piece value) pieces
      values) :
    Reads (listOf tag reader) bytes values :=
  reads_within_of_whole readsElement (toEnd_flatten reads le_rfl)

theorem reads_captured {reader : Reader α} {bytes : List UInt8} {value : α}
    (reads : Reads reader bytes value) : Reads (captured reader) bytes (bytes, value) := by
  intro rest
  show (reader (bytes ++ rest)).bind _ = _
  rw [reads rest]
  simp

/-! ### Strings -/

theorem reads_bitString {bytes bits : List UInt8}
    (reads : Reads (element 0x03) bytes (0 :: bits)) : Reads bitString bytes bits := by
  rw [← List.append_nil bytes]
  exact reads.bind (Reads.guarded rfl (Reads.pure bits))

theorem reads_utf8String {bytes : List UInt8} {text : List Char}
    (reads : Reads (element 0x0C) bytes text.utf8Encode.data.toList) :
    Reads utf8String bytes text := by
  have decoded : (List.toByteArray text.utf8Encode.data.toList).utf8Decode? =
      some text.toArray := by
    rw [← List.utf8Decode?_utf8Encode]
    congr 1
    simp [List.utf8Encode]
  rw [← List.append_nil bytes]
  refine reads.bind ?_
  simp only [decoded]
  exact Reads.pure text

/-! ### Integers -/

theorem twosComplement_of_nonnegative {first : UInt8} {rest : List UInt8}
    (nonnegative : first.toNat < 0x80) :
    twosComplement (first :: rest) = ofBigEndian (first :: rest) := by
  rw [twosComplement, List.headD_cons, if_pos nonnegative]

theorem reads_integer {bytes contents : List UInt8}
    (reads : Reads (element 0x02) bytes contents) (shortest : minimal contents = true) :
    Reads integer bytes (twosComplement contents) := by
  rw [← List.append_nil bytes]
  exact reads.bind (Reads.guarded shortest (Reads.pure _))

/-- A number in the fewest bytes, its high bit clear. -/
theorem integer_of_low {width n : Nat} (least : 256 ^ width ≤ n) (low : n < 128 * 256 ^ width) :
    minimal (bigEndian (width + 1) n) = true ∧
      twosComplement (bigEndian (width + 1) n) = n := by
  have positive : 0 < n / 256 ^ width := Nat.div_pos least (by positivity)
  have small : n / 256 ^ width < 128 := Nat.div_lt_of_lt_mul (by rwa [Nat.mul_comm])
  have first : (UInt8.ofNat (n / 256 ^ width)).toNat = n / 256 ^ width := by
    rw [UInt8.toNat_ofNat']
    omega
  have fits : n < 256 ^ (width + 1) := by
    rw [pow_succ]
    omega
  constructor
  · rw [bigEndian_succ]
    -- The first byte is between 1 and 127, so no shorter sequence spells the number.
    cases bigEndian width n with
    | nil => rfl
    | cons second rest =>
      have notZero : UInt8.ofNat (n / 256 ^ width) ≠ 0 := by
        intro zero
        rw [zero] at first
        exact absurd first positive.ne
      have notMax : UInt8.ofNat (n / 256 ^ width) ≠ 0xFF := by
        intro max
        rw [max] at first
        rw [← first] at small
        exact absurd small (by decide)
      simp [minimal, notZero, notMax]
  · have value := ofBigEndian_bigEndian fits
    rw [bigEndian_succ] at value ⊢
    rw [twosComplement_of_nonnegative (by omega), value]

/-- A number in the fewest bytes, its high bit set, behind a zero byte. -/
theorem integer_of_high {width n : Nat} (high : 128 * 256 ^ width ≤ n)
    (fits : n < 256 ^ (width + 1)) :
    minimal (0 :: bigEndian (width + 1) n) = true ∧
      twosComplement (0 :: bigEndian (width + 1) n) = n := by
  have large : 128 ≤ n / 256 ^ width := (Nat.le_div_iff_mul_le (by positivity)).mpr high
  have small : n / 256 ^ width < 256 := Nat.div_lt_of_lt_mul (by rwa [← pow_succ])
  have first : (UInt8.ofNat (n / 256 ^ width)).toNat = n / 256 ^ width := by
    rw [UInt8.toNat_ofNat']
    omega
  constructor
  · rw [bigEndian_succ]
    simp [minimal, large, Nat.mod_eq_of_lt small]
  · rw [twosComplement_of_nonnegative (by decide), ofBigEndian_cons, ofBigEndian_bigEndian fits]
    simp

/-! ### Object identifiers -/

/-- The digits of a number in base 128, all marked as continued. -/
theorem subidentifiers_continued {started : Option Nat} {digit : Nat} (small : digit < 128)
    (unpadded : started = none → digit ≠ 0) (rest : List UInt8) :
    subidentifiers started (UInt8.ofNat (digit + 128) :: rest) =
      subidentifiers (some (128 * started.getD 0 + digit)) rest := by
  have value : (UInt8.ofNat (digit + 128)).toNat = digit + 128 := by
    rw [UInt8.toNat_ofNat']
    omega
  have notPadding : ¬ (started = none ∧ UInt8.ofNat (digit + 128) = 0x80) := by
    rintro ⟨none, padding⟩
    have zero := congrArg UInt8.toNat padding
    rw [value] at zero
    exact unpadded none (by simpa using zero)
  have low : (digit + 128) % 128 = digit := by omega
  rw [subidentifiers, if_neg notPadding, value, if_neg (by omega), low]

theorem subidentifiers_last {started : Option Nat} {digit : Nat} (small : digit < 128)
    (rest : List UInt8) :
    subidentifiers started (UInt8.ofNat digit :: rest) =
      (subidentifiers none rest).map ((128 * started.getD 0 + digit) :: ·) := by
  have value : (UInt8.ofNat digit).toNat = digit := by
    rw [UInt8.toNat_ofNat']
    omega
  have notPadding : ¬ (started = none ∧ UInt8.ofNat digit = 0x80) := by
    rintro ⟨-, padding⟩
    have equal := congrArg UInt8.toNat padding
    rw [value] at equal
    rw [equal] at small
    exact absurd small (by decide)
  rw [subidentifiers, if_neg notPadding, value, if_pos (by omega), Nat.mod_eq_of_lt small]
  rfl

theorem reads_objectIdentifier {bytes contents : List UInt8} {numbers found : List Nat}
    (reads : Reads (element 0x06) bytes contents)
    (split : subidentifiers none contents = some numbers) (isArcs : arcs numbers = some found) :
    Reads objectIdentifier bytes found := by
  rw [← List.append_nil bytes]
  refine reads.bind ?_
  simp only [split, Option.bind_some, isArcs]
  exact Reads.pure found

/-! ## What has been read -/

theorem bind_eq_some {reader : Reader α} {next : α → Reader β} {bytes rest : List UInt8}
    {result : β} (read : (reader >>= next) bytes = some (result, rest)) :
    ∃ value middle, reader bytes = some (value, middle) ∧
      next value middle = some (result, rest) := by
  obtain ⟨⟨value, middle⟩, first, second⟩ := Option.bind_eq_some_iff.mp read
  exact ⟨value, middle, first, second⟩

theorem guard_eq_some {p : Prop} [Decidable p] {bytes rest : List UInt8} {result : Unit}
    (read : (guard p : Reader Unit) bytes = some (result, rest)) : p ∧ rest = bytes := by
  by_cases holds : p
  · rw [guard, if_pos holds] at read
    cases read
    exact ⟨holds, rfl⟩
  · rw [guard, if_neg holds] at read
    cases read

theorem octets_eq_some {count : Nat} {bytes found rest : List UInt8}
    (read : octets count bytes = some (found, rest)) :
    bytes = found ++ rest ∧ found.length = count := by
  unfold octets at read
  split at read
  · rename_i enough
    rw [List.splitAt_eq] at read
    cases read
    exact ⟨(List.take_append_drop count bytes).symm, by simpa using enough⟩
  · cases read

theorem element_eq_some {tag : UInt8} {bytes contents rest : List UInt8}
    (read : element tag bytes = some (contents, rest)) :
    ∃ body, bytes = tag :: body ∧ length body = some (contents.length, contents ++ rest) := by
  obtain ⟨first, body, isFirst, afterFirst⟩ := bind_eq_some read
  obtain ⟨_, _, tagged, afterTag⟩ := bind_eq_some afterFirst
  obtain ⟨isTag, rfl⟩ := guard_eq_some tagged
  obtain ⟨count, middle, isLength, isContents⟩ := bind_eq_some afterTag
  obtain ⟨split, rfl⟩ := octets_eq_some isContents
  cases bytes with
  | nil => cases isFirst
  | cons b bytes =>
    cases isFirst
    rw [isTag, ← split]
    exact ⟨_, rfl, isLength⟩

/-- What is read as an element of one tag is none of another. -/
theorem Reads.other_element {tag other : UInt8} {bytes contents : List UInt8}
    (reads : Reads (element tag) bytes contents) (differ : tag ≠ other) (rest : List UInt8) :
    element other (bytes ++ rest) = none := by
  obtain ⟨body, split, -⟩ := element_eq_some (reads rest)
  rw [split]
  exact element_of_other_tag differ body

/-- The long form leaves its first octet and as many more as that announces. -/
theorem length_eq_some_of_high {first : UInt8} {bytes rest : List UInt8} {n : Nat}
    (high : 0x80 ≤ first.toNat) (read : length (first :: bytes) = some (n, rest)) :
    first.toNat < 0xFF ∧ n < 256 ^ (first.toNat - 0x80) ∧
      bytes.length = first.toNat - 0x80 + rest.length := by
  obtain ⟨_, _, isFirst, long⟩ := bind_eq_some read
  cases isFirst
  have notShort : ¬ first.toNat < 0x80 := by omega
  rw [if_neg notShort] at long
  obtain ⟨_, _, inRange, afterRange⟩ := bind_eq_some long
  obtain ⟨range, rfl⟩ := guard_eq_some inRange
  obtain ⟨digits, _, isDigits, afterDigits⟩ := bind_eq_some afterRange
  obtain ⟨_, _, isLong, returned⟩ := bind_eq_some afterDigits
  obtain ⟨-, rfl⟩ := guard_eq_some isLong
  cases returned
  obtain ⟨split, size⟩ := octets_eq_some isDigits
  refine ⟨range.2, ?_, ?_⟩
  · rw [← size]
    exact ofBigEndian_lt digits
  · rw [split, List.length_append, size]

/-- A definite length is a single octet, or its digits in base 256 behind their number. -/
theorem definiteLength_eq_some {bytes rest : List UInt8} {n : Nat}
    (read : definiteLength bytes = some (n, rest)) :
    (n < 0x80 ∧ bytes = UInt8.ofNat n :: rest) ∨
      ∃ count, 0 < count ∧ n < 256 ^ count ∧
        bytes = UInt8.ofNat (0x80 + count) :: (bigEndian count n ++ rest) := by
  obtain ⟨first, body, isFirst, afterFirst⟩ := bind_eq_some read
  cases bytes with
  | nil => cases isFirst
  | cons _ bytes =>
    cases isFirst
    split at afterFirst
    · rename_i short
      cases afterFirst
      exact .inl ⟨short, by rw [UInt8.ofNat_toNat]⟩
    · rename_i long
      obtain ⟨_, _, inRange, afterRange⟩ := bind_eq_some afterFirst
      obtain ⟨range, rfl⟩ := guard_eq_some inRange
      obtain ⟨digits, _, isDigits, returned⟩ := bind_eq_some afterRange
      cases returned
      obtain ⟨rfl, size⟩ := octets_eq_some isDigits
      have announced : 0x80 + digits.length = first.toNat := by omega
      refine .inr ⟨digits.length, by omega, ofBigEndian_lt digits, ?_⟩
      rw [announced, UInt8.ofNat_toNat, bigEndian_ofBigEndian]

/-- A number that is not negative has its sign bit clear. -/
theorem twosComplement_eq_natCast {bytes : List UInt8} {n : Nat}
    (value : twosComplement bytes = n) : (bytes.headD 0).toNat < 0x80 ∧ ofBigEndian bytes = n := by
  unfold twosComplement at value
  split at value
  · rename_i clear
    exact ⟨clear, by exact_mod_cast value⟩
  · have small : (ofBigEndian bytes : Int) < 256 ^ bytes.length := by
      exact_mod_cast ofBigEndian_lt bytes
    omega

theorem lt_of_twosComplement {first : UInt8} {rest : List UInt8} {n : Nat}
    (value : twosComplement (first :: rest) = n) : n < 128 * 256 ^ rest.length := by
  obtain ⟨clear, rfl⟩ := twosComplement_eq_natCast value
  have below := ofBigEndian_lt rest
  have leading : (first.toNat + 1) * 256 ^ rest.length ≤ 128 * 256 ^ rest.length :=
    Nat.mul_le_mul_right _ clear
  rw [ofBigEndian_cons]
  rw [Nat.add_mul, Nat.one_mul] at leading
  omega

theorem eq_bigEndian_of_twosComplement {bytes : List UInt8} {n : Nat}
    (value : twosComplement bytes = n) : bytes = bigEndian bytes.length n := by
  rw [← (twosComplement_eq_natCast value).2, bigEndian_ofBigEndian]

theorem objectIdentifier_eq_some {bytes rest : List UInt8} {found : List Nat}
    (read : objectIdentifier bytes = some (found, rest)) :
    ∃ contents numbers, element 0x06 bytes = some (contents, rest) ∧
      subidentifiers none contents = some numbers ∧ arcs numbers = some found := by
  obtain ⟨contents, middle, isContents, afterContents⟩ := bind_eq_some read
  cases isArcs : (subidentifiers none contents).bind arcs with
  | none =>
    simp only [isArcs] at afterContents
    cases afterContents
  | some arcsFound =>
    simp only [isArcs] at afterContents
    cases afterContents
    obtain ⟨numbers, isNumbers, isFound⟩ := Option.bind_eq_some_iff.mp isArcs
    exact ⟨contents, numbers, isContents, isNumbers, isFound⟩

/-- Every number ends with an octet whose high bit is clear. -/
theorem length_subidentifiers {started : Option Nat} {bytes : List UInt8} {numbers : List Nat}
    (read : subidentifiers started bytes = some numbers) :
    numbers.length = bytes.countP fun b => b.toNat < 0x80 := by
  induction bytes generalizing started numbers with
  | nil =>
    rw [subidentifiers] at read
    split at read
    · cases read
      rfl
    · cases read
  | cons b bytes ih =>
    rw [subidentifiers] at read
    split at read
    · cases read
    · split at read
      · rename_i last
        obtain ⟨others, isOthers, rfl⟩ := Option.map_eq_some_iff.mp read
        rw [List.length_cons, ih isOthers, List.countP_cons_of_pos (by simpa using last)]
      · rename_i continued
        rw [ih read, List.countP_cons_of_neg (by simpa using continued)]

theorem length_arcs {numbers found : List Nat} (split : arcs numbers = some found) :
    found.length = numbers.length + 1 := by
  cases numbers with
  | nil => cases split
  | cons first rest =>
    cases split
    split
    · rfl
    · split <;> rfl

end Excalibur.Library.Der
