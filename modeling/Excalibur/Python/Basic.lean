import Excalibur.Library.Cut

/-! # The Python values the programs work on

`Str` is `str`, a sequence of code points, `Bytes` is `bytes` and `bytearray`, and
a `Dict` forgets the order of its items.  An operation that can raise returns an
`Except` over the exception classes that the programs can meet.  A text here has
no lone surrogates: those are exactly the texts that `encode("utf-8")` accepts.
-/

namespace Excalibur.Python

/-- The exception classes raised by the operations the programs use. -/
inductive PyError where
  | assertionError
  | keyError
  | indexError
  | valueError
  | typeError
  | attributeError
  | structError
  | unicodeEncodeError
  | overflowError
  | zeroDivisionError
deriving DecidableEq, Repr

theorem bind_eq_ok {ε α β : Type} {first : Except ε α} {next : α → Except ε β} {result : β} :
    (first >>= next) = .ok result ↔ ∃ middle, first = .ok middle ∧ next middle = .ok result := by
  cases first with
  | error e => simp [bind, Except.bind]
  | ok middle => simp [bind, Except.bind]

abbrev Str := List Char

abbrev Bytes := List UInt8

abbrev Dict (κ υ : Type) := AList fun _ : κ => υ

abbrev lit (text : String) : Str := text.toList

def bytesLit (text : String) : Bytes := text.toList.map fun c => UInt8.ofNat c.toNat

/-! ## Dictionaries

`d[key]`, `len(d)`, `del d[key]` and the loop that deletes several keys that are
present. -/

section Dictionaries

variable {κ υ : Type} [DecidableEq κ]

def getItem (d : Dict κ υ) (key : κ) : Except PyError υ :=
  match d.lookup key with
  | some value => .ok value
  | none => .error .keyError

def len (d : Dict κ υ) : Nat := d.entries.length

def delItem (d : Dict κ υ) (key : κ) : Except PyError (Dict κ υ) :=
  if key ∈ d then .ok (d.erase key) else .error .keyError

def delItems (d : Dict κ υ) (keys : List κ) : Dict κ υ :=
  keys.foldl (fun d key => d.erase key) d

theorem lookup_delItems (d : Dict κ υ) (keys : List κ) (key : κ) :
    (delItems d keys).lookup key = if key ∈ keys then none else d.lookup key := by
  induction keys generalizing d with
  | nil => rfl
  | cons first keys ih =>
    have unfolded : delItems d (first :: keys) = delItems (d.erase first) keys := rfl
    rw [unfolded, ih]
    rcases eq_or_ne key first with rfl | other
    · simp
    · simp [other, AList.lookup_erase_ne]

theorem len_insert_of_absent {d : Dict κ υ} {key : κ} (absent : d.lookup key = none) (value : υ) :
    len (d.insert key value) = len d + 1 := by
  rw [len, AList.entries_insert_of_notMem (AList.lookup_eq_none.mp absent), List.length_cons, len]

theorem len_erase_of_present {d : Dict κ υ} {key : κ} {value : υ}
    (present : d.lookup key = some value) : len (d.erase key) + 1 = len d := by
  have inside : key ∈ d.entries.keys := by
    rw [← AList.keys, ← AList.mem_keys, ← AList.lookup_isSome, present]
    rfl
  obtain ⟨_, before, after, -, split, erased⟩ := List.exists_of_kerase inside
  have entries : (d.erase key).entries = before ++ after := erased
  rw [len, len, entries, split]
  simp
  omega

theorem mem_entries_iff (d : Dict κ υ) (key : κ) (value : υ) :
    (⟨key, value⟩ : Sigma fun _ : κ => υ) ∈ d.entries ↔ d.lookup key = some value :=
  AList.mem_lookup_iff.symm

end Dictionaries

/-! ## Slices

`items[:stop]` and `items[start:]` for any bounds, and `items[start:start + size]`
for bounds that are not negative. -/

/-- The index a slice bound stands for: negative bounds count from the end. -/
def sliceIndex (length : Nat) (bound : Int) : Nat :=
  if bound < 0 then (bound + length).toNat else bound.toNat

def sliceTo {α : Type} (items : List α) (stop : Int) : List α :=
  items.take (sliceIndex items.length stop)

def sliceFrom {α : Type} (items : List α) (start : Int) : List α :=
  items.drop (sliceIndex items.length start)

@[simp] theorem sliceTo_natCast {α : Type} (items : List α) (stop : Nat) :
    sliceTo items (stop : Int) = items.take stop := by
  rw [sliceTo, sliceIndex, if_neg (by omega), Int.toNat_natCast]

@[simp] theorem sliceFrom_natCast {α : Type} (items : List α) (start : Nat) :
    sliceFrom items (start : Int) = items.drop start := by
  rw [sliceFrom, sliceIndex, if_neg (by omega), Int.toNat_natCast]

theorem length_sliceFrom_le {α : Type} (items : List α) (start : Int) :
    (sliceFrom items start).length ≤ items.length := by
  simp [sliceFrom]

def slice {α : Type} (items : List α) (start size : Nat) : List α :=
  (items.drop start).take size

/-! ## White space

`str.isspace` on a code point, `bytes.isspace` on a byte, and `strip`. -/

def isSpace (c : Char) : Bool :=
  (9 ≤ c.toNat && c.toNat ≤ 13) || (28 ≤ c.toNat && c.toNat ≤ 32) || c.toNat == 133 ||
    c.toNat == 160 || c.toNat == 5760 || (8192 ≤ c.toNat && c.toNat ≤ 8202) ||
    c.toNat == 8232 || c.toNat == 8233 || c.toNat == 8239 || c.toNat == 8287 || c.toNat == 12288

def isAsciiSpace (b : UInt8) : Bool := (9 ≤ b.toNat && b.toNat ≤ 13) || b.toNat == 32

def stripBy {α : Type} (space : α → Bool) (items : List α) : List α :=
  ((items.dropWhile space).reverse.dropWhile space).reverse

theorem stripBy_eq_self {α : Type} {space : α → Bool} {items : List α}
    (front : ∀ first ∈ items.head?, space first = false)
    (back : ∀ last ∈ items.getLast?, space last = false) : stripBy space items = items := by
  have frontKept : items.dropWhile space = items := by
    cases items with
    | nil => rfl
    | cons first rest => simp [front first (by simp)]
  have backKept : items.reverse.dropWhile space = items.reverse := by
    cases reversed : items.reverse with
    | nil => rfl
    | cons last rest =>
      have isLast : items.getLast? = some last := by
        rw [List.getLast?_eq_head?_reverse, reversed, List.head?_cons]
      simp [back last (by simp [isLast])]
  rw [stripBy, frontKept, backKept, List.reverse_reverse]

theorem stripBy_append {α : Type} {space : α → Bool} {items blanks : List α}
    (nonempty : items ≠ []) (front : ∀ first ∈ items.head?, space first = false)
    (back : ∀ last ∈ items.getLast?, space last = false) (blank : ∀ b ∈ blanks, space b = true) :
    stripBy space (items ++ blanks) = items := by
  obtain ⟨first, rest, rfl⟩ := List.exists_cons_of_ne_nil nonempty
  have kept : ((first :: rest) ++ blanks).dropWhile space = (first :: rest) ++ blanks := by
    simp [front first (by simp)]
  have dropped : blanks.reverse.dropWhile space = [] := by
    simpa [List.dropWhile_eq_nil_iff] using blank
  have stripped := stripBy_eq_self front back
  rw [stripBy, List.dropWhile_cons_of_neg (by simp [front first (by simp)])] at stripped
  rw [stripBy, kept, List.reverse_append, List.dropWhile_append, dropped]
  exact stripped

/-! ## Encodings

`decode("latin1")`, `decode("ascii", "replace")`, `encode("ascii")` and
`encode("utf-8")`. -/

def decodeLatin1 (bytes : Bytes) : Str := bytes.map fun b => Char.ofNat b.toNat

def decodeAscii (bytes : Bytes) : Str :=
  -- Anything else is shown as U+FFFD.
  bytes.map fun b => if b.toNat < 128 then Char.ofNat b.toNat else Char.ofNat 0xFFFD

def encodeAscii (text : Str) : Except PyError Bytes :=
  if text.all fun c => c.toNat < 128 then .ok (text.map fun c => UInt8.ofNat c.toNat)
  else .error .unicodeEncodeError

def encodeUtf8 (text : Str) : ByteArray := (String.ofList text).toByteArray

theorem encodeUtf8_injective {first second : Str} (same : encodeUtf8 first = encodeUtf8 second) :
    first = second :=
  String.ofList_inj.mp (String.toByteArray_inj.mp same)

theorem length_encodeAscii {text : Str} {bytes : Bytes} (encoded : encodeAscii text = .ok bytes) :
    bytes.length = text.length := by
  simp only [encodeAscii] at encoded
  split at encoded
  · cases encoded
    rw [List.length_map]
  · contradiction

theorem decodeAscii_encodeAscii {text : Str} {bytes : Bytes} (encoded : encodeAscii text = .ok bytes) :
    decodeAscii bytes = text := by
  simp only [encodeAscii] at encoded
  split at encoded
  · rename_i ascii
    cases encoded
    simp only [decodeAscii, List.map_map]
    conv_rhs => rw [← List.map_id text]
    apply List.map_congr_left
    intro c member
    have small : c.toNat < 128 := by
      simpa using List.all_eq_true.mp ascii c member
    simp [Nat.mod_eq_of_lt (by omega : c.toNat < 256), small, Char.ofNat_toNat]
  · contradiction

/-! ## Digits

`str` of an integer, and `hex` or `hexdigest` of bytes. -/

def strOfInt : Int → Str
  | .ofNat n => Nat.toDigits 10 n
  | .negSucc n => '-' :: Nat.toDigits 10 (n + 1)

def hexOfBytes (bytes : Bytes) : Str :=
  bytes.flatMap fun b => [Nat.digitChar (b.toNat / 16), Nat.digitChar (b.toNat % 16)]

theorem isDigit_of_mem_toDigits {n : Nat} {c : Char} (member : c ∈ Nat.toDigits 10 n) :
    c.isDigit = true :=
  Nat.isDigit_of_mem_toDigits (by omega) (by omega) member

theorem strOfInt_injective {m n : Int} (same : strOfInt m = strOfInt n) : m = n := by
  have naturals : ∀ a b : Nat, Nat.toDigits 10 a = Nat.toDigits 10 b → a = b := by
    intro a b equal
    rw [← Nat.ofDigitChars_ten_toDigits (n := a), equal, Nat.ofDigitChars_ten_toDigits]
  have noSign : ∀ (a : Nat) (rest : Str), Nat.toDigits 10 a ≠ '-' :: rest := by
    intro a rest equal
    have digit := isDigit_of_mem_toDigits (n := a) (c := '-') (by simp [equal])
    exact absurd digit (by decide)
  cases m with
  | ofNat a =>
    cases n with
    | ofNat b => exact congrArg Int.ofNat (naturals a b same)
    | negSucc b => exact absurd same (noSign a _)
  | negSucc a =>
    cases n with
    | ofNat b => exact absurd same.symm (noSign b _)
    | negSucc b =>
      have equal := naturals _ _ (List.cons.inj same).2
      rw [Nat.succ.inj equal]

theorem not_mem_strOfInt {n : Int} {c : Char} (notDigit : c.isDigit = false) (notSign : c ≠ '-') :
    c ∉ strOfInt n := by
  have naturals : ∀ a : Nat, c ∉ Nat.toDigits 10 a := by
    intro a member
    rw [isDigit_of_mem_toDigits member] at notDigit
    contradiction
  cases n with
  | ofNat a => exact naturals a
  | negSucc a =>
    simp only [strOfInt, List.mem_cons, not_or]
    exact ⟨notSign, naturals _⟩

theorem isAscii_of_mem_hexOfBytes {bytes : Bytes} {c : Char} (member : c ∈ hexOfBytes bytes) :
    48 ≤ c.toNat ∧ c.toNat < 128 := by
  have digits : ∀ n < 16, 48 ≤ (Nat.digitChar n).toNat ∧ (Nat.digitChar n).toNat < 128 := by decide
  simp only [hexOfBytes, List.mem_flatMap, List.mem_cons, List.not_mem_nil, or_false] at member
  obtain ⟨b, -, rfl | rfl⟩ := member
  · exact digits _ (by have := b.toNat_lt; omega)
  · exact digits _ (by omega)

theorem hexOfBytes_injective {first second : Bytes}
    (same : hexOfBytes first = hexOfBytes second) : first = second := by
  have digits : ∀ m < 16, ∀ n < 16, Nat.digitChar m = Nat.digitChar n → m = n := by decide
  induction first generalizing second with
  | nil =>
    cases second with
    | nil => rfl
    | cons c second => simp [hexOfBytes] at same
  | cons b first ih =>
    cases second with
    | nil => simp [hexOfBytes] at same
    | cons c second =>
      simp only [hexOfBytes, List.flatMap_cons, List.cons_append, List.nil_append,
        List.cons.injEq] at same
      obtain ⟨high, low, rest⟩ := same
      have highEq := digits _ (by have := b.toNat_lt; omega) _ (by have := c.toNat_lt; omega) high
      have lowEq := digits _ (by omega) _ (by omega) low
      have equal : b = c := UInt8.toNat_inj.mp (by omega)
      rw [equal, ih rest]

/-! ## Upper case -/

/-- `str.upper` code point by code point.  A character may have a longer
    upper-case spelling; a spelling is its own upper case, and a line feed is the
    spelling of itself and part of no other. -/
structure UpperCase where
  spelling : Char → Str
  newline : spelling '\n' = ['\n']
  newline_only : ∀ c, '\n' ∈ spelling c → c = '\n'
  idempotent : ∀ c, (spelling c).flatMap spelling = spelling c

namespace UpperCase

variable (U : UpperCase)

def upper (text : Str) : Str := text.flatMap U.spelling

@[simp] theorem upper_upper (text : Str) : U.upper (U.upper text) = U.upper text := by
  simp only [upper, List.flatMap_assoc, U.idempotent]

@[simp] theorem newline_mem_upper {text : Str} : '\n' ∈ U.upper text ↔ '\n' ∈ text := by
  simp only [upper, List.mem_flatMap]
  constructor
  · rintro ⟨c, member, spelled⟩
    rwa [← U.newline_only c spelled]
  · intro member
    exact ⟨'\n', member, by simp [U.newline]⟩

theorem upper_append_newline (first second : Str) :
    U.upper (first ++ '\n' :: second) = U.upper first ++ '\n' :: U.upper second := by
  simp [upper, U.newline]

def ascii : UpperCase where
  spelling c := [c.toUpper]
  newline := by decide
  newline_only c member := by
    simp only [List.mem_singleton] at member
    have notAlpha : c.isAlpha = false := by
      rw [← Char.isAlpha_toUpper_eq_isAlpha, ← member]
      rfl
    have notLower : ¬ c.isLower := by
      intro lower
      simp [Char.isAlpha, lower] at notAlpha
    rwa [Char.toUpper_eq_of_not_isLower notLower, eq_comm] at member
  idempotent c := by simp

end UpperCase

end Excalibur.Python
