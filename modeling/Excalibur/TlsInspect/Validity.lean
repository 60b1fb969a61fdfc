import Excalibur.Library.Calendar
import Excalibur.TlsInspect.PrivateKey

/-! # The validity of a certificate

`make_self_signed_cert` writes both ends of the validity as `UTCTime`, whose years have two
digits, and a reader takes them for the years 1950 to 2049.  `validity_covers_iff` says
when the moment of the generation is still inside.
-/

namespace Excalibur.TlsInspect

open Excalibur.Library Excalibur.Python

/-! ## The generator -/

/-- `%y`, `%m` and the other fields: two decimal digits. -/
def twoDigits (n : Nat) : Str := [Nat.digitChar (n / 10), Nat.digitChar (n % 10)]

/-- `time.strftime` for the format `%y%m%d%H%M%SZ`. -/
def strftime (t : DateTime) : Str :=
  twoDigits (t.year % 100).toNat ++ twoDigits t.month ++ twoDigits t.day ++ twoDigits t.hour ++
    twoDigits t.minute ++ twoDigits t.second ++ ['Z']

/-- `time.gmtime` rounds down to a whole second. -/
def gmtime (secs : ℚ) : DateTime := DateTime.ofSeconds ⌊secs⌋

def utctime (s : Str) : Except PyError Bytes := der 0x17 (encodeUtf8 s).data.toList

/-- The validity that `make_self_signed_cert` puts into the certificate; `now` is what both
    calls of `time.time` return. -/
def validity (now days : ℚ) : Except PyError Bytes := do
  let notBefore := strftime (gmtime (now - 60))
  let notAfter := strftime (gmtime (now + days * 86400))
  seq [← utctime notBefore, ← utctime notAfter]

/-! ## The reader -/

def readDigit : Der.Reader Nat := do
  let b ← Der.octet
  guard (48 ≤ b.toNat ∧ b.toNat < 58)
  return b.toNat - 48

def readTwoDigits : Der.Reader Nat := do
  return 10 * (← readDigit) + (← readDigit)

/-- The year that two digits stand for. -/
def yearOfTwoDigits (yy : Nat) : Int := if yy < 50 then 2000 + yy else 1900 + yy

/-- `YYMMDDHHMMSSZ`. -/
def readMoment : Der.Reader DateTime := do
  let year := yearOfTwoDigits (← readTwoDigits)
  let month ← readTwoDigits
  let day ← readTwoDigits
  let hour ← readTwoDigits
  let minute ← readTwoDigits
  let second ← readTwoDigits
  guard ((← Der.octet) = 0x5A)
  match DateTime.of? year month day hour minute second with
  | some t => return t
  | none => failure

def readUtctime : Der.Reader DateTime := Der.within 0x17 readMoment

def readValidity : Der.Reader (DateTime × DateTime) := Der.sequence do
  let first ← readUtctime
  let last ← readUtctime
  return (first, last)

/-- A reader of the validity finds the moment of the generation inside. -/
def Covers (now days : ℚ) : Prop :=
  ∃ encoded first last, validity now days = .ok encoded ∧
    readValidity encoded = some ((first, last), []) ∧
    (first.toSeconds : ℚ) ≤ now ∧ now ≤ (last.toSeconds : ℚ)

/-! ## What is read back -/

/-- The year between 1950 and 2049 with the same last two digits. -/
def windowed (year : Int) : Int := yearOfTwoDigits (year % 100).toNat

theorem windowed_eq (year : Int) : 1950 ≤ windowed year ∧ windowed year ≤ 2049 ∧
    windowed year % 100 = year % 100 := by
  unfold windowed yearOfTwoDigits
  split
  · omega
  · omega

/-- Only 2000 stands for years that end a century, and it is a leap year. -/
theorem isLeap_windowed {year : Int} (leap : isLeap year) : isLeap (windowed year) := by
  obtain ⟨least, most, same⟩ := windowed_eq year
  simp only [isLeap, Bool.and_eq_true, Bool.or_eq_true, decide_eq_true_eq] at leap ⊢
  omega

/-- What the reader makes of a moment. -/
def readAs (t : DateTime) : DateTime :=
  { t with
    year := windowed t.year
    isDay := ⟨t.isDay.1, t.isDay.2.trans (monthLength_mono isLeap_windowed t.month)⟩ }

def digitByte (n : Nat) : UInt8 := UInt8.ofNat (48 + n)

theorem reads_digit {n : Nat} (small : n < 10) : Der.Reads readDigit [digitByte n] n := by
  have value : (digitByte n).toNat = 48 + n := by
    rw [digitByte, UInt8.toNat_ofNat']
    omega
  rw [← List.append_nil [digitByte n]]
  refine (Der.reads_octet _).bind (Der.Reads.guarded ?_ ?_)
  · omega
  · rw [value, Nat.add_sub_cancel_left]
    exact Der.Reads.pure n

theorem utf8EncodeChar_digitChar {n : Nat} (small : n < 10) :
    String.utf8EncodeChar (Nat.digitChar n) = [digitByte n] := by
  have all : ∀ n < 10, String.utf8EncodeChar (Nat.digitChar n) = [digitByte n] := by decide
  exact all n small

theorem reads_twoDigits {n : Nat} (small : n < 100) :
    Der.Reads readTwoDigits ((twoDigits n).flatMap String.utf8EncodeChar) n := by
  have whole : 10 * (n / 10) + n % 10 = n := Nat.div_add_mod n 10
  have reads : Der.Reads readTwoDigits ([digitByte (n / 10)] ++ ([digitByte (n % 10)] ++ []))
      (10 * (n / 10) + n % 10) :=
    (reads_digit (by omega)).bind ((reads_digit (by omega)).bind (Der.Reads.pure _))
  rw [whole] at reads
  simp only [twoDigits, List.flatMap_cons, List.flatMap_nil,
    utf8EncodeChar_digitChar (by omega : n / 10 < 10),
    utf8EncodeChar_digitChar (by omega : n % 10 < 10)]
  exact reads

theorem bytes_encodeUtf8 (text : Str) :
    (encodeUtf8 text).data.toList = text.flatMap String.utf8EncodeChar := by
  rw [encodeUtf8, String.toByteArray_ofList, List.utf8Encode, List.data_toByteArray]

theorem reads_strftime (t : DateTime) :
    Der.Reads readMoment (encodeUtf8 (strftime t)).data.toList (readAs t) := by
  have isMonth := t.isMonth
  have isDay := t.day_le
  have isTime := t.isTime
  simp only [bytes_encodeUtf8, strftime, List.flatMap_append, List.append_assoc]
  refine (reads_twoDigits (by omega)).bind ?_
  refine (reads_twoDigits (by omega)).bind ?_
  refine (reads_twoDigits (by omega)).bind ?_
  refine (reads_twoDigits (by omega)).bind ?_
  refine (reads_twoDigits (by omega)).bind ?_
  refine (reads_twoDigits (by omega)).bind ?_
  refine (Der.reads_octet 0x5A).bind (Der.Reads.guarded rfl ?_)
  have date := DateTime.of?_eq (readAs t)
  simp only [readAs, windowed] at date
  simp only [date]
  exact Der.Reads.pure _

theorem length_twoDigits {n : Nat} (small : n < 100) :
    ((twoDigits n).flatMap String.utf8EncodeChar).length = 2 := by
  simp only [twoDigits, List.flatMap_cons, List.flatMap_nil,
    utf8EncodeChar_digitChar (by omega : n / 10 < 10),
    utf8EncodeChar_digitChar (by omega : n % 10 < 10)]
  rfl

theorem length_strftime (t : DateTime) : (encodeUtf8 (strftime t)).data.toList.length = 13 := by
  have isMonth := t.isMonth
  have isDay := t.day_le
  have isTime := t.isTime
  rw [bytes_encodeUtf8]
  simp only [strftime, List.flatMap_append, List.length_append]
  rw [length_twoDigits (by omega), length_twoDigits (by omega), length_twoDigits (by omega),
    length_twoDigits (by omega), length_twoDigits (by omega), length_twoDigits (by omega)]
  rfl

theorem encodes_utctime (t : DateTime) :
    Encodes (utctime (strftime t)) 15 readUtctime (readAs t) := by
  have encodes := encodes_within 0x17 (by rw [length_strftime]; norm_num) (reads_strftime t)
  rw [length_strftime] at encodes
  exact encodes

theorem validity_round_trip (now days : ℚ) : ∃ encoded, validity now days = .ok encoded ∧
    readValidity encoded =
      some ((readAs (gmtime (now - 60)), readAs (gmtime (now + days * 86400))), []) := by
  obtain ⟨first, firstEncoded, firstSize, readsFirst⟩ := encodes_utctime (gmtime (now - 60))
  obtain ⟨last, lastEncoded, lastSize, readsLast⟩ :=
    encodes_utctime (gmtime (now + days * 86400))
  have contents : Der.Reads (do
      let first ← readUtctime
      let last ← readUtctime
      return (first, last)) [first, last].flatten
      (readAs (gmtime (now - 60)), readAs (gmtime (now + days * 86400))) :=
    readsFirst.bind (readsLast.bind (Der.Reads.pure _))
  have small : [first, last].flatten.length < 256 ^ 126 := by
    simp [firstSize, lastSize]
  obtain ⟨encoded, returned, -, reads⟩ := encodes_within 0x30 small contents
  refine ⟨encoded, ?_, ?_⟩
  · simp only [validity, firstEncoded, lastEncoded, bind, Except.bind]
    exact returned
  · rw [← List.append_nil encoded]
    exact reads []

theorem covers_iff_readAs (now days : ℚ) : Covers now days ↔
    (readAs (gmtime (now - 60))).toSeconds ≤ ⌊now⌋ ∧
      ⌈now⌉ ≤ (readAs (gmtime (now + days * 86400))).toSeconds := by
  obtain ⟨encoded, returned, read⟩ := validity_round_trip now days
  rw [Int.le_floor, Int.ceil_le]
  constructor
  · rintro ⟨other, first, last, otherReturned, otherRead, inside⟩
    obtain rfl : encoded = other := Except.ok.inj (returned.symm.trans otherReturned)
    rw [read] at otherRead
    cases otherRead
    exact inside
  · intro inside
    exact ⟨encoded, _, _, returned, read, inside⟩

/-! ## The window -/

/-- From 1950 on, the reader dates a moment back by whole centuries or not at all. -/
theorem readAs_le_iff {x y : Int} (ordered : x ≤ y) (near : y ≤ x + 365 * 86400) :
    (readAs (DateTime.ofSeconds x)).toSeconds ≤ y ↔ 1950 ≤ (DateTime.ofSeconds x).year := by
  obtain ⟨least, most, same⟩ := windowed_eq (DateTime.ofSeconds x).year
  constructor
  · intro notLater
    have order := (DateTime.toSeconds_le_iff (readAs (.ofSeconds x)) (.ofSeconds y)).mp
      (by rwa [DateTime.toSeconds_ofSeconds])
    -- an earlier year is read as one a century later at least
    have next := DateTime.year_ofSeconds_le_succ near
    simp only [readAs] at order
    omega
  · intro recent
    have back : (readAs (DateTime.ofSeconds x)).toSeconds ≤ (DateTime.ofSeconds x).toSeconds := by
      apply (DateTime.toSeconds_le_iff _ _).mpr
      have sameStamp : (readAs (DateTime.ofSeconds x)).stamp = (DateTime.ofSeconds x).stamp := rfl
      rw [sameStamp]
      simp only [readAs]
      omega
    rw [DateTime.toSeconds_ofSeconds] at back
    exact back.trans ordered

/-- Neither end is dated into the wrong century: the minute before the generation is not
    before 1950; moved by whole centuries into the hundred years that begin with the year of
    the generation, the expiry is not after 2049; and where that makes it the same year, the
    rest of its date is not before the generation. -/
structure Lasting (now days : ℚ) : Prop where
  begins : 1950 ≤ (gmtime (now - 60)).year
  ends : (DateTime.ofSeconds ⌈now⌉).year +
    ((gmtime (now + days * 86400)).year - (DateTime.ofSeconds ⌈now⌉).year) % 100 ≤ 2049
  sameYear : (100 : Int) ∣ (gmtime (now + days * 86400)).year - (DateTime.ofSeconds ⌈now⌉).year →
    (DateTime.ofSeconds ⌈now⌉).stamp ≤ (gmtime (now + days * 86400)).stamp

/-- An expiry less than a century away has to be before 2050. -/
theorem lasting_iff_of_near {now days : ℚ} (whole : ⌈now⌉ ≤ ⌊now + days * 86400⌋)
    (near : (gmtime (now + days * 86400)).year < (DateTime.ofSeconds ⌈now⌉).year + 100) :
    Lasting now days ↔
      1950 ≤ (gmtime (now - 60)).year ∧ (gmtime (now + days * 86400)).year ≤ 2049 := by
  have order := (DateTime.toSeconds_le_iff (.ofSeconds ⌈now⌉) (gmtime (now + days * 86400))).mp
    (by rwa [gmtime, DateTime.toSeconds_ofSeconds, DateTime.toSeconds_ofSeconds])
  constructor
  · rintro ⟨begins, ends, -⟩
    omega
  · rintro ⟨begins, ends⟩
    exact ⟨begins, by omega, by omega⟩

/-- The reader finds the moment of the generation inside exactly when the window is
    lasting. -/
theorem validity_covers_iff (now days : ℚ) : Covers now days ↔ Lasting now days := by
  have minute : ⌊now - 60⌋ = ⌊now⌋ - 60 := Int.floor_sub_ofNat now 60
  have start := readAs_le_iff (x := ⌊now - 60⌋) (y := ⌊now⌋) (by omega) (by omega)
  have rounded := Int.floor_le_ceil now
  have later := DateTime.year_ofSeconds_le (x := ⌊now - 60⌋) (y := ⌈now⌉) (by omega)
  obtain ⟨least, most, same⟩ := windowed_eq (gmtime (now + days * 86400)).year
  have finish := DateTime.toSeconds_le_iff (.ofSeconds ⌈now⌉)
    (readAs (gmtime (now + days * 86400)))
  rw [DateTime.toSeconds_ofSeconds] at finish
  have sameStamp : (readAs (gmtime (now + days * 86400))).stamp =
      (gmtime (now + days * 86400)).stamp := rfl
  have readYear : (readAs (gmtime (now + days * 86400))).year =
      windowed (gmtime (now + days * 86400)).year := rfl
  rw [sameStamp, readYear] at finish
  rw [covers_iff_readAs, finish]
  -- the year that is read is the only one from 1950 to 2049 with those two digits
  constructor
  · rintro ⟨begins, inside⟩
    have recent := start.mp begins
    refine ⟨recent, by omega, ?_⟩
    intro centuries
    omega
  · rintro ⟨recent, ends, sameYear⟩
    refine ⟨start.mpr recent, ?_⟩
    have notBefore : 1950 ≤ (DateTime.ofSeconds ⌈now⌉).year := recent.trans later
    omega

/-- Made at the beginning of 2041 with the default of ten years, the certificate seems to
    have expired in 1950. -/
theorem ten_years_from_2041 :
    readAs (gmtime (2240611200 + 3650 * 86400)) = ⟨1950, 12, 30, 0, 0, 0, by decide, by decide, by decide⟩ ∧
      ¬ Covers 2240611200 3650 := by
  have expiry : gmtime (2240611200 + 3650 * 86400) = DateTime.ofSeconds 2555971200 := by
    unfold gmtime
    norm_num
  refine ⟨?_, ?_⟩
  · rw [expiry]
    decide +kernel
  · rw [covers_iff_readAs, expiry]
    rintro ⟨-, notLater⟩
    norm_num at notLater
    exact absurd notLater (by decide +kernel)

end Excalibur.TlsInspect
