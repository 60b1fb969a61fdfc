import Excalibur.TlsInspect.Encoding

/-! # Object identifiers

`_oid` writes every arc from the third on in base 128, but the first two arcs, which
share a number, as one byte.  That byte is read as a number of its own only below 128; the
other conditions of `oid_round_trips_iff` are the limit of `int` on digits and the end of
the long form of a length.
-/

namespace Excalibur.TlsInspect

open Excalibur.Library Excalibur.Python

/-- The dotted text of the arcs. -/
def dotted (arcs : List Nat) : Str := ['.'].intercalate (arcs.map fun (arc : Nat) => strOfInt arc)

/-- The second arc is below 40 under the first two roots. -/
def ValidOid (first second : Nat) : Prop := first ≤ 2 ∧ (first < 2 → second < 40)

/-- What is encoded is read as the same arcs, and nothing is left over. -/
def RoundTrips (arcs : List Nat) : Prop :=
  ∃ encoded, oid (dotted arcs) = .ok encoded ∧ Der.objectIdentifier encoded = some (arcs, [])

/-- `40 * first + second` has seven bits, `int` reads every arc, and the contents are no
    longer than 126 length octets can say. -/
structure Encodable (first second : Nat) (parts : List Nat) : Prop where
  sevenBits : 40 * first + second < 128
  readable : ∀ arc ∈ first :: second :: parts, (strOfInt arc).length ≤ maxStrDigits
  short : (parts.flatMap base128).length + 1 < 256 ^ 126

/-! ## The text -/

theorem splitOn_dotted {arcs : List Nat} (nonempty : arcs ≠ []) :
    (dotted arcs).splitOn '.' = arcs.map fun (arc : Nat) => strOfInt arc := by
  apply List.splitOn_intercalate
  · intro part member
    obtain ⟨arc, -, rfl⟩ := List.mem_map.mp member
    exact not_mem_strOfInt (by decide) (by decide)
  · exact fun empty => nonempty (List.map_eq_nil_iff.mp empty)

theorem mapM_intOfStr {arcs : List Nat}
    (readable : ∀ arc ∈ arcs, (strOfInt arc).length ≤ maxStrDigits) :
    (arcs.map fun (arc : Nat) => strOfInt arc).mapM intOfStr = .ok (arcs.map Nat.cast) := by
  induction arcs with
  | nil => rfl
  | cons arc arcs ih =>
    have first := intOfStr_strOfInt arc
    rw [if_pos (readable arc List.mem_cons_self)] at first
    have rest := ih fun other member => readable other (List.mem_cons_of_mem arc member)
    simp only [List.map_cons, List.mapM_cons, first, rest, bind, Except.bind, pure, Except.pure]

theorem readable_of_mapM {arcs : List Nat} {numbers : List Int}
    (read : (arcs.map fun (arc : Nat) => strOfInt arc).mapM intOfStr = .ok numbers) :
    ∀ arc ∈ arcs, (strOfInt arc).length ≤ maxStrDigits := by
  induction arcs generalizing numbers with
  | nil => simp
  | cons arc arcs ih =>
    rw [List.map_cons, List.mapM_cons] at read
    obtain ⟨n, first, read⟩ := bind_eq_ok.mp read
    obtain ⟨others, rest, -⟩ := bind_eq_ok.mp read
    rw [intOfStr_strOfInt] at first
    intro other member
    rcases List.mem_cons.mp member with rfl | later
    · by_contra long
      rw [if_neg long] at first
      cases first
    · exact ih rest other later

/-! ## The contents -/

/-- What the encoder makes of a length for which there are not enough octets: the first
    octet is their number with the high bit set, whatever that is in a byte. -/
theorem derLen_of_large {n : Nat} {size : Bytes} (large : 256 ^ 126 ≤ n)
    (made : derLen n = .ok size) :
    127 ≤ byteLength n ∧ 0x80 ||| byteLength n < 256 ∧
      size = UInt8.ofNat (0x80 ||| byteLength n) :: bigEndian (byteLength n) n := by
  have long : ¬ n < 0x80 := not_lt.mpr (le_trans (by norm_num) large)
  rw [derLen, if_neg long, toBytes_byteLength] at made
  have wide : 127 ≤ byteLength n := by
    by_contra narrow
    have fits := lt_of_byteLength n
    exact absurd (fits.trans_le (Nat.pow_le_pow_right (by decide) (by omega))) (not_lt.mpr large)
  obtain ⟨digits, isDigits, prefixed⟩ := bind_eq_ok.mp made
  obtain rfl : bigEndian (byteLength n) n = digits := Except.ok.inj isDigits
  obtain ⟨first, isFirst, whole⟩ := bind_eq_ok.mp prefixed
  rw [length_bigEndian] at isFirst
  obtain ⟨small, rfl⟩ := byte_eq_ok isFirst
  exact ⟨wide, small, (Except.ok.inj whole).symm⟩

/-- Beyond 126 length octets the encoder fails or announces another length. -/
theorem small_of_element {tag : UInt8} {body encoded contents : Bytes}
    (made : der tag body = .ok encoded)
    (read : Der.element tag encoded = some (contents, [])) : body.length < 256 ^ 126 := by
  by_contra large
  obtain ⟨size, sized, returned⟩ := bind_eq_ok.mp made
  cases returned
  obtain ⟨wide, small, rfl⟩ := derLen_of_large (not_lt.mp large) sized
  obtain ⟨width, widthEq⟩ : ∃ width, byteLength body.length = width := ⟨_, rfl⟩
  rw [widthEq] at wide small read
  obtain ⟨sizeAndBody, split, isLength⟩ := Der.element_eq_some read
  obtain rfl : UInt8.ofNat (0x80 ||| width) :: (bigEndian width body.length ++ body) =
    sizeAndBody := (List.cons.inj split).2
  have value : (UInt8.ofNat (0x80 ||| width)).toNat = 0x80 ||| width := by
    rw [UInt8.toNat_ofNat', Nat.mod_eq_of_lt small]
  obtain ⟨notReserved, announced, leaves⟩ := Der.length_eq_some_of_high
    (by rw [value]; exact Nat.left_le_or) isLength
  rw [value] at notReserved announced leaves
  have marked : ∀ width < 256, 127 ≤ width →
      (0x80 ||| width) = 255 ∨ 128 ≤ width ∧ (0x80 ||| width) = width := by decide +kernel
  rcases marked width (Nat.right_le_or.trans_lt small) wide with reserved | ⟨atLeast, same⟩
  · omega
  · -- the announced length has 128 octets fewer than the real one
    rw [same] at announced leaves
    simp only [List.length_append, length_bigEndian, List.append_nil] at leaves
    have least : 256 ^ (width - 1) ≤ body.length := le_of_byteLength (by omega)
    have less : 256 ^ (width - 0x80) ≤ 256 ^ (width - 1) :=
      Nat.pow_le_pow_right (by decide) (by omega)
    omega

theorem der_element {tag : UInt8} {body encoded contents : Bytes}
    (made : der tag body = .ok encoded) (read : Der.element tag encoded = some (contents, [])) :
    contents = body := by
  obtain ⟨bytes, returned, -, reads⟩ := encodes_der tag (small_of_element made read)
  obtain rfl : encoded = bytes := Except.ok.inj (made.symm.trans returned)
  have whole := reads []
  rw [List.append_nil, read] at whole
  cases whole
  rfl

/-- The last byte of an arc, and no other, has its high bit clear. -/
theorem countP_base128 (p : Nat) : (base128 p).countP (fun b => b.toNat < 0x80) = 1 := by
  have marked : (continued (p / 128)).countP (fun b => b.toNat < 0x80) = 0 := by
    refine List.countP_eq_zero.mpr fun b member => ?_
    obtain ⟨v, isDigit, rfl⟩ := List.mem_map.mp member
    have small := septets_small (List.mem_reverse.mp isDigit)
    rw [decide_eq_true_eq, UInt8.toNat_ofNat']
    omega
  have last : (UInt8.ofNat (p % 128)).toNat < 0x80 := by
    rw [UInt8.toNat_ofNat']
    omega
  rw [base128_eq, List.countP_append, marked, List.countP_cons_of_pos (by simpa using last),
    List.countP_nil]

theorem countP_parts (parts : List Nat) :
    (parts.flatMap base128).countP (fun b => b.toNat < 0x80) = parts.length := by
  induction parts with
  | nil => rfl
  | cons p parts ih =>
    rw [List.flatMap_cons, List.countP_append, countP_base128, ih, List.length_cons, Nat.add_comm]

/-! ## The round trip -/

section RoundTrip

variable {first second : Nat} {parts : List Nat}

theorem roundTrips_of_encodable (valid : ValidOid first second)
    (encodable : Encodable first second parts) : RoundTrips (first :: second :: parts) := by
  have range : first < 2 ∧ second < 40 ∨ first = 2 ∧ second < 48 := by
    have sevenBits := encodable.sevenBits
    rcases Nat.lt_or_eq_of_le valid.1 with low | top
    · exact .inl ⟨low, valid.2 low⟩
    · omega
  have text : ((dotted (first :: second :: parts)).splitOn '.').mapM intOfStr =
      .ok ((first : Int) :: (second : Int) :: parts.map Nat.cast) := by
    rw [splitOn_dotted (by simp), mapM_intOfStr encodable.readable]
    rfl
  obtain ⟨encoded, returned, -, reads⟩ := encodes_oid text range encodable.short
  refine ⟨encoded, returned, ?_⟩
  rw [← List.append_nil encoded]
  exact reads []

/-- A returned encoding has the arcs in base 128 behind one byte for the first two. -/
theorem oid_eq_ok {encoded : Bytes} (returned : oid (dotted (first :: second :: parts)) = .ok encoded) :
    (∀ arc ∈ first :: second :: parts, (strOfInt arc).length ≤ maxStrDigits) ∧
    40 * first + second < 256 ∧
    der 0x06 (UInt8.ofNat (40 * first + second) :: parts.flatMap base128) = .ok encoded := by
  obtain ⟨numbers, read, rest⟩ := bind_eq_ok.mp returned
  rw [splitOn_dotted (by simp)] at read
  have readable := readable_of_mapM read
  rw [mapM_intOfStr readable] at read
  cases read
  obtain ⟨start, isStart, made⟩ := bind_eq_ok.mp rest
  have sum : (first : Int) * 40 + second = (40 * first + second : Nat) := by
    push_cast
    ring
  have same : (parts.map (Nat.cast : Nat → Int)).flatMap (fun p => base128 p.toNat) =
      parts.flatMap base128 := by
    simp [List.flatMap_map]
  rw [sum] at isStart
  rw [same] at made
  obtain ⟨small, rfl⟩ := byte_eq_ok isStart
  exact ⟨readable, small, made⟩

theorem encodable_of_roundTrips (trips : RoundTrips (first :: second :: parts)) :
    Encodable first second parts := by
  obtain ⟨encoded, returned, read⟩ := trips
  obtain ⟨readable, oneByte, made⟩ := oid_eq_ok returned
  obtain ⟨contents, numbers, isContents, isNumbers, isArcs⟩ := Der.objectIdentifier_eq_some read
  have short := small_of_element made isContents
  obtain rfl := der_element made isContents
  refine ⟨?_, readable, short⟩
  -- a first byte with its high bit set swallows the arc behind it
  by_contra eightBits
  have counted := Der.length_subidentifiers isNumbers
  have high : ¬ (UInt8.ofNat (40 * first + second)).toNat < 0x80 := by
    rw [UInt8.toNat_ofNat', Nat.mod_eq_of_lt oneByte]
    exact eightBits
  rw [List.countP_cons_of_neg (by simpa using high), countP_parts] at counted
  have oneMore := Der.length_arcs isArcs
  simp only [List.length_cons] at oneMore
  omega

end RoundTrip

/-- An object identifier is read back exactly when it is encodable, and no two encodable
    ones have the same encoding. -/
theorem oid_round_trips_iff (first second : Nat) (parts : List Nat) (valid : ValidOid first second) :
    (RoundTrips (first :: second :: parts) ↔ Encodable first second parts) ∧
    ∀ otherFirst otherSecond otherParts, ValidOid otherFirst otherSecond →
      Encodable first second parts → Encodable otherFirst otherSecond otherParts →
      oid (dotted (first :: second :: parts)) =
        oid (dotted (otherFirst :: otherSecond :: otherParts)) →
      first :: second :: parts = otherFirst :: otherSecond :: otherParts := by
  refine ⟨⟨encodable_of_roundTrips, roundTrips_of_encodable valid⟩, ?_⟩
  intro otherFirst otherSecond otherParts otherValid encodable otherEncodable same
  obtain ⟨encoded, returned, read⟩ := roundTrips_of_encodable valid encodable
  obtain ⟨other, otherReturned, otherRead⟩ := roundTrips_of_encodable otherValid otherEncodable
  obtain rfl : encoded = other :=
    Except.ok.inj (returned.symm.trans (same.trans otherReturned))
  rw [read] at otherRead
  exact congrArg Prod.fst (Option.some.inj otherRead)

/-- 2.999 raises, and 2.100.3 is read as 2.6579. -/
theorem two_roots_lost :
    ValidOid 2 999 ∧ oid (lit "2.999") = .error .valueError ∧
    ValidOid 2 100 ∧ oid (lit "2.100.3") = .ok [0x06, 0x02, 0xB4, 0x03] ∧
    Der.objectIdentifier [0x06, 0x02, 0xB4, 0x03] = some ([2, 6579], []) ∧
    ¬ RoundTrips [2, 999] ∧ ¬ RoundTrips [2, 100, 3] := by
  refine ⟨⟨by decide, by decide⟩, by decide +kernel, ⟨by decide, by decide⟩, by decide +kernel,
    rfl, ?_, ?_⟩
  · intro trips
    exact absurd (encodable_of_roundTrips trips).sevenBits (by decide)
  · intro trips
    exact absurd (encodable_of_roundTrips trips).sevenBits (by decide)

theorem rsaEncryption_round_trips : RoundTrips [1, 2, 840, 113549, 1, 1, 1] := by
  have valid : ValidOid 1 2 := ⟨by decide, by decide⟩
  refine (oid_round_trips_iff 1 2 [840, 113549, 1, 1, 1] valid).1.mpr ⟨by decide, ?_, ?_⟩
  · decide +kernel
  · rw [parts_of_oidRsa]
    norm_num

end Excalibur.TlsInspect
