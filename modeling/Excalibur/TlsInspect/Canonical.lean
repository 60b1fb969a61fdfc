import Excalibur.TlsInspect.Encoding

/-! # The encoder's primitives are canonical

Among all encodings of the same number, `_der_int` and `_der_len` choose the shortest, and
there is only one of that length.  What `_der` returns is read without knowing where it
ends, so none of its results begins with another.
-/

namespace Excalibur.TlsInspect

open Excalibur.Library Excalibur.Python

/-! ## Lengths -/

/-- No definite form of the length is shorter, and no other one as short. -/
theorem derLen_least {n : Nat} (small : n < 256 ^ 126) :
    ∃ form, derLen n = .ok form ∧ Der.length form = some (n, []) ∧
      ∀ other, Der.definiteLength other = some (n, []) →
        form.length ≤ other.length ∧ (other.length = form.length → other = form) := by
  obtain ⟨form, returned, -, reads⟩ := encodes_derLen small
  refine ⟨form, returned, by simpa using reads [], fun other read => ?_⟩
  by_cases short : n < 0x80
  · rw [derLen_short short] at returned
    cases returned
    rcases Der.definiteLength_eq_some read with ⟨-, rfl⟩ | ⟨count, some, -, rfl⟩
    · exact ⟨le_rfl, fun _ => rfl⟩
    · simp
      omega
  · have few : byteLength n < 0x7F := Nat.lt_succ_of_le (byteLength_le_of_lt small)
    rw [derLen_long short few] at returned
    cases returned
    rcases Der.definiteLength_eq_some read with ⟨single, -⟩ | ⟨count, -, fits, rfl⟩
    · exact absurd single short
    -- Another long form has at least as many octets, and as many only if it is this one.
    · have enough := byteLength_le_of_lt fits
      simp only [List.length_cons, List.length_append, List.length_nil, length_bigEndian]
      refine ⟨by omega, fun same => ?_⟩
      obtain rfl : count = byteLength n := by omega
      rw [List.append_nil]

/-! ## Integers -/

/-- The bytes of an integer are its shortest two's complement, and the only one so short. -/
theorem derInt_least (x : Nat) :
    ∃ contents, derInt x = der 0x02 contents ∧ contents ≠ [] ∧ Der.minimal contents = true ∧
      Der.twosComplement contents = x ∧
      ∀ other, other ≠ [] → Der.twosComplement other = x →
        contents.length ≤ other.length ∧ (other.length = contents.length → other = contents) := by
  obtain ⟨contents, encoder, length, minimal, value⟩ := derInt_contents x
  refine ⟨contents, encoder, ?_, minimal, value, fun other nonempty read => ⟨?_, fun same => ?_⟩⟩
  · rintro rfl
    simp at length
  · obtain ⟨first, rest, rfl⟩ := List.exists_cons_of_ne_nil nonempty
    have fits : x < 2 ^ (8 * rest.length + 7) := by
      rw [pow_add, two_pow_eight_mul, Nat.mul_comm]
      exact Der.lt_of_twosComplement read
    have bits := bitLength_le_of_lt fits
    rw [length, List.length_cons]
    omega
  · rw [Der.eq_bigEndian_of_twosComplement read, same, ← Der.eq_bigEndian_of_twosComplement value]

/-! ## Elements -/

theorem starts_with_tag {tag : UInt8} {body out : Bytes} (encoded : der tag body = .ok out) :
    out.head? = some tag := by
  obtain ⟨size, -, returned⟩ := bind_eq_ok.mp encoded
  cases returned
  rfl

theorem der_prefix_free {tag tag' : UInt8} {body body' out out' : Bytes}
    (small : body.length < 256 ^ 126) (small' : body'.length < 256 ^ 126)
    (encoded : der tag body = .ok out) (encoded' : der tag' body' = .ok out')
    (starts : out <+: out') : out = out' := by
  obtain ⟨_, returned, -, reads⟩ := encodes_der tag small
  obtain ⟨_, returned', -, reads'⟩ := encodes_der tag' small'
  cases encoded.symm.trans returned
  cases encoded'.symm.trans returned'
  obtain rfl : tag = tag' := by
    obtain ⟨rest, rfl⟩ := starts
    have first := starts_with_tag encoded'
    rw [List.head?_append_of_ne_nil, starts_with_tag encoded] at first
    · exact Option.some.inj first
    · rintro rfl
      cases starts_with_tag encoded
  exact reads.eq_of_isPrefix reads' starts

/-- Every number has the shortest contents, every length the shortest form, and the elements
    that hold them can be told apart without their ends. -/
theorem der_primitives_canonical :
    (∀ x : Nat, ∃ contents, derInt x = der 0x02 contents ∧ contents ≠ [] ∧
      Der.twosComplement contents = x ∧ (contents.headD 0).toNat < 0x80 ∧
      (∀ second rest, contents = 0 :: second :: rest → 0x80 ≤ second.toNat) ∧
      ∀ other, other ≠ [] → Der.twosComplement other = x →
        contents.length ≤ other.length ∧ (other.length = contents.length → other = contents)) ∧
    (∀ n : Nat, n < 256 ^ 126 → ∃ form, derLen n = .ok form ∧ Der.length form = some (n, []) ∧
      ∀ other, Der.definiteLength other = some (n, []) →
        form.length ≤ other.length ∧ (other.length = form.length → other = form)) ∧
    ∀ (tag tag' : UInt8) (body body' out out' : Bytes), body.length < 256 ^ 126 →
      body'.length < 256 ^ 126 → der tag body = .ok out → der tag' body' = .ok out' →
      out <+: out' → out = out' := by
  refine ⟨fun x => ?_, fun n => derLen_least, fun _ _ _ _ _ _ => der_prefix_free⟩
  obtain ⟨contents, encoder, nonempty, minimal, value, least⟩ := derInt_least x
  refine ⟨contents, encoder, nonempty, value, (Der.twosComplement_eq_natCast value).1, ?_, least⟩
  rintro second rest rfl
  by_contra low
  simp [Der.minimal, not_le.mp low] at minimal

end Excalibur.TlsInspect
