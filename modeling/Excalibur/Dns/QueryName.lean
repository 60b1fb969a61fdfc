import Excalibur.Dns.Decoding

/-! # Names that decode back

`encode_qname` writes whatever length fits into a byte.  A label of 64 bytes or more has a
length byte that the format reserves, from 192 on one that a reader takes for a pointer, and
the octets are never counted.  The layout is injective (`wire_injective`), so an output with
such a label has no legal reading at all.
-/

namespace Excalibur.Dns

open Excalibur.Library Excalibur.Python

/-- The parts between the dots that are not empty. -/
def nameLabels (name : Str) : List Str := (name.splitOn '.').filter (· ≠ [])

/-- Labels with their length bytes, and the zero byte. -/
def wire (labels : List Bytes) : Bytes :=
  labels.flatMap (fun label => UInt8.ofNat label.length :: label) ++ [0]

def LegalQname (bytes : Bytes) : Prop :=
  ∃ labels : List Bytes, bytes = wire labels ∧
    (∀ label ∈ labels, 1 ≤ label.length ∧ label.length ≤ 63) ∧ bytes.length ≤ 255

/-- Whatever is emitted is legal and read back wherever it stands in a message. -/
def DecodesBack (name : Str) : Prop :=
  ∀ bytes, encodeQname name = .ok bytes → LegalQname bytes ∧
    ∀ message offset, At message offset bytes →
      readName message offset = .ok (joinDots (nameLabels name), offset + bytes.length)

/-- Some label is not ASCII or its length does not fit into a byte. -/
def Rejected (name : Str) : Prop :=
  ∃ label ∈ nameLabels name, (∃ c ∈ label, 128 ≤ c.toNat) ∨ 256 ≤ label.length

def WithinLimits (name : Str) : Prop :=
  (∀ label ∈ nameLabels name, label.length ≤ 63) ∧
    ((nameLabels name).map fun label => label.length + 1).sum + 1 ≤ 255

/-! ## The layout -/

theorem length_wire (labels : List Bytes) :
    (wire labels).length = (labels.map fun label => label.length + 1).sum + 1 := by
  induction labels with
  | nil => rfl
  | cons label labels ih =>
    simp only [wire, List.flatMap_cons, List.append_assoc, List.cons_append, List.length_cons,
      List.length_append, List.map_cons, List.sum_cons] at ih ⊢
    omega

theorem wire_cons (label : Bytes) (labels : List Bytes) :
    wire (label :: labels) = UInt8.ofNat label.length :: (label ++ wire labels) := by
  simp [wire]

theorem ofNat_ne_zero {n : Nat} (sized : 1 ≤ n ∧ n < 256) : UInt8.ofNat n ≠ 0 := by
  intro zero
  have value := congrArg UInt8.toNat zero
  rw [UInt8.toNat_ofNat', Nat.mod_eq_of_lt sized.2] at value
  exact absurd value (Nat.ne_of_gt sized.1)

/-- Labels whose lengths fit into a byte can be told from their layout. -/
theorem wire_injective {first second : List Bytes}
    (sized : ∀ label ∈ first, 1 ≤ label.length ∧ label.length < 256)
    (sized' : ∀ label ∈ second, 1 ≤ label.length ∧ label.length < 256)
    (same : wire first = wire second) : first = second := by
  induction first generalizing second with
  | nil =>
    cases second with
    | nil => rfl
    | cons label second =>
      rw [wire_cons] at same
      exact absurd (List.cons.inj same).1.symm (ofNat_ne_zero (sized' label (by simp)))
  | cons label first ih =>
    cases second with
    | nil =>
      rw [wire_cons] at same
      exact absurd (List.cons.inj same).1 (ofNat_ne_zero (sized label (by simp)))
    | cons other second =>
      rw [wire_cons, wire_cons] at same
      obtain ⟨lengthBytes, behind⟩ := List.cons.inj same
      -- Equal length bytes mean equal lengths, so both labels end at the same place.
      have lengths := congrArg UInt8.toNat lengthBytes
      rw [UInt8.toNat_ofNat', UInt8.toNat_ofNat', Nat.mod_eq_of_lt (sized label (by simp)).2,
        Nat.mod_eq_of_lt (sized' other (by simp)).2] at lengths
      obtain ⟨rfl, others⟩ := List.append_inj behind lengths
      rw [ih (fun l member => sized l (by simp [member]))
        (fun l member => sized' l (by simp [member])) others]

/-! ## What is emitted -/

theorem encodeLabels_filter (labels : List Str) :
    encodeLabels (labels.filter (· ≠ [])) = encodeLabels labels := by
  induction labels with
  | nil => rfl
  | cons label labels ih =>
    by_cases empty : label = []
    · rw [List.filter_cons_of_neg (by simp [empty]), ih, encodeLabels, if_pos empty]
    · rw [List.filter_cons_of_pos (by simp [empty]), encodeLabels, encodeLabels, ih]

theorem encodeQname_eq (name : Str) :
    encodeQname name = do
      let out ← encodeLabels (nameLabels name)
      return out ++ [0] := by
  rw [nameLabels, encodeLabels_filter, encodeQname]

theorem nonempty_of_mem_nameLabels {name label : Str} (member : label ∈ nameLabels name) :
    1 ≤ label.length := by
  have proper := (List.mem_filter.mp member).2
  exact List.length_pos_iff.mpr (of_decide_eq_true proper)

section Encoded

variable {labels : List Str} {bytes : Bytes}

theorem isAscii_of_encodeAscii {text : Str} (encoded : encodeAscii text = .ok bytes) :
    ∀ c ∈ text, c.toNat < 128 := by
  rw [encodeAscii] at encoded
  split at encoded
  · rename_i ascii
    simpa using ascii
  · cases encoded

/-- Labels that are emitted are ASCII, fit into a byte and lie end to end. -/
theorem encodeLabels_emits (proper : ∀ label ∈ labels, 1 ≤ label.length)
    (encoded : encodeLabels labels = .ok bytes) :
    (∀ label ∈ labels, (∀ c ∈ label, c.toNat < 128) ∧ label.length < 256) ∧
      ∃ parts : List Bytes, bytes ++ [0] = wire parts ∧
        parts.map List.length = labels.map List.length := by
  induction labels generalizing bytes with
  | nil =>
    cases encoded
    exact ⟨by simp, [], rfl, rfl⟩
  | cons label labels ih =>
    obtain ⟨part, rest, ascii, short, remaining, rfl⟩ :=
      encodeLabels_cons (proper label (by simp)) encoded
    have length := length_encodeAscii ascii
    obtain ⟨each, parts, laid, lengths⟩ :=
      ih (fun l member => proper l (by simp [member])) remaining
    refine ⟨?_, part :: parts, ?_, ?_⟩
    · intro other member
      obtain rfl | later := List.mem_cons.mp member
      · exact ⟨isAscii_of_encodeAscii ascii, length ▸ short⟩
      · exact each other later
    · rw [wire_cons, ← laid]
      simp
    · rw [List.map_cons, List.map_cons, length, lengths]

theorem encodeLabels_returns (ascii : ∀ label ∈ labels, ∀ c ∈ label, c.toNat < 128)
    (short : ∀ label ∈ labels, label.length < 256) : ∃ bytes, encodeLabels labels = .ok bytes := by
  induction labels with
  | nil => exact ⟨[], rfl⟩
  | cons label labels ih =>
    obtain ⟨rest, remaining⟩ := ih (fun l member => ascii l (by simp [member]))
      (fun l member => short l (by simp [member]))
    by_cases empty : label = []
    · exact ⟨rest, by rw [encodeLabels, if_pos empty, remaining]⟩
    · have encoded : encodeAscii label = .ok (label.map fun c => UInt8.ofNat c.toNat) := by
        rw [encodeAscii, if_pos]
        simpa using ascii label (by simp)
      have fits : ¬ 256 ≤ (label.map fun c => UInt8.ofNat c.toNat).length := by
        rw [List.length_map]
        exact not_le.mpr (short label (by simp))
      rw [encodeLabels, if_neg empty]
      simp only [encoded, bind, Except.bind, if_neg fits, remaining, pure, Except.pure]
      exact ⟨_, rfl⟩

end Encoded

section Names

variable {name : Str} {bytes : Bytes}

theorem emitted (encoded : encodeQname name = .ok bytes) :
    ¬ Rejected name ∧ ∃ parts : List Bytes, bytes = wire parts ∧
      parts.map List.length = (nameLabels name).map List.length := by
  rw [encodeQname_eq] at encoded
  obtain ⟨labelBytes, labelwise, appended⟩ := bind_eq_ok.mp encoded
  cases appended
  obtain ⟨each, laid⟩ :=
    encodeLabels_emits (fun _ member => nonempty_of_mem_nameLabels member) labelwise
  refine ⟨?_, laid⟩
  rintro ⟨label, member, ⟨c, inLabel, large⟩ | long⟩
  · exact absurd ((each label member).1 c inLabel) (not_lt.mpr large)
  · exact absurd (each label member).2 (not_lt.mpr long)

theorem returns_of_not_rejected (accepted : ¬ Rejected name) :
    ∃ bytes, encodeQname name = .ok bytes := by
  have ascii : ∀ label ∈ nameLabels name, ∀ c ∈ label, c.toNat < 128 := by
    intro label member c inLabel
    by_contra large
    exact accepted ⟨label, member, .inl ⟨c, inLabel, not_lt.mp large⟩⟩
  have short : ∀ label ∈ nameLabels name, label.length < 256 := by
    intro label member
    by_contra long
    exact accepted ⟨label, member, .inr (not_lt.mp long)⟩
  obtain ⟨labelBytes, labelwise⟩ := encodeLabels_returns ascii short
  rw [encodeQname_eq, labelwise]
  exact ⟨_, rfl⟩

/-- The layout of an emitted name has the lengths of its labels. -/
theorem sum_lengths {parts : List Bytes}
    (lengths : parts.map List.length = (nameLabels name).map List.length) :
    (wire parts).length = ((nameLabels name).map fun label => label.length + 1).sum + 1 := by
  have sums := congrArg (fun sizes => (sizes.map (· + 1)).sum) lengths
  simp only [List.map_map] at sums
  rw [length_wire]
  exact congrArg (· + 1) sums

theorem exists_label_of_mem {parts : List Bytes}
    (lengths : parts.map List.length = (nameLabels name).map List.length) {part : Bytes}
    (member : part ∈ parts) : ∃ label ∈ nameLabels name, label.length = part.length := by
  have listed : part.length ∈ (nameLabels name).map List.length := by
    rw [← lengths]
    exact List.mem_map_of_mem member
  exact List.mem_map.mp listed

/-- Within the limits a name has at most 127 labels, so the guard does not strike. -/
theorem few_nameLabels (limits : WithinLimits name) : (nameLabels name).length ≤ 127 := by
  have each : ∀ size ∈ (nameLabels name).map fun label => label.length + 1, 2 ≤ size := by
    intro size member
    obtain ⟨label, inName, rfl⟩ := List.mem_map.mp member
    exact Nat.succ_le_succ (nonempty_of_mem_nameLabels inName)
  have bound := List.card_nsmul_le_sum _ 2 each
  have total := limits.2
  rw [List.length_map, smul_eq_mul] at bound
  omega

theorem readName_emitted (limits : WithinLimits name) (encoded : encodeQname name = .ok bytes)
    {message : Bytes} {offset : Nat} (present : At message offset bytes) :
    readName message offset = .ok (joinDots (nameLabels name), offset + bytes.length) := by
  rw [encodeQname_eq] at encoded
  obtain ⟨labelBytes, labelwise, appended⟩ := bind_eq_ok.mp encoded
  cases appended
  obtain ⟨front, ending⟩ := present.append
  have sized : ∀ label ∈ nameLabels name, 1 ≤ label.length ∧ label.length ≤ 63 :=
    fun label member => ⟨nonempty_of_mem_nameLabels member, limits.1 label member⟩
  obtain ⟨labels, spelled, compressed⟩ := CompressedName.encoded sized labelwise front (.root ending)
  rw [List.append_nil] at compressed
  have few := few_nameLabels limits
  have count := congrArg List.length spelled
  rw [List.length_map] at count
  have read := compressed.readName_eq (by omega)
  rw [read, spelled, List.length_append, Nat.add_assoc, List.length_singleton]

end Names

/-- A name decodes back exactly when a label is rejected, or no label is longer than 63 bytes
    and the whole is no longer than 255. -/
theorem encode_qname_decodes_back_iff (name : Str) :
    DecodesBack name ↔ Rejected name ∨ WithinLimits name := by
  constructor
  · intro decodes
    by_contra neither
    obtain ⟨accepted, tooLong⟩ := not_or.mp neither
    obtain ⟨bytes, encoded⟩ := returns_of_not_rejected accepted
    obtain ⟨-, parts, rfl, lengths⟩ := emitted encoded
    obtain ⟨⟨labels, same, sized, short⟩, -⟩ := decodes _ encoded
    -- The layout has one reading only, so the legal labels are the emitted ones.
    have fits : ∀ part ∈ parts, 1 ≤ part.length ∧ part.length < 256 := by
      intro part member
      obtain ⟨label, inName, length⟩ := exists_label_of_mem lengths member
      rw [← length]
      refine ⟨nonempty_of_mem_nameLabels inName, ?_⟩
      by_contra long
      exact accepted ⟨label, inName, .inr (not_lt.mp long)⟩
    obtain rfl := wire_injective fits (fun label member => by have := sized label member; omega) same
    refine tooLong ⟨?_, by rwa [sum_lengths lengths] at short⟩
    intro label member
    obtain ⟨part, inParts, length⟩ : ∃ part ∈ parts, part.length = label.length := by
      have listed : label.length ∈ parts.map List.length := by
        rw [lengths]
        exact List.mem_map_of_mem member
      exact List.mem_map.mp listed
    rw [← length]
    exact (sized part inParts).2
  · rintro (rejected | limits) bytes encoded
    · exact absurd rejected (emitted encoded).1
    · refine ⟨?_, fun _ _ present => readName_emitted limits encoded present⟩
      obtain ⟨-, parts, rfl, lengths⟩ := emitted encoded
      refine ⟨parts, rfl, ?_, by rw [sum_lengths lengths]; exact limits.2⟩
      intro part member
      obtain ⟨label, inName, length⟩ := exists_label_of_mem lengths member
      rw [← length]
      exact ⟨nonempty_of_mem_nameLabels inName, limits.1 label inName⟩

/-- A label of 192 letters starts with a byte that is read as a pointer, here into the label
    itself and from there past the end. -/
theorem long_label_read_as_pointer :
    ∃ bytes, encodeQname (List.replicate 192 'a') = .ok bytes ∧
      readName bytes 0 = .error .indexError ∧ ¬ DecodesBack (List.replicate 192 'a') := by
  have encoded : encodeQname (List.replicate 192 'a') =
      .ok (192 :: List.replicate 192 97 ++ [0]) := by
    decide +kernel
  have read : readName (192 :: List.replicate 192 97 ++ [0]) 0 = .error .indexError := by
    decide +kernel
  refine ⟨_, encoded, read, ?_⟩
  intro decodes
  obtain ⟨-, back⟩ := decodes _ encoded
  rw [back _ 0 (List.prefix_refl _)] at read
  cases read

end Excalibur.Dns
