import Excalibur.Dns.Walk

/-! # Which names are read

A name in the format is read along any chain of pointers, but the guard counts pointers as
it counts labels, so it rejects the longest chains (`read_name_of_compressed`).

The bytes themselves are not checked.  A length byte with one of its two high bits set is
taken for a long label, a pointer may lead ahead, and the labels gathered along pointers are
not added up: exactly the names with one of these faults are read without being legal
(`accepts_only_legal_iff`).
-/

namespace Excalibur.Dns

open Excalibur.Library Excalibur.Python

/-! ## Names in the format -/

/-- The length of a name that is laid out without pointers. -/
def plainLength (labels : List Bytes) : Nat := (labels.map fun label => label.length + 1).sum + 1

theorem few_labels {message : Bytes} {offset hops finish : Nat} {labels : List Bytes}
    (name : CompressedName message offset labels hops finish) :
    2 * labels.length + 1 ≤ plainLength labels := by
  induction name with
  | root _ => decide
  | label sized _ _ ih =>
    simp only [plainLength, List.map_cons, List.sum_cons, List.length_cons] at ih ⊢
    omega
  | pointer _ _ _ _ ih => exact ih

/-- A name of at most 255 octets is read when its labels, its pointers and the zero byte are
    at most 128 together, as they are without pointers; with more it is rejected. -/
theorem read_name_of_compressed {message : Bytes} {offset hops finish : Nat} {labels : List Bytes}
    (name : CompressedName message offset labels hops finish) (short : plainLength labels ≤ 255) :
    (labels.length + hops + 1 ≤ 128 →
      readName message offset = .ok (joinDots (labels.map decodeAscii), finish)) ∧
    (128 < labels.length + hops + 1 → readName message offset = .error .valueError) ∧
    (hops = 0 → labels.length + hops + 1 ≤ 128) := by
  refine ⟨?_, ?_, ?_⟩
  · intro few
    exact name.readName_eq (by omega)
  · intro many
    exact name.readName_error (by omega)
  · rintro rfl
    have count := few_labels name
    omega

/-- `com` at offset 0, and `www.example` with a pointer to it. -/
def pointedMessage : Bytes :=
  bytesLit "\x03com\x00\x03www\x07example" ++ pointerTo 0

theorem www_example_com_compressed :
    CompressedName pointedMessage 5 [bytesLit "www", bytesLit "example", bytesLit "com"] 1 19 := by
  have com : CompressedName pointedMessage 0 [bytesLit "com"] 0 5 :=
    .label (by decide) (by decide) (.root (by decide))
  have pointed : CompressedName pointedMessage 17 [bytesLit "com"] 1 19 :=
    .pointer (by decide) (by decide) (by decide) com
  exact .label (by decide) (by decide) (.label (by decide) (by decide) pointed)

theorem www_example_com_read :
    readName pointedMessage 5 = .ok (lit "www.example.com", 19) := by
  have read := (read_name_of_compressed www_example_com_compressed (by decide)).1 (by decide)
  rwa [show joinDots _ = lit "www.example.com" by decide] at read

/-- The zero byte, and 128 pointers each to what stands before it. -/
def chainMessage : Bytes :=
  0 :: (List.range 128).flatMap fun k => pointerTo (2 * k - 1)

theorem chain_compressed : ∀ k < 128, CompressedName chainMessage (2 * k + 1) [] (k + 1) (2 * k + 3) := by
  have pointers : ∀ k < 128, At chainMessage (2 * k + 1) (pointerTo (2 * k - 1)) := by
    decide +kernel
  intro k
  induction k with
  | zero =>
    intro _
    exact .pointer (by decide) (by decide) (pointers 0 (by decide)) (.root (by decide +kernel))
  | succ k ih =>
    intro bound
    exact .pointer (by omega) (by omega) (pointers (k + 1) bound) (ih (by omega))

/-- The last of them has no labels and 128 pointers. -/
theorem chain_rejected : CompressedName chainMessage 255 [] 128 257 ∧ plainLength [] ≤ 255 ∧
    readName chainMessage 255 = .error .valueError :=
  ⟨chain_compressed 127 (by decide), by decide, by decide +kernel⟩

/-! ## Names outside the format -/

/-- Each pointer leads before the start of the part that it ends. -/
def LeadsBack : Nat → List Mark → Prop
  | _, [] => True
  | start, .label _ _ :: marks => LeadsBack start marks
  | start, .pointer _ target :: marks => target < start ∧ LeadsBack target marks

/-- Some pointer leads to the start of the part that it ends, or ahead of it. -/
def LeadsAhead : Nat → List Mark → Prop
  | _, [] => False
  | start, .label _ _ :: marks => LeadsAhead start marks
  | start, .pointer _ target :: marks => start ≤ target ∨ LeadsAhead target marks

theorem leadsBack_iff (start : Nat) (marks : List Mark) :
    LeadsBack start marks ↔ ¬ LeadsAhead start marks := by
  induction marks generalizing start with
  | nil => simp [LeadsBack, LeadsAhead]
  | cons mark marks ih =>
    cases mark with
    | label _ _ => exact ih start
    | pointer _ target => rw [LeadsBack, LeadsAhead, ih, not_or, not_le]

structure Legal (start : Nat) (marks : List Mark) : Prop where
  sized : ∀ offset length, .label offset length ∈ marks → 1 ≤ length ∧ length ≤ 63
  back : LeadsBack start marks
  short : octets marks ≤ 255

inductive Faulty (start : Nat) (marks : List Mark) : Prop where
  | reserved {offset length : Nat} (member : .label offset length ∈ marks) (large : 64 ≤ length)
  | ahead (ahead : LeadsAhead start marks)
  | long (long : 256 ≤ octets marks)

theorem Walk.nonzero {message : Bytes} {offset : Nat} {marks : List Mark}
    (walk : Walk message offset marks) :
    ∀ offset length, .label offset length ∈ marks → 1 ≤ length := by
  induction walk with
  | zero _ => simp
  | label _ _ nonzero _ ih =>
    intro offset length member
    obtain same | later := List.mem_cons.mp member
    · cases same
      exact Nat.pos_of_ne_zero nonzero
    · exact ih offset length later
  | pointer _ _ _ _ ih =>
    intro offset length member
    obtain same | later := List.mem_cons.mp member
    · cases same
    · exact ih offset length later

theorem legal_iff {message : Bytes} {offset : Nat} {marks : List Mark}
    (walk : Walk message offset marks) (start : Nat) : Legal start marks ↔ ¬ Faulty start marks := by
  constructor
  · rintro ⟨sized, back, short⟩ faulty
    cases faulty with
    | reserved member large =>
      have := (sized _ _ member).2
      omega
    | ahead ahead => exact (leadsBack_iff start marks).mp back ahead
    | long long => omega
  · intro sound
    refine ⟨?_, ?_, ?_⟩
    · intro offset length member
      refine ⟨walk.nonzero offset length member, ?_⟩
      by_contra large
      exact sound (.reserved member (by omega))
    · exact (leadsBack_iff start marks).mpr fun ahead => sound (.ahead ahead)
    · by_contra long
      exact sound (.long (by omega))

/-- What is read is legal exactly when no fault stands in a name that ends within the 128
    length bytes that are looked at. -/
theorem accepts_only_legal_iff (message : Bytes) (offset : Nat) :
    (∀ result, readName message offset = .ok result →
        ∃ marks, Walk message offset marks ∧ Legal offset marks) ↔
      ¬ ∃ marks, Walk message offset marks ∧ marks.length + 1 ≤ 128 ∧ Faulty offset marks := by
  constructor
  · rintro legal ⟨marks, walk, few, faulty⟩
    have read := readName_of_walk walk
    rw [if_pos (by omega)] at read
    obtain ⟨others, other, sound⟩ := legal _ read
    obtain rfl := walk.unique other
    exact (legal_iff walk offset).mp sound faulty
  · intro sound result read
    obtain ⟨marks, walk, few⟩ := walk_of_readName read
    refine ⟨marks, walk, (legal_iff walk offset).mpr ?_⟩
    intro faulty
    exact sound ⟨marks, walk, few, faulty⟩

/-- One label of 64 bytes. -/
def reservedMessage : Bytes := 64 :: List.replicate 64 97 ++ [0]

/-- A pointer to the zero byte behind it. -/
def aheadMessage : Bytes := pointerTo 2 ++ [0]

theorem illegal_names_read :
    (readName reservedMessage 0 = .ok (List.replicate 64 'a', 66) ∧
      ¬ ∃ marks, Walk reservedMessage 0 marks ∧ Legal 0 marks) ∧
    readName aheadMessage 0 = .ok ([], 2) ∧
      ¬ ∃ marks, Walk aheadMessage 0 marks ∧ Legal 0 marks := by
  have reserved : Walk reservedMessage 0 [.label 0 64] :=
    .label (by decide) (by decide) (by decide) (.zero (by decide))
  have ahead : Walk aheadMessage 0 [.pointer 0 2] := by
    have followed : Walk aheadMessage (((192 &&& 0x3F) <<< 8) ||| 2) [] := .zero (by decide)
    exact .pointer (by decide) (by decide) (by decide) followed
  refine ⟨⟨by decide +kernel, ?_⟩, by decide +kernel, ?_⟩
  · rintro ⟨marks, walk, legal⟩
    obtain rfl := walk.unique reserved
    exact (legal_iff walk 0).mp legal (.reserved (List.mem_singleton.mpr rfl) le_rfl)
  · rintro ⟨marks, walk, legal⟩
    obtain rfl := walk.unique ahead
    exact (legal_iff walk 0).mp legal (.ahead (.inl (Nat.zero_le 2)))

end Excalibur.Dns
