import Excalibur.Dns.Message

/-! # What a name is read from

`read_name` goes from length byte to length byte: over a label, along a pointer, to the zero
byte.  `Walk` is that way through the message, without the guard.  `readName_of_walk` says
that the guard alone can keep a walk from being read, and `walk_of_readName` that nothing
else is ever read, so what `read_name` accepts is decided by the marks of the walk.
-/

namespace Excalibur.Dns

open Excalibur.Library Excalibur.Python

/-- A label with its length byte, or a pointer, and where it stands. -/
inductive Mark where
  | label (offset length : Nat)
  | pointer (offset target : Nat)
  deriving Repr, DecidableEq

/-- The marks between an offset and the zero byte. -/
inductive Walk (message : Bytes) : Nat → List Mark → Prop where
  | zero {offset : Nat} (read : byteAt message offset = .ok 0) : Walk message offset []
  | label {offset length : Nat} {marks : List Mark} (read : byteAt message offset = .ok length)
      (unmarked : length &&& 0xC0 ≠ 0xC0) (nonzero : length ≠ 0)
      (rest : Walk message (offset + 1 + length) marks) :
      Walk message offset (.label offset length :: marks)
  | pointer {offset high low : Nat} {marks : List Mark} (read : byteAt message offset = .ok high)
      (marked : high &&& 0xC0 = 0xC0) (readLow : byteAt message (offset + 1) = .ok low)
      (rest : Walk message (((high &&& 0x3F) <<< 8) ||| low) marks) :
      Walk message offset (.pointer offset (((high &&& 0x3F) <<< 8) ||| low) :: marks)

/-! ## What the marks make -/

def labelsOf (message : Bytes) : List Mark → List Str
  | [] => []
  | .label offset length :: marks =>
    decodeAscii (slice message (offset + 1) length) :: labelsOf message marks
  | .pointer _ _ :: marks => labelsOf message marks

/-- The offset behind the zero byte, or behind the first pointer. -/
def behind (start : Nat) : List Mark → Nat
  | [] => start + 1
  | .label offset length :: marks => behind (offset + 1 + length) marks
  | .pointer offset _ :: _ => offset + 2

/-- The length of the name when it is laid out without pointers. -/
def octets : List Mark → Nat
  | [] => 1
  | .label _ length :: marks => length + 1 + octets marks
  | .pointer _ _ :: marks => octets marks

theorem Walk.unique {message : Bytes} {offset : Nat} {marks others : List Mark}
    (walk : Walk message offset marks) (other : Walk message offset others) : marks = others := by
  -- Both walks read the same octet, and its value decides which mark follows.
  induction walk generalizing others with
  | zero read =>
    cases other with
    | zero _ => rfl
    | label read' _ nonzero _ =>
      rw [read, Except.ok.injEq] at read'
      exact absurd read'.symm nonzero
    | pointer read' marked _ _ =>
      rw [read, Except.ok.injEq] at read'
      rw [← read'] at marked
      exact absurd marked (by decide)
  | label read unmarked nonzero _ ih =>
    cases other with
    | zero read' =>
      rw [read, Except.ok.injEq] at read'
      exact absurd read' nonzero
    | label read' _ _ rest =>
      rw [read, Except.ok.injEq] at read'
      subst read'
      rw [ih rest]
    | pointer read' marked _ _ =>
      rw [read, Except.ok.injEq] at read'
      subst read'
      exact absurd marked unmarked
  | pointer read marked readLow _ ih =>
    cases other with
    | zero read' =>
      rw [read, Except.ok.injEq] at read'
      subst read'
      exact absurd marked (by decide)
    | label read' unmarked _ _ =>
      rw [read, Except.ok.injEq] at read'
      subst read'
      exact absurd marked unmarked
    | pointer read' _ readLow' rest =>
      rw [read, Except.ok.injEq] at read'
      subst read'
      rw [readLow, Except.ok.injEq] at readLow'
      subst readLow'
      rw [ih rest]

/-! ## Where a walk ends -/

theorem byteAt_eq_ok {message : Bytes} {offset n : Nat} (read : byteAt message offset = .ok n) :
    offset < message.length := by
  by_contra outside
  simp [byteAt, List.getElem?_eq_none (not_lt.mp outside)] at read

theorem Walk.inside {message : Bytes} {offset : Nat} {marks : List Mark}
    (walk : Walk message offset marks) :
    offset < message.length ∧ offset < behind offset marks ∧
      behind offset marks ≤ message.length := by
  induction walk with
  | zero read =>
    have here := byteAt_eq_ok read
    exact ⟨here, Nat.lt_succ_self _, here⟩
  | label read _ _ _ ih =>
    have here := byteAt_eq_ok read
    simp only [behind]
    omega
  | pointer read _ readLow _ _ =>
    have here := byteAt_eq_ok read
    have next := byteAt_eq_ok readLow
    simp only [behind]
    omega

/-! ## The loop goes the walk -/

section Loop

variable {message : Bytes} {offset : Nat} {marks : List Mark}

/-- Each mark and the zero byte take a round. -/
theorem readNameLoop_of_walk (walk : Walk message offset marks) (steps : Nat) (labels : List Str)
    (jumped : Bool) (afterPointer : Nat) :
    readNameLoop message steps labels jumped afterPointer offset =
      if marks.length < steps then
        .ok (joinDots (labels ++ labelsOf message marks),
          if jumped then afterPointer else behind offset marks)
      else .error .valueError := by
  -- A round is spent on each mark, so the steps run out with the marks or before them.
  induction walk generalizing steps labels jumped afterPointer with
  | zero read =>
    cases steps with
    | zero => rfl
    | succ steps => simp [readNameLoop, read, bind, Except.bind, pure, Except.pure, labelsOf, behind]
  | label read unmarked nonzero _ ih =>
    cases steps with
    | zero => rfl
    | succ steps =>
      simp only [readNameLoop, read, bind, Except.bind, if_neg unmarked, if_neg nonzero, ih,
        List.length_cons, Nat.add_lt_add_iff_right, labelsOf, behind, List.append_assoc,
        List.singleton_append]
  | pointer read marked readLow _ ih =>
    cases steps with
    | zero => rfl
    | succ steps =>
      simp only [readNameLoop, read, readLow, bind, Except.bind, if_pos marked, ih,
        List.length_cons, Nat.add_lt_add_iff_right, labelsOf, behind, if_true]

/-- What the loop answers with, it has walked to. -/
theorem walk_of_readNameLoop {steps : Nat} {labels : List Str} {jumped : Bool} {afterPointer : Nat}
    {result : Str × Nat}
    (read : readNameLoop message steps labels jumped afterPointer offset = .ok result) :
    ∃ marks, Walk message offset marks ∧ marks.length < steps := by
  induction steps generalizing labels jumped afterPointer offset with
  | zero => cases read
  | succ steps ih =>
    obtain ⟨length, readByte, read⟩ := bind_eq_ok.mp read
    split at read
    · rename_i marked
      obtain ⟨low, readLow, read⟩ := bind_eq_ok.mp read
      obtain ⟨marks, rest, fewer⟩ := ih read
      exact ⟨_, .pointer readByte marked readLow rest, Nat.succ_lt_succ fewer⟩
    · rename_i unmarked
      split at read
      · rename_i isZero
        subst isZero
        exact ⟨[], .zero readByte, Nat.succ_pos steps⟩
      · rename_i nonzero
        obtain ⟨marks, rest, fewer⟩ := ih read
        exact ⟨_, .label readByte unmarked nonzero rest, Nat.succ_lt_succ fewer⟩

theorem readName_of_walk (walk : Walk message offset marks) :
    readName message offset =
      if marks.length < 128 then
        .ok (joinDots (labelsOf message marks), behind offset marks)
      else .error .valueError := by
  have looped := readNameLoop_of_walk walk 128 [] false offset
  rwa [List.nil_append, if_neg Bool.false_ne_true] at looped

theorem walk_of_readName {result : Str × Nat} (read : readName message offset = .ok result) :
    ∃ marks, Walk message offset marks ∧ marks.length < 128 :=
  walk_of_readNameLoop read

end Loop

/-! ## Names in the format -/

def At (message : Bytes) (offset : Nat) (bytes : Bytes) : Prop := bytes <+: message.drop offset

instance (message : Bytes) (offset : Nat) (bytes : Bytes) : Decidable (At message offset bytes) :=
  inferInstanceAs (Decidable (bytes <+: message.drop offset))

def pointerTo (target : Nat) : Bytes := bigEndian 2 (0xC000 ||| target)


section Bytes

variable {message : Bytes} {offset : Nat}

theorem At.append {first second : Bytes} (present : At message offset (first ++ second)) :
    At message offset first ∧ At message (offset + first.length) second := by
  obtain ⟨rest, split⟩ := present
  refine ⟨⟨second ++ rest, by rw [← split, List.append_assoc]⟩, ⟨rest, ?_⟩⟩
  rw [← List.drop_drop, ← split, List.append_assoc, List.drop_left]

theorem At.slice_eq {bytes : Bytes} (present : At message offset bytes) :
    slice message offset bytes.length = bytes := by
  obtain ⟨rest, split⟩ := present
  rw [slice, ← split, List.take_left]

theorem At.byteAt_eq {b : UInt8} {bytes : Bytes} (present : At message offset (b :: bytes)) :
    byteAt message offset = .ok b.toNat := by
  obtain ⟨rest, split⟩ := present
  have here : message[offset]? = some b := by
    have first := congrArg (fun list => list[0]?) split
    simpa using first.symm
  simp [byteAt, here]

theorem At.tail {b : UInt8} {bytes : Bytes} (present : At message offset (b :: bytes)) :
    At message (offset + 1) bytes := by
  have appended : At message offset ([b] ++ bytes) := present
  exact appended.append.2

end Bytes

/-- A name at an offset: labels of 1 to 63 bytes, pointers that lead back, and a zero byte.
    `hops` counts the pointers, and the name's own bytes end at the last index. -/
inductive CompressedName (message : Bytes) : Nat → List Bytes → Nat → Nat → Prop where
  | root {offset : Nat} (present : At message offset [0]) :
      CompressedName message offset [] 0 (offset + 1)
  | label {offset hops finish : Nat} {bytes : Bytes} {labels : List Bytes}
      (sized : 1 ≤ bytes.length ∧ bytes.length ≤ 63)
      (present : At message offset (UInt8.ofNat bytes.length :: bytes))
      (rest : CompressedName message (offset + 1 + bytes.length) labels hops finish) :
      CompressedName message offset (bytes :: labels) hops finish
  | pointer {offset target hops finish : Nat} {labels : List Bytes} (back : target < offset)
      (small : target < 16384) (present : At message offset (pointerTo target))
      (rest : CompressedName message target labels hops finish) :
      CompressedName message offset labels (hops + 1) (offset + 2)

theorem byteAt_length {message bytes : Bytes} {offset : Nat} (sized : bytes.length ≤ 63)
    (present : At message offset (UInt8.ofNat bytes.length :: bytes)) :
    byteAt message offset = .ok bytes.length ∧ bytes.length &&& 0xC0 ≠ 0xC0 := by
  -- A length below 64 has neither of the two high bits set.
  have notPointer : ∀ n < 64, n &&& 0xC0 ≠ 0xC0 := by decide
  refine ⟨?_, notPointer _ (by omega)⟩
  rw [present.byteAt_eq, UInt8.toNat_ofNat', Nat.mod_eq_of_lt (by omega)]

/-- The two bytes of a pointer: the mark with the high bits, and the low byte. -/
theorem byteAt_pointer {message : Bytes} {offset target : Nat} (small : target < 16384)
    (present : At message offset (pointerTo target)) :
    byteAt message offset = .ok (0xC0 + target / 256) ∧
      byteAt message (offset + 1) = .ok (target % 256) := by
  have joined : 0xC000 ||| target = 0xC000 + target :=
    (Nat.shiftLeft_add_eq_or_of_lt (i := 14) small 3).symm
  have pair : pointerTo target = [UInt8.ofNat (0xC0 + target / 256), UInt8.ofNat (target % 256)] := by
    have high : (0xC000 + target) / 256 = 0xC0 + target / 256 := by omega
    have low : UInt8.ofNat (0xC000 + target) = UInt8.ofNat (target % 256) := by
      rw [← UInt8.toNat_inj, UInt8.toNat_ofNat', UInt8.toNat_ofNat']
      omega
    simp only [pointerTo, joined, bigEndian, high, low, List.nil_append, List.singleton_append]
  rw [pair] at present
  constructor
  · rw [present.byteAt_eq, UInt8.toNat_ofNat', Nat.mod_eq_of_lt (by omega)]
  · rw [present.tail.byteAt_eq, UInt8.toNat_ofNat', Nat.mod_eq_of_lt (by omega)]

/-- A name in the format is walked along its labels and pointers. -/
theorem CompressedName.walk {message : Bytes} {offset hops finish : Nat} {labels : List Bytes}
    (name : CompressedName message offset labels hops finish) :
    ∃ marks, Walk message offset marks ∧ labelsOf message marks = labels.map decodeAscii ∧
      behind offset marks = finish ∧ marks.length = labels.length + hops := by
  induction name with
  | root present => exact ⟨[], .zero present.byteAt_eq, rfl, rfl, rfl⟩
  | @label offset _ _ bytes _ sized present _ ih =>
    obtain ⟨marks, walk, spelled, ends, count⟩ := ih
    obtain ⟨read, unmarked⟩ := byteAt_length sized.2 present
    refine ⟨.label offset bytes.length :: marks, .label read unmarked (by omega) walk, ?_, ends, ?_⟩
    · rw [labelsOf, present.tail.slice_eq, spelled, List.map_cons]
    · rw [List.length_cons, List.length_cons, count]
      omega
  | @pointer offset target _ _ _ _ small present _ ih =>
    obtain ⟨marks, walk, spelled, -, count⟩ := ih
    obtain ⟨readHigh, readLow⟩ := byteAt_pointer small present
    -- The two high bits mark a pointer, and the other six start its target.
    have marked : ∀ high < 64, (0xC0 + high) &&& 0xC0 = 0xC0 ∧ (0xC0 + high) &&& 0x3F = high := by
      decide
    obtain ⟨mark, value⟩ := marked (target / 256) (by omega)
    have rebuilt : ((0xC0 + target / 256) &&& 0x3F) <<< 8 ||| target % 256 = target := by
      rw [value, ← Nat.shiftLeft_add_eq_or_of_lt (i := 8) (Nat.mod_lt _ (by decide)),
        Nat.shiftLeft_eq]
      exact Nat.div_add_mod' target 256
    rw [← rebuilt] at walk
    refine ⟨_, .pointer readHigh mark readLow walk, ?_, rfl, ?_⟩
    · rw [labelsOf, spelled]
    · rw [List.length_cons, count, Nat.add_assoc]

section Read

variable {message : Bytes} {offset hops finish : Nat} {labels : List Bytes}

theorem CompressedName.readName_eq (name : CompressedName message offset labels hops finish)
    (few : labels.length + hops < 128) :
    readName message offset = .ok (joinDots (labels.map decodeAscii), finish) := by
  obtain ⟨marks, walk, spelled, ends, count⟩ := name.walk
  rw [readName_of_walk walk, if_pos (by omega), spelled, ends]

theorem CompressedName.readName_error (name : CompressedName message offset labels hops finish)
    (many : 128 ≤ labels.length + hops) : readName message offset = .error .valueError := by
  obtain ⟨marks, walk, -, -, count⟩ := name.walk
  rw [readName_of_walk walk, if_neg (by omega)]

end Read

end Excalibur.Dns
