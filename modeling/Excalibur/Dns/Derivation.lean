import Excalibur.Dns.Walk

/-! # What `read_name` returns, by rounds of its loop

The loop as it is written jumps in both directions and could go on for ever between two
pointers; its guard is counted up, and raises in the round after the 128th.  `rounds` runs
it, and `rounds_eq` says that it has stopped after 129 rounds with what `readName` returns.

A slice past the end of the message raises nothing, but then the next round does: labels
that are returned lie inside the message (`Walk.spelled`).
-/

namespace Excalibur.Dns

open Excalibur.Library Excalibur.Python

/-! ## The loop -/

/-- The local variables of `read_name`. -/
structure LoopState where
  labels : List Str
  jumped : Bool
  afterPointer : Nat
  guard : Nat
  offset : Nat

def LoopState.start (offset : Nat) : LoopState :=
  { labels := [], jumped := false, afterPointer := offset, guard := 0, offset := offset }

/-- One round: the variables for the next one, or what is returned. -/
def round (message : Bytes) (s : LoopState) : Except PyError (LoopState ⊕ (Str × Nat)) :=
  let guard := s.guard + 1
  if 128 < guard then .error .valueError
  else do
    let length ← byteAt message s.offset
    if length &&& 0xC0 = 0xC0 then
      let low ← byteAt message (s.offset + 1)
      let pointer := ((length &&& 0x3F) <<< 8) ||| low
      let afterPointer := if s.jumped then s.afterPointer else s.offset + 2
      return .inl
        { s with jumped := true, afterPointer := afterPointer, guard := guard, offset := pointer }
    else if length = 0 then
      let offset := s.offset + 1
      let afterPointer := if s.jumped then s.afterPointer else offset
      return .inr (joinDots s.labels, afterPointer)
    else
      let offset := s.offset + 1
      let labels := s.labels ++ [decodeAscii (slice message offset length)]
      return .inl { s with labels := labels, guard := guard, offset := offset + length }

/-- `none` when the loop is still running after that many rounds. -/
def rounds (message : Bytes) : Nat → LoopState → Option (Except PyError (Str × Nat))
  | 0, _ => none
  | count + 1, s =>
    match round message s with
    | .error e => some (.error e)
    | .ok (.inr result) => some (.ok result)
    | .ok (.inl next) => rounds message count next

theorem rounds_eq {message : Bytes} {s : LoopState} {steps count : Nat}
    (left : s.guard + steps = 128) (enough : steps < count) :
    rounds message count s =
      some (readNameLoop message steps s.labels s.jumped s.afterPointer s.offset) := by
  obtain ⟨count, rfl⟩ : ∃ more, count = more + 1 := ⟨count - 1, by omega⟩
  -- `steps` is how many rounds the guard still lets pass.
  induction steps generalizing s count with
  | zero =>
    have struck : 128 < s.guard + 1 := by omega
    rw [rounds, round, if_pos struck, readNameLoop]
  | succ steps ih =>
    have passes : ¬ 128 < s.guard + 1 := by omega
    obtain ⟨count, rfl⟩ : ∃ more, count = more + 1 := ⟨count - 1, by omega⟩
    rw [rounds, round, if_neg passes, readNameLoop]
    cases byteAt message s.offset with
    | error e => rfl
    | ok length =>
      simp only [bind, Except.bind]
      by_cases marked : length &&& 0xC0 = 0xC0
      · simp only [if_pos marked]
        cases byteAt message (s.offset + 1) with
        | error e => rfl
        | ok low => exact ih (by simp only; omega) count (by omega)
      · simp only [if_neg marked]
        by_cases zero : length = 0
        · simp only [if_pos zero]
          rfl
        · simp only [if_neg zero]
          exact ih (by simp only; omega) count (by omega)

/-! ## Names as they are followed -/

/-- The labels of the name at an offset, and the position behind its zero byte or its first
    pointer. -/
inductive Spelled (message : Bytes) : Nat → List Bytes → Nat → Prop where
  | zero {offset : Nat} (read : byteAt message offset = .ok 0) :
      Spelled message offset [] (offset + 1)
  | label {offset n finish : Nat} {labels : List Bytes} (read : byteAt message offset = .ok n)
      (unmarked : n &&& 0xC0 ≠ 0xC0) (nonzero : n ≠ 0) (inside : offset + 1 + n ≤ message.length)
      (rest : Spelled message (offset + 1 + n) labels finish) :
      Spelled message offset (slice message (offset + 1) n :: labels) finish
  | pointer {offset high low finish : Nat} {labels : List Bytes}
      (read : byteAt message offset = .ok high) (marked : high &&& 0xC0 = 0xC0)
      (readLow : byteAt message (offset + 1) = .ok low)
      (rest : Spelled message (((high &&& 0x3F) <<< 8) ||| low) labels finish) :
      Spelled message offset labels (offset + 2)

theorem Walk.spelled {message : Bytes} {offset : Nat} {marks : List Mark}
    (walk : Walk message offset marks) :
    ∃ labels, Spelled message offset labels (behind offset marks) ∧
      labels.map decodeAscii = labelsOf message marks := by
  induction walk with
  | zero read => exact ⟨[], .zero read, rfl⟩
  | label read unmarked nonzero rest ih =>
    obtain ⟨labels, spelled, decoded⟩ := ih
    have inside := rest.inside.1.le
    refine ⟨_, .label read unmarked nonzero inside spelled, ?_⟩
    rw [List.map_cons, decoded, labelsOf]
  | pointer read marked readLow _ ih =>
    obtain ⟨labels, spelled, decoded⟩ := ih
    exact ⟨labels, .pointer read marked readLow spelled, decoded⟩

/-- The loop stops on every message, and what it returns has been followed to the zero byte. -/
theorem read_name_spelled (message : Bytes) (offset : Nat) :
    (∀ count, 129 ≤ count → rounds message count (.start offset) = some (readName message offset)) ∧
    ∀ name finish, readName message offset = .ok (name, finish) →
      ∃ labels, Spelled message offset labels finish ∧ name = joinDots (labels.map decodeAscii) := by
  constructor
  · intro count enough
    exact rounds_eq (s := .start offset) rfl enough
  · intro name finish read
    obtain ⟨marks, walk, few⟩ := walk_of_readName read
    rw [readName_of_walk walk, if_pos few] at read
    cases read
    obtain ⟨labels, spelled, decoded⟩ := walk.spelled
    exact ⟨labels, spelled, by rw [decoded]⟩

/-- `com` at offset 0 and a label before a pointer to it; behind that, a pointer to itself. -/
def loopingMessage : Bytes := bytesLit "\x03com\x00\x02ab" ++ pointerTo 0 ++ pointerTo 10

theorem pointer_to_itself_stops :
    rounds loopingMessage 129 (.start 10) = some (.error .valueError) ∧
    readName loopingMessage 5 = .ok (lit "ab.com", 10) ∧
      ∃ labels, Spelled loopingMessage 5 labels 10 ∧
        lit "ab.com" = joinDots (labels.map decodeAscii) := by
  have read : readName loopingMessage 5 = .ok (lit "ab.com", 10) := by decide +kernel
  refine ⟨?_, read, (read_name_spelled loopingMessage 5).2 _ _ read⟩
  rw [(read_name_spelled loopingMessage 10).1 129 le_rfl]
  decide +kernel

end Excalibur.Dns
