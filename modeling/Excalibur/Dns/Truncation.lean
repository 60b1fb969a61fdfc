import Excalibur.Dns.Walk

/-! # Truncated messages

Reading a name or the fixed fields of a record past the end of the message
raises, but skipping the type and class of a question does not look at them, and
the slice for RDATA comes out shorter without notice.  The entry behind would
notice, so exactly the last counted entry can be cut short: `accepted_whole_iff`.
-/

namespace Excalibur.Dns

open Excalibur.Library Excalibur.Python

/-! ## Where the entries end -/

def questionEnd (message : Bytes) (offset : Nat) : Except PyError Nat := do
  let (_, offset) ← readName message offset
  return offset + 4

/-- The end of a record: its name, ten fixed bytes and `rdlength` bytes of RDATA. -/
def recordEnd (message : Bytes) (offset : Nat) : Except PyError Nat := do
  let (_, offset) ← readName message offset
  let fixed ← unpackFixed (slice message offset 10)
  return offset + 10 + fixed.rdlength

/-- The ends of `count` entries, the first of them at `offset`. -/
def ends (entryEnd : Nat → Except PyError Nat) : Nat → Nat → Except PyError (List Nat)
  | 0, _ => .ok []
  | count + 1, offset => do
    let finish ← entryEnd offset
    let rest ← ends entryEnd count finish
    return finish :: rest

def entryEnds (message : Bytes) : Except PyError (List Nat) := do
  let header ← unpackHeader (message.take 12)
  let questions ← ends (questionEnd message) header.qd 12
  let records ← ends (recordEnd message) header.an (questions.getLastD 12)
  return questions ++ records

/-- What is accepted is whole: the counted entries lie inside the message and
    every address is built from four octets. -/
def AcceptedWhole (message : Bytes) : Prop :=
  ∀ response, parseResponse message = .ok response →
    (∃ finishes, entryEnds message = .ok finishes ∧ ∀ finish ∈ finishes, finish ≤ message.length) ∧
      ∀ answer ∈ response.answers, ∀ text, answer.value = some text →
        ∃ octets : Bytes, octets.length = 4 ∧ text = dotted octets

/-- The names and fixed fields of all counted entries can be read, and the
    message stops inside the last entry: in the type and class of the last
    question when no record is counted, or in the RDATA of the last record. -/
def LastEntryCut (message : Bytes) : Prop :=
  ∃ finishes last, entryEnds message = .ok finishes ∧ finishes.getLast? = some last ∧
    message.length < last

/-! ## Reads that raise -/

/-- A name that has been read lies inside the message, and so does its end. -/
theorem readName_inside {message : Bytes} {offset finish : Nat} {name : Str}
    (read : readName message offset = .ok (name, finish)) :
    offset < message.length ∧ finish ≤ message.length := by
  obtain ⟨marks, walk, few⟩ := walk_of_readName read
  rw [readName_of_walk walk, if_pos few] at read
  cases read
  exact ⟨walk.inside.1, walk.inside.2.2⟩

/-! ## The sections -/

theorem skipQuestions_eq_ok {message : Bytes} {count offset finish : Nat} :
    skipQuestions message count offset = .ok finish ↔
      ∃ finishes, ends (questionEnd message) count offset = .ok finishes ∧
        finishes.getLastD offset = finish := by
  induction count generalizing offset with
  | zero => simp [skipQuestions, ends]
  | succ count ih =>
    simp only [skipQuestions, ends, questionEnd, bind_eq_ok, pure, Except.pure, Except.ok.injEq]
    constructor
    · rintro ⟨⟨name, middle⟩, read, rest⟩
      obtain ⟨finishes, ended, last⟩ := ih.mp rest
      exact ⟨_, ⟨_, ⟨_, read, rfl⟩, _, ended, rfl⟩, by rw [List.getLastD_cons, last]⟩
    · rintro ⟨_, ⟨_, ⟨⟨name, middle⟩, read, rfl⟩, finishes, ended, rfl⟩, last⟩
      rw [List.getLastD_cons] at last
      exact ⟨⟨name, middle⟩, read, ih.mpr ⟨finishes, ended, last⟩⟩

theorem recordEnd_eq_ok {message : Bytes} {offset finish : Nat} :
    recordEnd message offset = .ok finish ↔
      ∃ answer, readAnswer message offset = .ok (answer, finish) := by
  simp only [recordEnd, readAnswer, bind_eq_ok, pure, Except.pure, Except.ok.injEq, Prod.mk.injEq]
  constructor
  · rintro ⟨⟨name, middle⟩, read, fixed, unpacked, rfl⟩
    exact ⟨_, _, read, _, unpacked, rfl, rfl⟩
  · rintro ⟨_, ⟨name, middle⟩, read, fixed, unpacked, -, rfl⟩
    exact ⟨_, read, _, unpacked, rfl⟩

theorem readAnswers_of_ends {message : Bytes} {count offset : Nat} {finishes : List Nat}
    (ended : ends (recordEnd message) count offset = .ok finishes) :
    ∃ answers, readAnswers message count offset = .ok answers := by
  induction count generalizing offset finishes with
  | zero => exact ⟨[], rfl⟩
  | succ count ih =>
    simp only [ends, bind_eq_ok] at ended
    obtain ⟨finish, first, rest, remaining, -⟩ := ended
    obtain ⟨answer, read⟩ := recordEnd_eq_ok.mp first
    obtain ⟨answers, others⟩ := ih remaining
    exact ⟨answer :: answers, bind_eq_ok.mpr ⟨_, read, bind_eq_ok.mpr ⟨_, others, rfl⟩⟩⟩

theorem ends_of_readAnswers {message : Bytes} {count offset : Nat} {answers : List Answer}
    (read : readAnswers message count offset = .ok answers) :
    ∃ finishes, ends (recordEnd message) count offset = .ok finishes ∧
      ∀ answer ∈ answers, ∃ start, ∃ finish ∈ finishes,
        readAnswer message start = .ok (answer, finish) := by
  induction count generalizing offset answers with
  | zero =>
    cases read
    exact ⟨[], rfl, by simp⟩
  | succ count ih =>
    simp only [readAnswers, bind_eq_ok] at read
    obtain ⟨⟨answer, finish⟩, first, others, remaining, listed⟩ := read
    obtain ⟨finishes, ended, each⟩ := ih remaining
    cases listed
    refine ⟨finish :: finishes, ?_, ?_⟩
    · exact bind_eq_ok.mpr ⟨_, recordEnd_eq_ok.mpr ⟨answer, first⟩, bind_eq_ok.mpr ⟨_, ended, rfl⟩⟩
    · intro other member
      rcases List.mem_cons.mp member with rfl | later
      · exact ⟨offset, finish, by simp, first⟩
      · obtain ⟨start, stop, inside, readOther⟩ := each other later
        exact ⟨start, stop, by simp [inside], readOther⟩

/-- Behind an end that is not the last, another entry has been read. -/
theorem ends_inside {entryEnd : Nat → Except PyError Nat} {limit : Nat}
    (reads : ∀ start finish, entryEnd start = .ok finish → start < limit) {count offset : Nat}
    {finishes : List Nat} (ended : ends entryEnd count offset = .ok finishes) :
    (finishes ≠ [] → offset < limit) ∧
      ∀ finish ∈ finishes, finish < limit ∨ finishes.getLast? = some finish := by
  induction count generalizing offset finishes with
  | zero =>
    cases ended
    simp
  | succ count ih =>
    simp only [ends, bind_eq_ok] at ended
    obtain ⟨first, firstEnd, rest, remaining, listed⟩ := ended
    cases listed
    obtain ⟨next, later⟩ := ih remaining
    refine ⟨fun _ => reads _ _ firstEnd, fun finish member => ?_⟩
    -- An end is the last one, or an entry was read from it.
    cases rest with
    | nil =>
      right
      simpa [eq_comm] using member
    | cons second rest =>
      rcases List.mem_cons.mp member with rfl | inRest
      · exact .inl (next (by simp))
      · rw [List.getLast?_cons_cons]
        exact later finish inRest

theorem questionEnd_reads {message : Bytes} {start finish : Nat}
    (ended : questionEnd message start = .ok finish) : start < message.length := by
  obtain ⟨⟨name, middle⟩, read, -⟩ := bind_eq_ok.mp ended
  exact (readName_inside read).1

theorem recordEnd_reads {message : Bytes} {start finish : Nat}
    (ended : recordEnd message start = .ok finish) : start < message.length := by
  obtain ⟨⟨name, middle⟩, read, -⟩ := bind_eq_ok.mp ended
  exact (readName_inside read).1

/-! ## Whole messages -/

theorem parseResponse_returns_iff {message : Bytes} :
    (∃ response, parseResponse message = .ok response) ↔
      ∃ finishes, entryEnds message = .ok finishes := by
  simp only [parseResponse, entryEnds, bind_eq_ok, pure, Except.pure, Except.ok.injEq]
  constructor
  · rintro ⟨_, header, unpacked, offset, skipped, answers, read, -⟩
    obtain ⟨questions, ended, rfl⟩ := skipQuestions_eq_ok.mp skipped
    obtain ⟨records, recordsEnded, -⟩ := ends_of_readAnswers read
    exact ⟨_, header, unpacked, questions, ended, records, recordsEnded, rfl⟩
  · rintro ⟨_, header, unpacked, questions, ended, records, recordsEnded, -⟩
    obtain ⟨answers, read⟩ := readAnswers_of_ends recordsEnded
    exact ⟨_, header, unpacked, _, skipQuestions_eq_ok.mpr ⟨_, ended, rfl⟩, answers, read, rfl⟩

theorem entryEnds_inside {message : Bytes} {finishes : List Nat}
    (ended : entryEnds message = .ok finishes) :
    ∀ finish ∈ finishes, finish < message.length ∨ finishes.getLast? = some finish := by
  simp only [entryEnds, bind_eq_ok, pure, Except.pure, Except.ok.injEq] at ended
  obtain ⟨header, -, questions, questionsEnded, records, recordsEnded, rfl⟩ := ended
  obtain ⟨-, questionsInside⟩ := ends_inside (fun _ _ => questionEnd_reads) questionsEnded
  obtain ⟨recordsStart, recordsInside⟩ := ends_inside (fun _ _ => recordEnd_reads) recordsEnded
  intro finish member
  cases List.mem_append.mp member with
  | inl inQuestions =>
    cases questionsInside finish inQuestions with
    | inl inside => exact .inl inside
    | inr last =>
      -- The last question can only be cut short when no record follows it.
      cases records with
      | nil =>
        right
        simpa using last
      | cons record records =>
        left
        have start := recordsStart (by simp)
        rwa [List.getLastD_eq_getLast?, last] at start
  | inr inRecords =>
    cases recordsInside finish inRecords with
    | inl inside => exact .inl inside
    | inr last =>
      right
      simp [List.getLast?_append, last]

theorem readAnswer_value {message : Bytes} {start finish : Nat} {answer : Answer} {text : Str}
    (read : readAnswer message start = .ok (answer, finish)) (inside : finish ≤ message.length)
    (reported : answer.value = some text) :
    ∃ octets : Bytes, octets.length = 4 ∧ text = dotted octets := by
  simp only [readAnswer, bind_eq_ok, pure, Except.pure, Except.ok.injEq, Prod.mk.injEq] at read
  obtain ⟨⟨name, middle⟩, -, fixed, -, rfl, rfl⟩ := read
  simp only at reported inside
  split at reported
  · rename_i address
    simp only [Option.some.injEq] at reported
    refine ⟨_, ?_, reported.symm⟩
    -- The slice is whole because the record ends inside the message.
    simp only [slice, List.length_take, List.length_drop]
    omega
  · contradiction

/-- What is accepted is whole except when the message stops inside its last entry. -/
theorem accepted_whole_iff (message : Bytes) : AcceptedWhole message ↔ ¬ LastEntryCut message := by
  constructor
  · rintro whole ⟨finishes, last, ended, isLast, cut⟩
    obtain ⟨response, returned⟩ := parseResponse_returns_iff.mpr ⟨finishes, ended⟩
    obtain ⟨⟨same, endedAgain, inside⟩, -⟩ := whole response returned
    cases ended.symm.trans endedAgain
    exact absurd (inside last (List.mem_of_getLast? isLast)) (not_le.mpr cut)
  · intro uncut response returned
    obtain ⟨finishes, ended⟩ := parseResponse_returns_iff.mp ⟨response, returned⟩
    have inside : ∀ finish ∈ finishes, finish ≤ message.length := by
      intro finish member
      cases entryEnds_inside ended finish member with
      | inl strictly => exact le_of_lt strictly
      | inr last => exact not_lt.mp fun cut => uncut ⟨finishes, finish, ended, last, cut⟩
    refine ⟨⟨finishes, ended, inside⟩, fun answer member text reported => ?_⟩
    simp only [entryEnds, parseResponse, bind_eq_ok, pure, Except.pure, Except.ok.injEq] at ended returned
    -- The ends and the answers come from one pass, so every answer has its end among them.
    obtain ⟨header, unpacked, offset, skipped, answers, read, rfl⟩ := returned
    obtain ⟨header', unpacked', questions, questionsEnded, records, recordsEnded, rfl⟩ := ended
    cases unpacked.symm.trans unpacked'
    obtain ⟨questions', questionsEnded', rfl⟩ := skipQuestions_eq_ok.mp skipped
    cases questionsEnded.symm.trans questionsEnded'
    obtain ⟨records', recordsEnded', each⟩ := ends_of_readAnswers read
    cases recordsEnded.symm.trans recordsEnded'
    obtain ⟨start, finish, inRecords, readOne⟩ := each answer member
    exact readAnswer_value readOne (inside finish (by simp [inRecords])) reported

/-- One address record whose RDATA stops after two of its four octets. -/
def cutAddress : Bytes :=
  [0x12, 0x34, 0x81, 0x80, 0, 0, 0, 1, 0, 0, 0, 0] ++ [0, 0, 1, 0, 1, 0, 0, 1, 44, 0, 4, 93, 184]

/-- The parser reports the two octets as an address. -/
theorem cutAddress_accepted :
    parseResponse cutAddress = .ok ⟨0x1234, 0, 0, 1, [⟨[], 1, 1, 300, some (lit "93.184")⟩]⟩ ∧
      ¬ AcceptedWhole cutAddress := by
  have returned :
      parseResponse cutAddress = .ok ⟨0x1234, 0, 0, 1, [⟨[], 1, 1, 300, some (lit "93.184")⟩]⟩ := by
    decide +kernel
  refine ⟨returned, fun whole => ?_⟩
  obtain ⟨⟨finishes, ended, inside⟩, -⟩ := whole _ returned
  have outside : entryEnds cutAddress = .ok [27] := by decide +kernel
  cases ended.symm.trans outside
  exact absurd (inside 27 (by simp)) (by decide)

end Excalibur.Dns
