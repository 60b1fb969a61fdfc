import Excalibur.Dns.Walk

/-! # Parsing undoes the layout of a message

The message format is a relation between a message and what it carries: which
name, question or record is laid out at which offset, and where it ends.  A name
is laid out label by label, or as some of its labels and a pointer to the rest.
Either layout is a compressed name with fewer labels and pointers than the guard
allows, and the sections are threaded by induction.
-/

namespace Excalibur.Dns

open Excalibur.Library Excalibur.Python

/-! ## The format -/

/-- A name within the limits of the format. -/
structure LegalName where
  labels : List Str
  ascii : ∀ label ∈ labels, ∀ c ∈ label, c.toNat < 128
  dotless : ∀ label ∈ labels, '.' ∉ label
  sized : ∀ label ∈ labels, 1 ≤ label.length ∧ label.length ≤ 63
  few : labels.length ≤ 126
  octets : (labels.map fun label => label.length + 1).sum + 1 ≤ 255

def LegalName.text (name : LegalName) : Str := joinDots name.labels

structure Question where
  name : LegalName
  qtype : UInt16
  qclass : UInt16

structure Record where
  name : LegalName
  rtype : UInt16
  rclass : UInt16
  ttl : UInt32
  rdata : Bytes
  short : rdata.length < 65536

/-- The name is laid out at `offset` and its own bytes end at the last index. -/
inductive NameAt (message : Bytes) (offset : Nat) (name : LegalName) : Nat → Prop where
  | plain (bytes : Bytes) (encoded : encodeQname name.text = .ok bytes)
      (present : At message offset bytes) : NameAt message offset name (offset + bytes.length)
  | pointer (leading remaining : List Str) (split : name.labels = leading ++ remaining)
      (leadingBytes remainingBytes : Bytes) (target : Nat)
      (earlier : target < offset + leadingBytes.length) (small : target < 16384)
      (encodedLeading : encodeLabels leading = .ok leadingBytes)
      (encodedRemaining : encodeQname (joinDots remaining) = .ok remainingBytes)
      (presentRemaining : At message target remainingBytes)
      (present : At message offset (leadingBytes ++ pointerTo target)) :
      NameAt message offset name (offset + leadingBytes.length + 2)

inductive QuestionsAt (message : Bytes) : Nat → List Question → Nat → Prop where
  | nil (offset : Nat) : QuestionsAt message offset [] offset
  | cons {offset middle finish : Nat} {question : Question} {questions : List Question}
      (name : NameAt message offset question.name middle)
      (fixed : At message middle
        (bigEndian 2 question.qtype.toNat ++ bigEndian 2 question.qclass.toNat))
      (rest : QuestionsAt message (middle + 4) questions finish) :
      QuestionsAt message offset (question :: questions) finish

def Record.fixed (record : Record) : Bytes :=
  bigEndian 2 record.rtype.toNat ++ (bigEndian 2 record.rclass.toNat ++
    (bigEndian 4 record.ttl.toNat ++ bigEndian 2 record.rdata.length))

inductive RecordsAt (message : Bytes) : Nat → List Record → Nat → Prop where
  | nil (offset : Nat) : RecordsAt message offset [] offset
  | cons {offset middle finish : Nat} {record : Record} {records : List Record}
      (name : NameAt message offset record.name middle)
      (present : At message middle (record.fixed ++ record.rdata))
      (rest : RecordsAt message (middle + 10 + record.rdata.length) records finish) :
      RecordsAt message offset (record :: records) finish

/-- The message carries the header, the questions and the records; what follows
    them is not looked at. -/
structure Carries (message : Bytes) (id flags ns ar : UInt16) (questions : List Question)
    (records : List Record) : Prop where
  fewQuestions : questions.length < 65536
  fewRecords : records.length < 65536
  header : At message 0
    (bigEndian 2 id.toNat ++ (bigEndian 2 flags.toNat ++ (bigEndian 2 questions.length ++
      (bigEndian 2 records.length ++ (bigEndian 2 ns.toNat ++ bigEndian 2 ar.toNat)))))
  sections : ∃ middle finish, QuestionsAt message 12 questions middle ∧
    RecordsAt message middle records finish

/-- What the parser is to report for a record. -/
def Record.answer (record : Record) : Answer where
  name := record.name.text
  rtype := record.rtype.toNat
  rclass := record.rclass.toNat
  ttl := record.ttl.toNat
  value :=
    if record.rtype.toNat = typeA ∧ record.rdata.length = 4 then some (dotted record.rdata)
    else none

/-! ## Names -/

/-- Splitting at dots undoes joining, so a joined name is encoded label by label. -/
theorem encodeQname_joinDots {labels : List Str} (dotless : ∀ label ∈ labels, '.' ∉ label)
    {bytes : Bytes} (encoded : encodeQname (joinDots labels) = .ok bytes) :
    ∃ labelBytes, encodeLabels labels = .ok labelBytes ∧ bytes = labelBytes ++ [0] := by
  have same : encodeLabels ((joinDots labels).splitOn '.') = encodeLabels labels := by
    cases labels with
    | nil => rfl
    | cons label labels =>
      rw [joinDots, List.splitOn_intercalate '.' dotless (by simp)]
  rw [encodeQname, same] at encoded
  cases labelwise : encodeLabels labels with
  | error e => simp [labelwise, bind, Except.bind] at encoded
  | ok labelBytes =>
    simp only [labelwise, bind, Except.bind, pure, Except.pure, Except.ok.injEq] at encoded
    exact ⟨labelBytes, rfl, encoded.symm⟩

theorem encodeLabels_cons {label : Str} {labels : List Str} {bytes : Bytes}
    (nonempty : 1 ≤ label.length) (encoded : encodeLabels (label :: labels) = .ok bytes) :
    ∃ labelBytes rest, encodeAscii label = .ok labelBytes ∧ labelBytes.length < 256 ∧
      encodeLabels labels = .ok rest ∧
      bytes = UInt8.ofNat labelBytes.length :: (labelBytes ++ rest) := by
  have proper : label ≠ [] := List.length_pos_iff.mp nonempty
  rw [encodeLabels, if_neg proper] at encoded
  obtain ⟨labelBytes, ascii, encoded⟩ := bind_eq_ok.mp encoded
  split at encoded
  · cases encoded
  · rename_i short
    obtain ⟨rest, remaining, encoded⟩ := bind_eq_ok.mp encoded
    cases encoded
    exact ⟨labelBytes, rest, ascii, not_le.mp short, remaining, rfl⟩

/-- Encoded labels in front of a name lengthen it. -/
theorem CompressedName.encoded {message : Bytes} {offset hops finish : Nat} {labels : List Bytes}
    {leading : List Str} {leadingBytes : Bytes}
    (sized : ∀ label ∈ leading, 1 ≤ label.length ∧ label.length ≤ 63)
    (encoded : encodeLabels leading = .ok leadingBytes) (present : At message offset leadingBytes)
    (rest : CompressedName message (offset + leadingBytes.length) labels hops finish) :
    ∃ front : List Bytes, front.map decodeAscii = leading ∧
      CompressedName message offset (front ++ labels) hops finish := by
  induction leading generalizing offset leadingBytes with
  | nil =>
    cases encoded
    exact ⟨[], rfl, rest⟩
  | cons label leading ih =>
    have sizedLabel := sized label (by simp)
    obtain ⟨labelBytes, others, ascii, -, remaining, rfl⟩ := encodeLabels_cons sizedLabel.1 encoded
    have length := length_encodeAscii ascii
    rw [← List.cons_append] at present rest
    obtain ⟨here, later⟩ := present.append
    -- A label takes its length octet and its bytes.
    have behindLabel : offset + (UInt8.ofNat labelBytes.length :: labelBytes).length =
        offset + 1 + labelBytes.length := by
      rw [List.length_cons]
      omega
    rw [List.length_append, ← Nat.add_assoc, behindLabel] at rest
    rw [behindLabel] at later
    obtain ⟨front, spelled, name⟩ :=
      ih (fun other member => sized other (by simp [member])) remaining later rest
    refine ⟨labelBytes :: front, ?_, .label (by omega) here name⟩
    rw [List.map_cons, decodeAscii_encodeAscii ascii, spelled]

/-- A name that is laid out is read, up to the end of its own bytes. -/
theorem NameAt.readName_eq {message : Bytes} {offset finish : Nat} {name : LegalName}
    (laid : NameAt message offset name finish) : readName message offset = .ok (name.text, finish) := by
  have few := name.few
  cases laid with
  | plain bytes encoded present =>
    obtain ⟨labelBytes, labelwise, rfl⟩ := encodeQname_joinDots name.dotless encoded
    obtain ⟨front, ending⟩ := present.append
    obtain ⟨labels, spelled, compressed⟩ :=
      CompressedName.encoded name.sized labelwise front (.root ending)
    rw [List.append_nil] at compressed
    have count := congrArg List.length spelled
    rw [List.length_map] at count
    -- At most 126 labels and the zero byte: the guard does not strike.
    have read := compressed.readName_eq (by omega)
    rw [read, spelled, LegalName.text, List.length_append, Nat.add_assoc, List.length_singleton]
  | pointer leading remaining split leadingBytes remainingBytes target earlier small encodedLeading
      encodedRemaining presentRemaining present =>
    have dotless := name.dotless
    have sized := name.sized
    rw [split] at dotless sized
    rw [split, List.length_append] at few
    obtain ⟨labelBytes, labelwise, rfl⟩ :=
      encodeQname_joinDots (fun label member => dotless label (by simp [member])) encodedRemaining
    obtain ⟨front, pointed⟩ := present.append
    obtain ⟨back, ending⟩ := presentRemaining.append
    obtain ⟨later, spelledLater, compressedLater⟩ := CompressedName.encoded
      (fun label member => sized label (by simp [member])) labelwise back (.root ending)
    rw [List.append_nil] at compressedLater
    obtain ⟨first, spelledFirst, compressed⟩ := CompressedName.encoded
      (fun label member => sized label (by simp [member])) encodedLeading front
      (.pointer earlier small pointed compressedLater)
    have countFirst := congrArg List.length spelledFirst
    have countLater := congrArg List.length spelledLater
    rw [List.length_map] at countFirst countLater
    -- The labels on both sides of the pointer, the pointer and the zero byte.
    have read := compressed.readName_eq (by rw [List.length_append]; omega)
    rw [read, List.map_append, spelledFirst, spelledLater, LegalName.text, split]

/-! ## Fixed fields -/

theorem field_first {width n : Nat} (fits : n < 256 ^ width) (rest : Bytes) :
    field (bigEndian width n ++ rest) 0 width = n := by
  have front : (bigEndian width n ++ rest).take width = bigEndian width n := by
    simp [List.take_left']
  rw [field, slice, List.drop_zero, front, ofBigEndian_bigEndian fits]

theorem field_later (width n start size : Nat) (rest : Bytes) :
    field (bigEndian width n ++ rest) (width + start) size = field rest start size := by
  have back : (bigEndian width n ++ rest).drop (width + start) = rest.drop start := by
    rw [← List.drop_drop, List.drop_left' (length_bigEndian width n)]
  rw [field, slice, back, field, slice]

theorem unpackHeader_fields {id flags qd an ns ar : Nat} (hId : id < 256 ^ 2)
    (hFlags : flags < 256 ^ 2) (hQd : qd < 256 ^ 2) (hAn : an < 256 ^ 2) (hNs : ns < 256 ^ 2)
    (hAr : ar < 256 ^ 2) :
    unpackHeader (bigEndian 2 id ++ (bigEndian 2 flags ++ (bigEndian 2 qd ++ (bigEndian 2 an ++
      (bigEndian 2 ns ++ bigEndian 2 ar))))) = .ok ⟨id, flags, qd, an, ns, ar⟩ := by
  generalize packed : bigEndian 2 id ++ (bigEndian 2 flags ++ (bigEndian 2 qd ++ (bigEndian 2 an ++
    (bigEndian 2 ns ++ bigEndian 2 ar)))) = data
  have twelve : data.length = 12 := by simp [← packed]
  have first : field data 0 2 = id := by
    rw [← packed, field_first hId]
  have second : field data 2 2 = flags := by
    rw [← packed, field_later 2 _ 0, field_first hFlags]
  have third : field data 4 2 = qd := by
    rw [← packed, field_later 2 _ 2, field_later 2 _ 0, field_first hQd]
  have fourth : field data 6 2 = an := by
    rw [← packed, field_later 2 _ 4, field_later 2 _ 2, field_later 2 _ 0, field_first hAn]
  have fifth : field data 8 2 = ns := by
    rw [← packed, field_later 2 _ 6, field_later 2 _ 4, field_later 2 _ 2, field_later 2 _ 0,
      field_first hNs]
  have sixth : field data 10 2 = ar := by
    rw [← packed, field_later 2 _ 8, field_later 2 _ 6, field_later 2 _ 4, field_later 2 _ 2,
      field_later 2 _ 0, ← List.append_nil (bigEndian 2 ar), field_first hAr]
  rw [unpackHeader, if_pos twelve, first, second, third, fourth, fifth, sixth]

theorem unpackFixed_fixed (record : Record) :
    unpackFixed record.fixed =
      .ok ⟨record.rtype.toNat, record.rclass.toNat, record.ttl.toNat, record.rdata.length⟩ := by
  have rtype : field record.fixed 0 2 = record.rtype.toNat :=
    field_first record.rtype.toNat_lt _
  have rclass : field record.fixed 2 2 = record.rclass.toNat := by
    rw [Record.fixed, field_later 2 _ 0, field_first record.rclass.toNat_lt]
  have ttl : field record.fixed 4 4 = record.ttl.toNat := by
    rw [Record.fixed, field_later 2 _ 2, field_later 2 _ 0, field_first record.ttl.toNat_lt]
  have rdlength : field record.fixed 8 2 = record.rdata.length := by
    rw [Record.fixed, field_later 2 _ 6, field_later 2 _ 4, field_later 4 _ 0,
      ← List.append_nil (bigEndian 2 record.rdata.length), field_first record.short]
  rw [unpackFixed, if_pos (by simp [Record.fixed]), rtype, rclass, ttl, rdlength]

/-! ## Sections -/

theorem QuestionsAt.skipQuestions_eq {message : Bytes} {offset finish : Nat}
    {questions : List Question} (laid : QuestionsAt message offset questions finish) :
    skipQuestions message questions.length offset = .ok finish := by
  induction laid with
  | nil offset => rfl
  | cons name _ _ ih =>
    simpa only [List.length_cons, skipQuestions, name.readName_eq, bind, Except.bind] using ih

theorem readAnswer_eq {message : Bytes} {offset middle : Nat} {record : Record}
    (name : NameAt message offset record.name middle)
    (present : At message middle (record.fixed ++ record.rdata)) :
    readAnswer message offset = .ok (record.answer, middle + 10 + record.rdata.length) := by
  have ten : record.fixed.length = 10 := by simp [Record.fixed]
  obtain ⟨fixed, rdata⟩ := present.append
  have fixedSlice : slice message middle 10 = record.fixed := by
    rw [← ten]
    exact fixed.slice_eq
  rw [ten] at rdata
  simp only [readAnswer, name.readName_eq, fixedSlice, unpackFixed_fixed, rdata.slice_eq, bind,
    Except.bind, pure, Except.pure, Record.answer]

theorem RecordsAt.readAnswers_eq {message : Bytes} {offset finish : Nat} {records : List Record}
    (laid : RecordsAt message offset records finish) :
    readAnswers message records.length offset = .ok (records.map Record.answer) := by
  induction laid with
  | nil offset => rfl
  | cons name present _ ih =>
    simp only [List.length_cons, readAnswers, readAnswer_eq name present, ih, bind, Except.bind,
      pure, Except.pure, List.map_cons]

/-- Parsing a message that carries the header, questions and records reports
    exactly them. -/
theorem parse_response_reports {message : Bytes} {id flags ns ar : UInt16}
    {questions : List Question} {records : List Record}
    (carries : Carries message id flags ns ar questions records) :
    parseResponse message =
      .ok ⟨id.toNat, flags.toNat % 16, questions.length, records.length,
        records.map Record.answer⟩ := by
  obtain ⟨fewQuestions, fewRecords, header, middle, finish, questionsAt, recordsAt⟩ := carries
  have rcode : flags.toNat &&& 0x000F = flags.toNat % 16 := Nat.and_two_pow_sub_one_eq_mod _ 4
  have unpacked : unpackHeader (message.take 12) =
      .ok ⟨id.toNat, flags.toNat, questions.length, records.length, ns.toNat, ar.toNat⟩ := by
    have twelve := header.slice_eq
    simp only [slice, List.drop_zero, List.length_append, length_bigEndian] at twelve
    rw [twelve]
    exact unpackHeader_fields id.toNat_lt flags.toNat_lt fewQuestions fewRecords ns.toNat_lt
      ar.toNat_lt
  simp only [parseResponse, unpacked, questionsAt.skipQuestions_eq, recordsAt.readAnswers_eq, rcode,
    bind, Except.bind, pure, Except.pure]

def exampleCom : LegalName where
  labels := [lit "example", lit "com"]
  ascii := by simp [lit]
  dotless := by simp [lit]
  sized := by decide
  few := by decide
  octets := by decide +kernel

def wwwExampleCom : LegalName where
  labels := [lit "www", lit "example", lit "com"]
  ascii := by simp [lit]
  dotless := by simp [lit]
  sized := by decide
  few := by decide
  octets := by decide +kernel

/-- A response to a question for `www.example.com`, with an address whose name
    points into the question, a record of another type and a trailing byte. -/
def sampleMessage : Bytes :=
  bigEndian 2 0x1234 ++ bigEndian 2 0x8180 ++ bigEndian 2 1 ++ bigEndian 2 2 ++ bigEndian 2 0 ++
    bigEndian 2 0 ++ bytesLit "\x03www\x07example\x03com" ++ [0, 0, 1, 0, 1] ++
    [0xC0, 16, 0, 1, 0, 1, 0, 0, 1, 44, 0, 4, 93, 184, 216, 34] ++
    bytesLit "\x03www" ++ [0xC0, 16, 0, 16, 0, 1, 0, 0, 0, 60, 0, 2, 1, 65] ++ [255]

def addressRecord : Record := ⟨exampleCom, 1, 1, 300, [93, 184, 216, 34], by decide⟩

def textRecord : Record := ⟨wwwExampleCom, 16, 1, 60, [1, 65], by decide⟩

theorem sampleMessage_carries :
    Carries sampleMessage 0x1234 0x8180 0 0 [⟨wwwExampleCom, 1, 1⟩] [addressRecord, textRecord] := by
  have question : NameAt sampleMessage 12 wwwExampleCom 29 :=
    .plain (bytesLit "\x03www\x07example\x03com\x00") (by decide +kernel) (by decide +kernel)
  have rest : At sampleMessage 16 (bytesLit "\x07example\x03com\x00") := by decide +kernel
  have encodedRest : encodeQname (lit "example.com") = .ok (bytesLit "\x07example\x03com\x00") := by
    decide +kernel
  have address : NameAt sampleMessage 33 exampleCom 35 :=
    .pointer [] exampleCom.labels rfl [] _ 16 (by decide) (by decide) rfl encodedRest rest
      (by decide +kernel)
  have text : NameAt sampleMessage 49 wwwExampleCom 55 :=
    .pointer [lit "www"] exampleCom.labels rfl (bytesLit "\x03www") _ 16 (by decide) (by decide)
      (by decide +kernel) encodedRest rest (by decide +kernel)
  exact ⟨by decide, by decide, by decide +kernel, 33, 67,
    .cons question (by decide +kernel) (.nil 33),
    .cons address (by decide +kernel) (.cons text (by decide +kernel) (.nil 67))⟩

theorem sampleMessage_reported :
    parseResponse sampleMessage = .ok ⟨0x1234, 0, 1, 2,
      [⟨lit "example.com", 1, 1, 300, some (lit "93.184.216.34")⟩,
        ⟨lit "www.example.com", 16, 1, 60, none⟩]⟩ := by
  have reported := parse_response_reports sampleMessage_carries
  have records : [addressRecord, textRecord].map Record.answer =
      [⟨lit "example.com", 1, 1, 300, some (lit "93.184.216.34")⟩,
        ⟨lit "www.example.com", 16, 1, 60, none⟩] := by decide +kernel
  rwa [records] at reported

end Excalibur.Dns
