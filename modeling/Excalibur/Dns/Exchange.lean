import Excalibur.Dns.QueryName

/-! # A query and its reply

`query` sends one question and parses what comes back, at most 4096 bytes of it; only then
it compares the transaction ids.

A resolver that copies the question and lets the name of every record point to it is
understood for any records (`query_understands`), unless the name has 127 labels: it can
still be asked for, but with the pointer it takes one round more than the guard lets pass.
-/

namespace Excalibur.Dns

open Excalibur.Library Excalibur.Python

/-! ## The client -/

def classIn : Nat := 1

/-- `struct.pack` with one `H` for each value. -/
def packShorts (values : List Nat) : Except PyError Bytes :=
  if values.all fun value => value < 65536 then .ok (values.flatMap (bigEndian 2))
  else .error .structError

/-- `build_query`, with the transaction id that was passed or drawn. -/
def buildQuery (name : Str) (qtype txnId : Nat) : Except PyError (Nat × Bytes) := do
  -- Recursion desired.
  let flags := 0x0100
  let header ← packShorts [txnId, flags, 1, 0, 0, 0]
  let qname ← encodeQname name
  let fixed ← packShorts [qtype, classIn]
  return (txnId, header ++ (qname ++ fixed))

/-- `query`, when the server answers a packet with a datagram. -/
def query (name : Str) (txnId : Nat) (server : Bytes → Bytes) : Except PyError Response := do
  let (txnId, packet) ← buildQuery name typeA txnId
  let data := (server packet).take 4096
  let result ← parseResponse data
  if result.id ≠ txnId then throw .assertionError
  return result

/-! ## A resolver -/

/-- A record of the reply: its name is a pointer to the question. -/
def pointed (record : Record) : Bytes := pointerTo 12 ++ (record.fixed ++ record.rdata)

/-- The reply with the id and the question of the packet. -/
def answerTo (flags : UInt16) (records : List Record) (packet : Bytes) : Bytes :=
  packet.take 2 ++ (bigEndian 2 flags.toNat ++ (bigEndian 2 1 ++ (bigEndian 2 records.length ++
    (bigEndian 2 0 ++ bigEndian 2 0)))) ++ (packet.drop 12 ++ records.flatMap pointed)

/-- The name as it is read back. -/
def askedName (name : Str) : Str := joinDots (nameLabels name)

/-- What is to be reported for a record of the name that was asked for. -/
def reported (name : Str) (record : Record) : Answer := { record.answer with name := askedName name }

/-! ## The packet -/

/-- A message with one question for an address and records that point to it. -/
def layout (id flags : Nat) (qname : Bytes) (records : List Record) : Bytes :=
  (bigEndian 2 id ++ (bigEndian 2 flags ++ (bigEndian 2 1 ++ (bigEndian 2 records.length ++
    (bigEndian 2 0 ++ bigEndian 2 0))))) ++
  (qname ++ (bigEndian 2 typeA ++ bigEndian 2 classIn) ++ records.flatMap pointed)

section Packet

variable {name : Str} {txnId : Nat} {qname : Bytes}

theorem buildQuery_eq (drawn : txnId < 65536) (encoded : encodeQname name = .ok qname) :
    buildQuery name typeA txnId = .ok (txnId, layout txnId 0x0100 qname []) := by
  have header : packShorts [txnId, 0x0100, 1, 0, 0, 0] = .ok (bigEndian 2 txnId ++
      (bigEndian 2 0x0100 ++ (bigEndian 2 1 ++ (bigEndian 2 0 ++ (bigEndian 2 0 ++ bigEndian 2 0))))) := by
    simp [packShorts, drawn]
  have fixed : packShorts [typeA, classIn] = .ok (bigEndian 2 typeA ++ bigEndian 2 classIn) := by
    decide
  simp only [buildQuery, header, encoded, fixed, bind, Except.bind, pure, Except.pure, layout,
    List.length_nil, List.flatMap_nil, List.append_nil]

/-- The resolver keeps the id and the question. -/
theorem answerTo_packet (flags : UInt16) (records : List Record) :
    answerTo flags records (layout txnId 0x0100 qname []) =
      layout txnId flags.toNat qname records := by
  have two : (bigEndian 2 txnId).length = 2 := length_bigEndian 2 txnId
  simp only [answerTo, layout, List.length_nil, List.flatMap_nil, List.append_nil]
  generalize bigEndian 2 txnId = idBytes at two
  generalize rest : bigEndian 2 0x0100 ++ (bigEndian 2 1 ++ (bigEndian 2 0 ++
    (bigEndian 2 0 ++ bigEndian 2 0))) = others
  have ten : others.length = 10 := by simp [← rest]
  have twelve : (idBytes ++ others).length = 12 := by rw [List.length_append, two, ten]
  have question : ((idBytes ++ others) ++ (qname ++ (bigEndian 2 typeA ++ bigEndian 2 classIn))).drop 12 =
      qname ++ (bigEndian 2 typeA ++ bigEndian 2 classIn) := by
    rw [← twelve, List.drop_left]
  have id : ((idBytes ++ others) ++ (qname ++ (bigEndian 2 typeA ++ bigEndian 2 classIn))).take 2 =
      idBytes := by
    rw [List.append_assoc, ← two, List.take_left]
  rw [question, id]

/-- The reply with another id in front. -/
theorem replace_id (id flags : Nat) (records : List Record) :
    bigEndian 2 id ++ (layout txnId flags qname records).drop 2 = layout id flags qname records := by
  have two : (bigEndian 2 txnId).length = 2 := length_bigEndian 2 txnId
  rw [layout, List.append_assoc, List.drop_left' two, layout]
  simp only [List.append_assoc]

/-- The name of an emitted question, without pointers. -/
theorem compressed_emitted (limits : WithinLimits name) (encoded : encodeQname name = .ok qname)
    {message : Bytes} {offset : Nat} (present : At message offset qname) :
    ∃ labels : List Bytes, labels.map decodeAscii = nameLabels name ∧
      CompressedName message offset labels 0 (offset + qname.length) := by
  rw [encodeQname_eq] at encoded
  obtain ⟨labelBytes, labelwise, appended⟩ := bind_eq_ok.mp encoded
  cases appended
  obtain ⟨front, ending⟩ := present.append
  have sized : ∀ label ∈ nameLabels name, 1 ≤ label.length ∧ label.length ≤ 63 :=
    fun label member => ⟨nonempty_of_mem_nameLabels member, limits.1 label member⟩
  obtain ⟨labels, spelled, compressed⟩ := CompressedName.encoded sized labelwise front (.root ending)
  rw [List.append_nil] at compressed
  rw [List.length_append, List.length_singleton, ← Nat.add_assoc]
  exact ⟨labels, spelled, compressed⟩

end Packet

/-! ## The reply -/

/-- A message with one question, for a name within the limits, and behind it records that
    point to the question. -/
structure Reply (message : Bytes) (name : Str) (id flags : Nat) (records : List Record) : Prop where
  header : unpackHeader (message.take 12) = .ok ⟨id, flags, 1, records.length, 0, 0⟩
  asked : ∃ qname, encodeQname name = .ok qname ∧ At message 12 qname ∧
    At message (12 + qname.length + 4) (records.flatMap pointed)

section Records

variable {message : Bytes} {name : Str} {qname : Bytes}

theorem readName_pointer (limits : WithinLimits name) (encoded : encodeQname name = .ok qname)
    (question : At message 12 qname) {offset : Nat} (behind : 12 < offset)
    (present : At message offset (pointerTo 12)) :
    readName message offset =
      if (nameLabels name).length ≤ 126 then .ok (askedName name, offset + 2)
      else .error .valueError := by
  obtain ⟨labels, spelled, compressed⟩ := compressed_emitted limits encoded question
  have pointer : CompressedName message offset labels 1 (offset + 2) :=
    .pointer behind (by decide) present compressed
  have count := congrArg List.length spelled
  rw [List.length_map] at count
  by_cases few : (nameLabels name).length ≤ 126
  · rw [if_pos few, pointer.readName_eq (by omega), spelled, askedName]
  · rw [if_neg few, pointer.readName_error (by omega)]

/-- The records are read when their name is, and otherwise the first of them raises. -/
theorem readAnswers_pointed (limits : WithinLimits name) (encoded : encodeQname name = .ok qname)
    (question : At message 12 qname) {records : List Record} {offset : Nat} (behind : 12 < offset)
    (present : At message offset (records.flatMap pointed)) :
    readAnswers message records.length offset =
      if (nameLabels name).length ≤ 126 ∨ records = [] then .ok (records.map (reported name))
      else .error .valueError := by
  induction records generalizing offset with
  | nil =>
    rw [if_pos (.inr rfl)]
    rfl
  | cons record records ih =>
    rw [List.flatMap_cons] at present
    obtain ⟨here, later⟩ := present.append
    obtain ⟨pointer, data⟩ := here.append
    have read := readName_pointer limits encoded question behind pointer
    have two : (pointerTo 12).length = 2 := by decide
    have ten : record.fixed.length = 10 := by simp [Record.fixed]
    rw [two] at data
    obtain ⟨fixed, rdata⟩ := data.append
    have fixedSlice : slice message (offset + 2) 10 = record.fixed := by
      rw [← ten]
      exact fixed.slice_eq
    rw [ten] at rdata
    have length : (pointed record).length = 2 + 10 + record.rdata.length := by
      simp only [pointed, List.length_append, two, ten]
      omega
    rw [length, ← Nat.add_assoc, ← Nat.add_assoc] at later
    have rest := ih (by omega) later
    by_cases few : (nameLabels name).length ≤ 126
    · rw [if_pos few] at read
      rw [if_pos (.inl few)] at rest ⊢
      simp only [List.length_cons, readAnswers, readAnswer, read, fixedSlice, unpackFixed_fixed,
        rdata.slice_eq, rest, bind, Except.bind, pure, Except.pure, List.map_cons, reported,
        Record.answer]
    · rw [if_neg few] at read
      rw [if_neg (by simp [few])]
      simp only [List.length_cons, readAnswers, readAnswer, read, bind, Except.bind]

end Records

theorem Reply.parseResponse_eq {message : Bytes} {name : Str} {id flags : Nat} {records : List Record}
    (limits : WithinLimits name) (reply : Reply message name id flags records) :
    parseResponse message =
      if (nameLabels name).length ≤ 126 ∨ records = [] then
        .ok ⟨id, flags % 16, 1, records.length, records.map (reported name)⟩
      else .error .valueError := by
  obtain ⟨qname, encoded, question, behind⟩ := reply.asked
  have rcode : flags &&& 0x000F = flags % 16 := Nat.and_two_pow_sub_one_eq_mod _ 4
  have skipped : skipQuestions message 1 12 = .ok (12 + qname.length + 4) := by
    simp only [skipQuestions, readName_emitted limits encoded question, bind, Except.bind]
  have answers := readAnswers_pointed limits encoded question (by omega) behind
  by_cases read : (nameLabels name).length ≤ 126 ∨ records = []
  · rw [if_pos read] at answers ⊢
    simp only [parseResponse, reply.header, skipped, answers, rcode, bind, Except.bind, pure,
      Except.pure]
  · rw [if_neg read] at answers ⊢
    simp only [parseResponse, reply.header, skipped, answers, bind, Except.bind]

theorem reply_layout {name : Str} {id flags : Nat} {qname : Bytes} (hId : id < 65536)
    (hFlags : flags < 65536) (encoded : encodeQname name = .ok qname) {records : List Record}
    (count : records.length < 65536) : Reply (layout id flags qname records) name id flags records := by
  rw [layout]
  generalize packed : bigEndian 2 id ++ (bigEndian 2 flags ++ (bigEndian 2 1 ++
    (bigEndian 2 records.length ++ (bigEndian 2 0 ++ bigEndian 2 0)))) = header
  have twelve : header.length = 12 := by simp [← packed]
  constructor
  · rw [← twelve, List.take_left, ← packed]
    exact unpackHeader_fields hId hFlags (by decide) count (by decide) (by decide)
  · have behind : At (header ++ (qname ++ (bigEndian 2 typeA ++ bigEndian 2 classIn) ++
        records.flatMap pointed)) 12
        (qname ++ (bigEndian 2 typeA ++ bigEndian 2 classIn) ++ records.flatMap pointed) := by
      rw [At, ← twelve, List.drop_left]
    obtain ⟨question, answers⟩ := behind.append
    obtain ⟨emitted, -⟩ := question.append
    rw [List.length_append, ← Nat.add_assoc] at answers
    exact ⟨qname, encoded, emitted, answers⟩

/-! ## The exchange -/

/-- What `query` comes to when the reply has this id. -/
def outcome (name : Str) (txnId id : Nat) (flags : UInt16) (records : List Record) :
    Except PyError Response :=
  if 126 < (nameLabels name).length ∧ records ≠ [] then .error .valueError
  else if id ≠ txnId then .error .assertionError
  else .ok ⟨txnId, flags.toNat % 16, 1, records.length, records.map (reported name)⟩

theorem query_layout {name : Str} {txnId id : Nat} {qname : Bytes} (drawn : txnId < 65536)
    (hId : id < 65536) (limits : WithinLimits name) (encoded : encodeQname name = .ok qname)
    (flags : UInt16) {records : List Record} (count : records.length < 65536) {server : Bytes → Bytes}
    (answers : server (layout txnId 0x0100 qname []) = layout id flags.toNat qname records)
    (short : (layout id flags.toNat qname records).length ≤ 4096) :
    query name txnId server = outcome name txnId id flags records := by
  have parsed := (reply_layout hId flags.toNat_lt encoded count).parseResponse_eq limits
  simp only [query, buildQuery_eq drawn encoded, answers, List.take_of_length_le short, parsed, bind,
    Except.bind, pure, Except.pure, outcome]
  by_cases read : (nameLabels name).length ≤ 126 ∨ records = []
  · have followed : ¬ (126 < (nameLabels name).length ∧ records ≠ []) := by
      rintro ⟨many, some⟩
      exact read.elim (not_le.mpr many) some
    rw [if_pos read, if_neg followed]
    by_cases same : id = txnId
    · simp [same]
    · simp only [if_pos same]
      rfl
  · have lost : 126 < (nameLabels name).length ∧ records ≠ [] := by
      rwa [not_or, not_le] at read
    rw [if_neg read, if_pos lost]

/-- 127 labels of one letter, which fill the 255 bytes. -/
def longestName : Str := joinDots (List.replicate 127 (lit "a"))

theorem longestName_limits : WithinLimits longestName ∧ ¬ Rejected longestName := by
  have labels : nameLabels longestName = List.replicate 127 (lit "a") := by decide +kernel
  rw [WithinLimits, Rejected, labels]
  constructor
  · decide +kernel
  · rintro ⟨label, member, bad⟩
    rw [List.eq_of_mem_replicate member] at bad
    rcases bad with ⟨c, isLetter, large⟩ | long
    · obtain rfl := List.mem_singleton.mp isLetter
      exact absurd large (by decide)
    · exact absurd long (by decide)

theorem trailingDot_limits : WithinLimits (lit "example.com.") ∧ ¬ Rejected (lit "example.com.") := by
  have labels : nameLabels (lit "example.com.") = [lit "example", lit "com"] := by decide +kernel
  rw [WithinLimits, Rejected, labels]
  constructor
  · decide
  · simp [lit]

end Excalibur.Dns
