import Excalibur.Http.EarlyEnd

/-! # What the chunk decoder takes for chunks

`int` reads more than hexadecimal digits, a blank field counts as zero, and the two bytes
behind the data of a chunk are skipped whatever they are.  `accepts_only_chunks_iff` says
that the decoder returns from nothing but chunks exactly when its walk comes to none of
these, or to a size line that raises.
-/

namespace Excalibur.Http

open Excalibur.Library Excalibur.Python

/-! ## The grammar -/

/-- What stands before the first semicolon of a size line, as it stands. -/
def rawField (line : Bytes) : Bytes := (partition [59] line).1

/-- The line spells `n` in hexadecimal digits, up to a semicolon if it has one. -/
structure SpellsSize (line : Bytes) (n : Nat) : Prop where
  oneLine : occursIn crlf line = false
  nonempty : rawField line ≠ []
  hexadecimal : ∀ b ∈ rawField line, (hexValue b).isSome
  size : ofDigits 16 ((rawField line).filterMap hexValue) = n

/-- Chunks up to one of size zero, with the data they carry. -/
inductive Chunked : Bytes → Bytes → Prop where
  | last {line : Bytes} (zero : SpellsSize line 0) : Chunked (line ++ crlf) []
  | chunk {line data consumed body : Bytes} (sized : SpellsSize line data.length)
      (nonempty : data ≠ []) (more : Chunked consumed body) :
      Chunked (line ++ crlf ++ (data ++ (crlf ++ consumed))) (data ++ body)

/-- The rounds of the decoder that lead to a return: the body, and what is left of the
    buffer and the stream behind the last size line. -/
inductive Decodes : Bytes → Socket → Bytes → Bytes → Prop where
  | last {buf : Bytes} {s : Socket} (zero : chunkSize (readLine buf s).1.1 = .ok 0) :
      Decodes buf s [] ((readLine buf s).1.2 ++ unread (readLine buf s).2)
  | chunk {buf items rest body left : Bytes} {s s' : Socket}
      (next : nextChunk buf s = .ok (.data items rest s')) (more : Decodes rest s' body left) :
      Decodes buf s (items ++ body) left

/-- None of the decoder's receive calls meets the end of the stream. -/
inductive NoEnd : Bytes → Socket → Prop where
  | bad {buf : Bytes} {s : Socket} {e : PyError}
      (line : occursIn crlf (fill (occursIn crlf) buf s).1 = true)
      (bad : chunkSize (readLine buf s).1.1 = .error e) : NoEnd buf s
  | last {buf : Bytes} {s : Socket} (line : occursIn crlf (fill (occursIn crlf) buf s).1 = true)
      (zero : chunkSize (readLine buf s).1.1 = .ok 0)
      (trailing : occursIn crlf
        (fill (occursIn crlf) (readLine buf s).1.2 (readLine buf s).2).1 = true) : NoEnd buf s
  | chunk {buf items rest : Bytes} {s s' : Socket} {size : Int}
      (line : occursIn crlf (fill (occursIn crlf) buf s).1 = true)
      (parsed : chunkSize (readLine buf s).1.1 = .ok size) (positive : size ≠ 0)
      (whole : size + 2 ≤ (fill (fun buf => size + 2 ≤ buf.length) (readLine buf s).1.2
        (readLine buf s).2).1.length)
      (next : nextChunk buf s = .ok (.data items rest s')) (more : NoEnd rest s') : NoEnd buf s

/-- The walk over the stream comes to a size line that `int` reads and that is not spelled
    in hexadecimal digits, or to data without a CRLF behind it. -/
inductive Lenient : Bytes → Prop where
  | size {stream line rest : Bytes} {size : Int} (found : cut crlf stream = some (line, rest))
      (read : chunkSize line = .ok size) (misspelled : ∀ n, ¬ SpellsSize line n) : Lenient stream
  | data {stream line rest : Bytes} {n : Nat} (found : cut crlf stream = some (line, rest))
      (sized : SpellsSize line n) (positive : 0 < n) (misaligned : slice rest n 2 ≠ crlf) :
      Lenient stream
  | later {stream line rest : Bytes} {n : Nat} (found : cut crlf stream = some (line, rest))
      (sized : SpellsSize line n) (positive : 0 < n) (more : Lenient (rest.drop (n + 2))) :
      Lenient stream

/-! ## Size lines -/

theorem SpellsSize.chunkSize_eq {line : Bytes} {n : Nat} (sized : SpellsSize line n) :
    chunkSize line = .ok (n : Int) := by
  have notSpace (b : UInt8) (member : b ∈ rawField line) : isAsciiSpace b = false :=
    isAsciiSpace_of_hexValue (sized.hexadecimal b member)
  have field : sizeField line = rawField line :=
    stripBy_eq_self (fun b head => notSpace b (List.mem_of_mem_head? head))
      (fun b last => notSpace b (List.mem_of_mem_getLast? last))
  rw [chunkSize, field, if_neg sized.nonempty,
    intOfHexBytes_of_digits sized.nonempty sized.hexadecimal, sized.size]

theorem SpellsSize.unique {line : Bytes} {m n : Nat} (first : SpellsSize line m)
    (second : SpellsSize line n) : m = n := first.size.symm.trans second.size

theorem SpellsSize.cut_eq {line : Bytes} {n : Nat} (sized : SpellsSize line n) (rest : Bytes) :
    cut crlf (line ++ crlf ++ rest) = some (line, rest) :=
  cut_append_of_not_occurs (by decide) sized.oneLine

/-! ## The decoder's rounds -/

theorem chunkSize_of_last {buf : Bytes} {s s' : Socket} (next : nextChunk buf s = .ok (.last s')) :
    chunkSize (readLine buf s).1.1 = .ok 0 := by
  rw [nextChunk] at next
  obtain ⟨size, parsed, chosen⟩ := bind_eq_ok.mp next
  split at chosen
  · next zero =>
    rw [zero] at parsed
    exact parsed
  · cases chosen

theorem decodes_of_decodeChunked {earlier buf result : Bytes} {s s' : Socket}
    (returned : decodeChunked earlier buf s = .ok (result, s')) :
    ∃ body left, result = earlier ++ body ∧ Decodes buf s body left := by
  induction earlier, buf, s using decodeChunked.induct with
  | case1 earlier buf s e next =>
    rw [decodeChunked_error next] at returned
    cases returned
  | case2 earlier buf s s'' next =>
    rw [decodeChunked_last next] at returned
    cases returned
    exact ⟨[], _, (List.append_nil _).symm, .last (chunkSize_of_last next)⟩
  | case3 earlier buf s items rest s'' next ih =>
    rw [decodeChunked_data next] at returned
    obtain ⟨body, left, rfl, decodes⟩ := ih returned
    exact ⟨items ++ body, left, List.append_assoc .., .chunk next decodes⟩

/-- The first line of the stream, when it is in the filled buffer. -/
theorem cut_stream {buf : Bytes} {s : Socket}
    (line : occursIn crlf (fill (occursIn crlf) buf s).1 = true) :
    cut crlf (buf ++ unread s) = some (lineOf (buf ++ unread s), behindLine (buf ++ unread s)) := by
  have occurs := occursIn_append (unread (fill (occursIn crlf) buf s).2) line
  rw [fill_content] at occurs
  obtain ⟨parts, found⟩ := Option.isSome_iff_exists.mp occurs
  rw [found, lineOf, behindLine, partition, found]
  rfl

/-- Chunks are cut off the stream in one way. -/
theorem Chunked.not_lenient {consumed body : Bytes} (grammar : Chunked consumed body)
    (left : Bytes) : ¬ Lenient (consumed ++ left) := by
  induction grammar with
  | last zero =>
    intro lenient
    cases lenient with
    | size found read misspelled =>
      rw [zero.cut_eq] at found
      cases found
      exact misspelled 0 zero
    | data found sized positive _ | later found sized positive _ =>
      rw [zero.cut_eq] at found
      cases found
      exact absurd (sized.unique zero) (Nat.ne_of_gt positive)
  | @chunk line data consumed body sized nonempty more ih =>
    -- A walk over the stream comes to this line and none else.
    have found := sized.cut_eq (data ++ (crlf ++ (consumed ++ left)))
    have stream : line ++ crlf ++ (data ++ (crlf ++ consumed)) ++ left =
        line ++ crlf ++ (data ++ (crlf ++ (consumed ++ left))) := by
      simp only [List.append_assoc]
    rw [stream]
    intro lenient
    cases lenient with
    | size found' read misspelled =>
      rw [found] at found'
      cases found'
      exact misspelled _ sized
    | data found' sized' positive misaligned =>
      rw [found] at found'
      cases found'
      rw [sized'.unique sized, slice, List.drop_left] at misaligned
      exact misaligned rfl
    | later found' sized' positive lenient =>
      rw [found] at found'
      cases found'
      rw [sized'.unique sized, ← List.drop_drop, List.drop_left, List.drop_left' (by rfl)] at lenient
      exact ih lenient

/-- A size line that is read is spelled in digits, unless the stream is lenient. -/
theorem spells_of_strict {stream : Bytes} {size : Int}
    (found : cut crlf stream = some (lineOf stream, behindLine stream))
    (read : chunkSize (lineOf stream) = .ok size) (strict : ¬ Lenient stream) :
    ∃ n : Nat, SpellsSize (lineOf stream) n ∧ size = n := by
  by_contra none
  apply strict
  apply Lenient.size found read
  intro n sized
  rw [sized.chunkSize_eq, Except.ok.injEq] at read
  exact none ⟨n, sized, read.symm⟩

/-- A whole chunk on the stream: its line, its data, the CRLF behind it and the rest. -/
theorem chunk_of_strict {stream : Bytes} {n : Nat}
    (found : cut crlf stream = some (lineOf stream, behindLine stream))
    (sized : SpellsSize (lineOf stream) n) (positive : 0 < n) (strict : ¬ Lenient stream) :
    stream = lineOf stream ++ crlf ++
      ((behindLine stream).take n ++ (crlf ++ (behindLine stream).drop (n + 2))) := by
  have aligned : slice (behindLine stream) n 2 = crlf := by
    by_contra misaligned
    exact strict (.data found sized positive misaligned)
  have behind : behindLine stream =
      (behindLine stream).take n ++ (crlf ++ (behindLine stream).drop (n + 2)) := by
    rw [← aligned, slice, ← List.drop_drop, List.take_append_drop, List.take_append_drop]
  rw [← behind]
  exact cut_eq_append found

/-! ## What a return comes from -/

section Returns

variable {buf body left items rest : Bytes} {s s' : Socket}

theorem Decodes.not_error {e : PyError} (decodes : Decodes buf s body left) :
    chunkSize (readLine buf s).1.1 ≠ .error e := by
  intro bad
  cases decodes with
  | last zero =>
    rw [zero] at bad
    cases bad
  | chunk next more =>
    rw [readLine_line] at bad
    rw [nextChunk_error bad] at next
    cases next

theorem Decodes.of_zero (decodes : Decodes buf s body left)
    (zero : chunkSize (readLine buf s).1.1 = .ok 0) :
    body = [] ∧ left = behindLine (buf ++ unread s) := by
  cases decodes with
  | last _ => exact ⟨rfl, readLine_behind⟩
  | chunk next more =>
    rw [readLine_line] at zero
    obtain ⟨_, last⟩ := nextChunk_last zero
    rw [last] at next
    cases next

theorem Decodes.of_data (decodes : Decodes buf s body left)
    (next : nextChunk buf s = .ok (.data items rest s')) :
    ∃ later, body = items ++ later ∧ Decodes rest s' later left := by
  cases decodes with
  | last zero =>
    rw [readLine_line] at zero
    obtain ⟨_, last⟩ := nextChunk_last zero
    rw [last] at next
    cases next
  | chunk next' more =>
    rw [next] at next'
    cases next'
    exact ⟨_, rfl, more⟩

/-- Data that a receive loop waits for is on the stream. -/
theorem data_on_stream {n : Nat}
    (whole : (n : Int) + 2 ≤ (fill (fun buf => (n : Int) + 2 ≤ buf.length) (readLine buf s).1.2
      (readLine buf s).2).1.length) :
    ((behindLine (buf ++ unread s)).take n).length = n := by
  have length := fill_length (fun buf => decide (((n : Int) + 2) ≤ buf.length))
    (readLine buf s).1.2 (readLine buf s).2
  rw [← readLine_behind, List.length_take, List.length_append]
  omega

end Returns

/-- Without lenient rounds, what is consumed is chunks. -/
theorem NoEnd.chunked {buf body left : Bytes} {s : Socket} (whole : NoEnd buf s)
    (strict : ¬ Lenient (buf ++ unread s)) (decodes : Decodes buf s body left) :
    ∃ consumed, buf ++ unread s = consumed ++ left ∧ Chunked consumed body := by
  -- Along the rounds of the decoder; each takes one chunk off the stream.
  induction whole generalizing body left with
  | bad line bad => exact absurd bad decodes.not_error
  | @last buf s line zero trailing =>
    have found := cut_stream line
    obtain ⟨rfl, rfl⟩ := decodes.of_zero zero
    rw [readLine_line] at zero
    obtain ⟨n, sized, same⟩ := spells_of_strict found zero strict
    obtain rfl : n = 0 := by omega
    exact ⟨_, cut_eq_append found, .last sized⟩
  | @chunk buf items rest s s' size line parsed positive whole next more ih =>
    have found := cut_stream line
    obtain ⟨later, rfl, onward⟩ := decodes.of_data next
    rw [readLine_line] at parsed
    obtain ⟨n, sized, rfl⟩ := spells_of_strict found parsed strict
    have positive : 0 < n := by omega
    obtain ⟨_, _, taken, behind⟩ := nextChunk_data positive parsed
    rw [next] at taken
    cases taken
    have strict' : ¬ Lenient (rest ++ unread s') := by
      rw [behind]
      exact fun lenient => strict (.later found sized positive lenient)
    obtain ⟨consumed, split, grammar⟩ := ih strict' onward
    have length := data_on_stream whole
    refine ⟨lineOf (buf ++ unread s) ++ crlf ++
      ((behindLine (buf ++ unread s)).take n ++ (crlf ++ consumed)), ?_, ?_⟩
    · have stream := chunk_of_strict found sized positive strict
      rw [← behind, split] at stream
      simpa only [List.append_assoc] using stream
    · rw [← length] at sized positive
      exact .chunk sized (List.length_pos_iff.mp positive) grammar

/-- What the decoder returns from: chunks whose data is the body. -/
def AcceptsOnlyChunks (prefetched : Bytes) (s : Socket) : Prop :=
  ∀ body s', decodeChunked [] prefetched s = .ok (body, s') →
    ∃ consumed left, prefetched ++ unread s = consumed ++ left ∧
      Decodes prefetched s body left ∧ Chunked consumed body

theorem AcceptsOnlyChunks.raises {prefetched : Bytes} {s : Socket}
    (accepts : AcceptsOnlyChunks prefetched s) (lenient : Lenient (prefetched ++ unread s)) :
    ∃ e, decodeChunked [] prefetched s = .error e := by
  cases returned : decodeChunked [] prefetched s with
  | error e => exact ⟨e, rfl⟩
  | ok result =>
    obtain ⟨consumed, left, split, -, grammar⟩ := accepts _ _ returned
    rw [split] at lenient
    exact absurd lenient (grammar.not_lenient left)

/-- The decoder raises on all but chunks exactly where its walk comes to no lenient round,
    or to a size line that raises. -/
theorem accepts_only_chunks_iff (prefetched : Bytes) (s : Socket) (whole : NoEnd prefetched s) :
    AcceptsOnlyChunks prefetched s ↔
      (Lenient (prefetched ++ unread s) → BadSizeLine prefetched s) := by
  constructor
  · intro accepts lenient
    exact decodeChunked_raises_iff.mp (accepts.raises lenient)
  · intro noticed body s' returned
    obtain ⟨_, left, rfl, decodes⟩ := decodes_of_decodeChunked returned
    have strict : ¬ Lenient (prefetched ++ unread s) := by
      intro lenient
      obtain ⟨e, raises⟩ := decodeChunked_raises_iff.mpr (noticed lenient)
      rw [returned] at raises
      cases raises
    obtain ⟨consumed, split, grammar⟩ := whole.chunked strict decodes
    exact ⟨consumed, left, split, decodes, grammar⟩

theorem five_spelled : SpellsSize (bytesLit "5") 5 :=
  ⟨by decide, by decide, by decide +kernel, by decide⟩

theorem zero_spelled : SpellsSize (bytesLit "0") 0 :=
  ⟨by decide, by decide, by decide +kernel, by decide⟩

theorem noEnd_last : NoEnd (bytesLit "0\r\n\r\n") [] :=
  .last (by decide) (by decide) (by decide)

/-- What is received behind `5\r\nhe`. -/
def helloRest : Socket := [⟨bytesLit "llo\r\n0\r\n\r\n", by decide, by decide⟩]

theorem hello_is_one_chunk :
    NoEnd (bytesLit "5\r\nhe") helloRest ∧ AcceptsOnlyChunks (bytesLit "5\r\nhe") helloRest := by
  have next : nextChunk (bytesLit "5\r\nhe") helloRest =
      .ok (.data (bytesLit "hello") (bytesLit "0\r\n\r\n") []) := by
    unfold nextChunk
    rfl
  have parsed : chunkSize (readLine (bytesLit "5\r\nhe") helloRest).1.1 = .ok 5 := by decide
  have whole : NoEnd (bytesLit "5\r\nhe") helloRest :=
    .chunk (by decide) parsed (by decide) (by decide +kernel) next noEnd_last
  have nonempty : bytesLit "hello" ≠ [] := by decide
  have chunks : Chunked (bytesLit "5\r\nhello\r\n0\r\n") (bytesLit "hello") :=
    .chunk five_spelled nonempty (.last zero_spelled)
  have strict : ¬ Lenient (bytesLit "5\r\nhe" ++ unread helloRest) := chunks.not_lenient crlf
  exact ⟨whole, (accepts_only_chunks_iff _ _ whole).mpr fun lenient => absurd lenient strict⟩

/-- `XX` in the place of the CRLF behind the data. -/
def skipped : Bytes := bytesLit "5\r\nhelloXX0\r\n\r\n"

theorem nextChunk_skipped :
    nextChunk skipped [] = .ok (.data (bytesLit "hello") (bytesLit "0\r\n\r\n") []) := by
  unfold nextChunk
  rfl

/-- Data that two other bytes follow, and a blank line in the place of the last chunk. -/
theorem not_chunks_accepted :
    (NoEnd skipped [] ∧ ¬ AcceptsOnlyChunks skipped []) ∧
      NoEnd (bytesLit "\r\n\r\n") [] ∧ ¬ AcceptsOnlyChunks (bytesLit "\r\n\r\n") [] := by
  refine ⟨⟨?_, ?_⟩, .last (by decide) (by decide) (by decide), ?_⟩
  · have parsed : chunkSize (readLine skipped []).1.1 = .ok 5 := by decide
    exact .chunk (by decide) parsed (by decide) (by decide +kernel) nextChunk_skipped noEnd_last
  · intro accepts
    have found : cut crlf skipped = some (bytesLit "5", bytesLit "helloXX0\r\n\r\n") := by decide
    obtain ⟨e, raises⟩ := accepts.raises (.data found five_spelled (by decide) (by decide))
    obtain ⟨s', ends⟩ : ∃ s', nextChunk (bytesLit "0\r\n\r\n") [] = .ok (.last s') :=
      nextChunk_last (by decide)
    rw [decodeChunked_data nextChunk_skipped, decodeChunked_last ends] at raises
    cases raises
  · intro accepts
    have found : cut crlf (bytesLit "\r\n\r\n") = some ([], crlf) := by decide
    have blank : ∀ n, ¬ SpellsSize [] n := fun n sized => sized.nonempty (by decide)
    obtain ⟨e, raises⟩ := accepts.raises (.size found chunkSize_nil blank)
    obtain ⟨s', ends⟩ : ∃ s', nextChunk (bytesLit "\r\n\r\n") [] = .ok (.last s') :=
      nextChunk_last (by decide)
    rw [decodeChunked_last ends] at raises
    cases raises

end Excalibur.Http
