import Excalibur.Http.Client

/-! # Chunked bodies, however they are cut

One round of the decoder depends on the buffer followed by the unread stream
alone, unless the size is negative: `nextChunk_last`, `nextChunk_data` and
`nextChunk_error` say what it does to the stream.  A body that is encoded chunk
by chunk is then decoded by induction over its chunks.
-/

namespace Excalibur.Http

open Excalibur.Library Excalibur.Python

def lineOf (stream : Bytes) : Bytes := (partition crlf stream).1

def behindLine (stream : Bytes) : Bytes := (partition crlf stream).2

/-! ## One round on the stream -/

section Rounds

variable {buf : Bytes} {s : Socket}

theorem readLine_line : (readLine buf s).1.1 = lineOf (buf ++ unread s) :=
  (fill_partition crlf buf s).1

theorem readLine_behind :
    (readLine buf s).1.2 ++ unread (readLine buf s).2 = behindLine (buf ++ unread s) :=
  (fill_partition crlf buf s).2

theorem nextChunk_error {e : PyError} (bad : chunkSize (lineOf (buf ++ unread s)) = .error e) :
    nextChunk buf s = .error e := by
  rw [← readLine_line] at bad
  simp only [nextChunk, bad, bind, Except.bind]

theorem nextChunk_last (zero : chunkSize (lineOf (buf ++ unread s)) = .ok 0) :
    ∃ s', nextChunk buf s = .ok (.last s') := by
  rw [← readLine_line] at zero
  simp only [nextChunk, zero, bind, Except.bind, if_true]
  exact ⟨_, rfl⟩

/-- A chunk of positive size takes its data and two more bytes off the stream. -/
theorem nextChunk_data {n : Nat} (positive : 0 < n)
    (parsed : chunkSize (lineOf (buf ++ unread s)) = .ok n) :
    ∃ rest s', nextChunk buf s =
        .ok (.data ((behindLine (buf ++ unread s)).take n) rest s') ∧
      rest ++ unread s' = (behindLine (buf ++ unread s)).drop (n + 2) := by
  rw [← readLine_line] at parsed
  rw [← readLine_behind]
  have reaches : ∀ items : Bytes, decide ((n : Int) + 2 ≤ (items.length : Int)) = true →
      n + 2 ≤ items.length := by
    intro items holds
    have bound := of_decide_eq_true holds
    omega
  have taken := fill_take (readLine buf s).1.2 (readLine buf s).2 reaches (by omega : n ≤ n + 2)
  have dropped := fill_drop (readLine buf s).1.2 (readLine buf s).2 reaches (le_refl (n + 2))
  have more : (n : Int) ≠ 0 := by omega
  have skip : (n : Int) + 2 = ((n + 2 : Nat) : Int) := by simp
  refine ⟨_, _, ?_, dropped⟩
  simp only [nextChunk, parsed, bind, Except.bind, if_neg more, readChunk, pure, Except.pure,
    sliceTo_natCast, taken]
  rw [skip, sliceFrom_natCast]

end Rounds

/-! ## The loop -/

section Loop

variable {body buf rest items : Bytes} {s s' : Socket}

-- The equation without the hypothesis that the termination proof needed.
theorem decodeChunked_eq (body buf : Bytes) (s : Socket) :
    decodeChunked body buf s =
      match nextChunk buf s with
      | .error e => .error e
      | .ok (.last s) => .ok (body, s)
      | .ok (.data items rest s') => decodeChunked (body ++ items) rest s' := by
  rw [decodeChunked]
  cases nextChunk buf s with
  | error e => rfl
  | ok round =>
    cases round with
    | last s => rfl
    | data items rest s' => rfl

theorem decodeChunked_error {e : PyError} (next : nextChunk buf s = .error e) :
    decodeChunked body buf s = .error e := by
  rw [decodeChunked_eq, next]

theorem decodeChunked_last (next : nextChunk buf s = .ok (.last s')) :
    decodeChunked body buf s = .ok (body, s') := by
  rw [decodeChunked_eq, next]

theorem decodeChunked_data (next : nextChunk buf s = .ok (.data items rest s')) :
    decodeChunked body buf s = decodeChunked (body ++ items) rest s' := by
  rw [decodeChunked_eq, next]

end Loop

/-! ## The encoding -/

/-- A chunk size in hexadecimal and its extensions. -/
structure SizeLine where
  digits : Bytes
  extensions : Bytes
  spelled : digits ≠ []
  hexadecimal : ∀ b ∈ digits, (hexValue b).isSome
  separated : extensions = [] ∨
    ∃ blanks more, extensions = blanks ++ 59 :: more ∧ ∀ b ∈ blanks, b = 9 ∨ b = 32
  oneLine : ∀ b ∈ extensions, b ≠ 13 ∧ b ≠ 10

def SizeLine.bytes (line : SizeLine) : Bytes := line.digits ++ line.extensions

def SizeLine.size (line : SizeLine) : Nat := ofDigits 16 (line.digits.filterMap hexValue)

structure Chunk where
  line : SizeLine
  data : Bytes
  nonempty : data ≠ []
  sized : line.size = data.length

def Chunk.bytes (chunk : Chunk) : Bytes := chunk.line.bytes ++ crlf ++ chunk.data ++ crlf

/-- Chunks, a last chunk of size zero and trailer lines. -/
structure ChunkedBody where
  chunks : List Chunk
  last : SizeLine
  zero : last.size = 0
  trailers : List Bytes

def ChunkedBody.bytes (encoded : ChunkedBody) : Bytes :=
  encoded.chunks.flatMap Chunk.bytes ++ (encoded.last.bytes ++ crlf ++
    (encoded.trailers.flatMap (fun line => line ++ crlf) ++ crlf))

def ChunkedBody.data (encoded : ChunkedBody) : Bytes := encoded.chunks.flatMap Chunk.data

theorem SizeLine.not_mem_bytes (line : SizeLine) : (13 : UInt8) ∉ line.bytes := by
  intro member
  cases List.mem_append.mp member with
  | inl inDigits => exact absurd (line.hexadecimal 13 inDigits) (by decide)
  | inr inExtensions => exact (line.oneLine 13 inExtensions).1 rfl

theorem SizeLine.sizeField_eq (line : SizeLine) : sizeField line.bytes = line.digits := by
  have notSpace : ∀ b ∈ line.digits, isAsciiSpace b = false := fun b member =>
    isAsciiSpace_of_hexValue (line.hexadecimal b member)
  have noSemicolon : (59 : UInt8) ∉ line.digits := fun member =>
    absurd (line.hexadecimal 59 member) (by decide)
  have front : ∀ first ∈ line.digits.head?, isAsciiSpace first = false := fun first head =>
    notSpace first (List.mem_of_mem_head? head)
  have back : ∀ last ∈ line.digits.getLast?, isAsciiSpace last = false := fun last ends =>
    notSpace last (List.mem_of_mem_getLast? ends)
  rcases line.separated with none | ⟨blanks, more, split, blank⟩
  · rw [sizeField, SizeLine.bytes, none, List.append_nil, partition_of_not_mem noSemicolon]
    exact stripBy_eq_self front back
  · have noneBefore : (59 : UInt8) ∉ line.digits ++ blanks := by
      rw [List.mem_append, not_or]
      refine ⟨noSemicolon, fun member => ?_⟩
      cases blank 59 member with
      | inl same => exact absurd same (by decide)
      | inr same => exact absurd same (by decide)
    -- The field is what stands before the semicolon, without the blanks at its end.
    have whole : line.bytes = line.digits ++ blanks ++ [59] ++ more := by
      rw [SizeLine.bytes, split]
      simp
    rw [sizeField, whole, partition_append_of_not_mem noneBefore]
    apply stripBy_append line.spelled front back
    intro b member
    rcases blank b member with rfl | rfl
    · rfl
    · rfl

theorem SizeLine.chunkSize_eq (line : SizeLine) : chunkSize line.bytes = .ok (line.size : Int) := by
  rw [chunkSize, line.sizeField_eq, if_neg line.spelled,
    intOfHexBytes_of_digits line.spelled line.hexadecimal, SizeLine.size]

theorem partition_line (line : SizeLine) (rest : Bytes) :
    lineOf (line.bytes ++ crlf ++ rest) = line.bytes ∧
      behindLine (line.bytes ++ crlf ++ rest) = rest := by
  have split : partition crlf (line.bytes ++ crlf ++ rest) = (line.bytes, rest) :=
    partition_append_of_not_mem line.not_mem_bytes
  exact ⟨congrArg Prod.fst split, congrArg Prod.snd split⟩

/-! ## Decoding undoes the encoding -/

theorem decodeChunked_encoded (chunks : List Chunk) {last : SizeLine} (zero : last.size = 0)
    (trailer body buf : Bytes) (s : Socket)
    (cut : buf ++ unread s = chunks.flatMap Chunk.bytes ++ (last.bytes ++ crlf ++ trailer)) :
    ∃ s', decodeChunked body buf s = .ok (body ++ chunks.flatMap Chunk.data, s') := by
  induction chunks generalizing body buf s with
  | nil =>
    rw [List.flatMap_nil, List.nil_append] at cut
    have parsed : chunkSize (lineOf (buf ++ unread s)) = .ok 0 := by
      rw [cut, (partition_line last trailer).1, last.chunkSize_eq, zero]
      rfl
    obtain ⟨s', done⟩ := nextChunk_last parsed
    exact ⟨s', by rw [decodeChunked_last done]; simp⟩
  | cons chunk chunks ih =>
    -- The first size line, and behind it the data, its CRLF and the other chunks.
    have cut' : buf ++ unread s = chunk.line.bytes ++ crlf ++ (chunk.data ++ (crlf ++
        (chunks.flatMap Chunk.bytes ++ (last.bytes ++ crlf ++ trailer)))) := by
      rw [cut, List.flatMap_cons, Chunk.bytes]
      simp only [List.append_assoc]
    have parsed : chunkSize (lineOf (buf ++ unread s)) = .ok (chunk.data.length : Int) := by
      rw [cut', (partition_line chunk.line _).1, chunk.line.chunkSize_eq, chunk.sized]
    obtain ⟨rest, s', next, left⟩ :=
      nextChunk_data (List.length_pos_iff.mpr chunk.nonempty) parsed
    rw [cut', (partition_line chunk.line _).2] at next left
    rw [List.take_left] at next
    -- What is left behind the data and its CRLF are the other chunks.
    rw [← List.drop_drop, List.drop_left, List.drop_left' (by rfl)] at left
    obtain ⟨finish, decoded⟩ := ih (body ++ chunk.data) rest s' left
    refine ⟨finish, ?_⟩
    rw [decodeChunked_data next, decoded, List.flatMap_cons, List.append_assoc]

/-- A chunked body is decoded to its data, whatever part of it was prefetched and
    however the rest is cut. -/
theorem decode_chunked_recovers_data (encoded : ChunkedBody) (prefetched : Bytes) (s : Socket)
    (cut : prefetched ++ unread s = encoded.bytes) :
    ∃ s', decodeChunked [] prefetched s = .ok (encoded.data, s') := by
  have decoded := decodeChunked_encoded encoded.chunks encoded.zero
    (encoded.trailers.flatMap (fun line => line ++ crlf) ++ crlf) [] prefetched s cut
  rwa [List.nil_append] at decoded

/-- `hi`, and a chunk that looks like the last one. -/
def sampleBody : ChunkedBody where
  chunks :=
    [{ line := ⟨bytesLit "02", bytesLit " ;x=1", by decide, by simp [bytesLit, hexValue],
        .inr ⟨[32], bytesLit "x=1", by decide, by simp⟩, by simp [bytesLit]⟩
       data := bytesLit "hi"
       nonempty := by decide
       sized := by decide },
     { line := ⟨bytesLit "5", [], by decide, by simp [bytesLit, hexValue], .inl rfl, by simp⟩
       data := bytesLit "0\r\n\r\n"
       nonempty := by decide
       sized := by decide }]
  last := ⟨bytesLit "000", [], by decide, by simp [bytesLit, hexValue], .inl rfl, by simp⟩
  zero := by decide
  trailers := [bytesLit "a: b"]

/-- The sample body cut behind the first byte, between a CR and its LF and inside
    the second chunk. -/
theorem sampleBody_recovered : ∃ s',
    decodeChunked [] (bytesLit "0")
      [⟨bytesLit "2 ;x=1\r", by decide, by decide⟩, ⟨bytesLit "\nhi\r\n5\r\n0\r", by decide, by decide⟩,
        ⟨bytesLit "\n\r\n\r\n000\r\na: b\r\n\r\n", by decide, by decide⟩] =
      .ok (bytesLit "hi0\r\n\r\n", s') :=
  decode_chunked_recovers_data sampleBody _ _ (by decide)

end Excalibur.Http
