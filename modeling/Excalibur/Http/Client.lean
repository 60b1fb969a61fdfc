import Excalibur.Library.Stream
import Excalibur.Python.IntParse

/-! # The HTTP/1.1 client on the bytes of one response

The request has been sent; what is left of the socket are the segments that
`recv(4096)` returns before the server closes.  Every helper reads through a
buffer, and slices follow Python: bounds below zero count from the end.
-/

namespace Excalibur.Http

open Excalibur.Library Excalibur.Python

/-- The segments that `recv(4096)` returns until it returns nothing. -/
abbrev Socket := List (Segment UInt8 4096)

def crlf : Bytes := [13, 10]

structure RawHTTPResponse where
  status : Int
  reason : Str
  headers : Dict Str Str
  body : Bytes

/-- How the headers frame the body. -/
inductive Framing where
  | chunked
  | contentLength (n : Int)
  | untilClose
deriving DecidableEq

/-! ## Reading from the socket

Each helper answers with what it has read, what its buffer still holds and the
rest of the socket. -/

/-- `_read_until`: what comes before the marker and what the buffer holds after it. -/
def readUntil (marker : Bytes) (s : Socket) : (Bytes × Bytes) × Socket :=
  let (buf, s) := fill (occursIn marker) [] s
  (partition marker buf, s)

def recvExactly (s : Socket) (n : Int) (prefetched : Bytes) : (Bytes × Bytes) × Socket :=
  let (buf, s) := fill (fun buf => n ≤ buf.length) prefetched s
  ((sliceTo buf n, sliceFrom buf n), s)

def readToClose (s : Socket) (prefetched : Bytes) : Bytes :=
  (fill (fun _ => false) prefetched s).1

/-! ## Chunked bodies

A size line ends with CRLF or with the stream; its field stands before the first
semicolon. -/

def readLine (buf : Bytes) (s : Socket) : (Bytes × Bytes) × Socket :=
  let (buf, s) := fill (occursIn crlf) buf s
  (partition crlf buf, s)

def sizeField (line : Bytes) : Bytes := stripBy isAsciiSpace (partition [59] line).1

def chunkSize (line : Bytes) : Except PyError Int :=
  -- A blank field counts as the text of zero.
  intOfHexBytes (if sizeField line = [] then [48] else sizeField line)

/-- Read the data of a chunk and skip the CRLF behind it: the data, the rest of
    the buffer and the socket. -/
def readChunk (size : Int) (buf : Bytes) (s : Socket) : (Bytes × Bytes) × Socket :=
  let (buf, s) := fill (fun buf => size + 2 ≤ buf.length) buf s
  ((sliceTo buf size, sliceFrom buf (size + 2)), s)

theorem chunkSize_nil : chunkSize [] = .ok 0 := by decide

theorem length_readChunk_le (size : Int) (buf : Bytes) (s : Socket) :
    (readChunk size buf s).1.2.length + (unread (readChunk size buf s).2).length ≤
      buf.length + (unread s).length := by
  have length := fill_length (fun buf => decide (size + 2 ≤ (buf.length : Int))) buf s
  have shorter := length_sliceFrom_le
    (fill (fun buf => decide (size + 2 ≤ (buf.length : Int))) buf s).1 (size + 2)
  simp only [readChunk]
  omega

theorem length_readLine_lt {buf : Bytes} {s : Socket} {size : Int}
    (parsed : chunkSize (readLine buf s).1.1 = .ok size) (more : size ≠ 0) :
    (readLine buf s).1.2.length + (unread (readLine buf s).2).length <
      buf.length + (unread s).length := by
  have length := fill_length (occursIn crlf) buf s
  rcases found : cut crlf (fill (occursIn crlf) buf s).1 with _ | ⟨before, after⟩
  · -- No line end: the stream has ended and the line is all of the buffer.
    have noLine : occursIn crlf (fill (occursIn crlf) buf s).1 = false := by simp [occursIn, found]
    have ended : (fill (occursIn crlf) buf s).2 = [] := by
      simpa [noLine] using fill_stops (occursIn crlf) buf s
    have line : (readLine buf s).1 = ((fill (occursIn crlf) buf s).1, []) := by
      simp [readLine, partition, found]
    have nonempty : (fill (occursIn crlf) buf s).1 ≠ [] := by
      intro empty
      rw [line, empty, chunkSize_nil] at parsed
      exact more (Except.ok.inj parsed).symm
    have positive := List.length_pos_iff.mpr nonempty
    rw [line]
    simp only [readLine, ended, unread_nil, List.length_nil] at length ⊢
    omega
  · have shorter := length_after_lt (by decide) found
    simp only [readLine, partition, found, Option.getD_some]
    omega

/-- What one round of the loop in `_decode_chunked` comes to: the last chunk, or
    data with the rest of the buffer. -/
inductive Round where
  | last (s : Socket)
  | data (items rest : Bytes) (s : Socket)

@[irreducible] def nextChunk (buf : Bytes) (s : Socket) : Except PyError Round := do
  let ((line, buf), s) := readLine buf s
  let size ← chunkSize line
  if size = 0 then
    -- The CRLF behind the last chunk is read and discarded.
    return .last (fill (occursIn crlf) buf s).2
  else
    let ((items, buf), s) := readChunk size buf s
    return .data items buf s

theorem length_nextChunk_lt {buf rest items : Bytes} {s s' : Socket}
    (next : nextChunk buf s = .ok (.data items rest s')) :
    rest.length + (unread s').length < buf.length + (unread s).length := by
  rw [nextChunk] at next
  obtain ⟨size, parsed, chosen⟩ := bind_eq_ok.mp next
  split at chosen
  · cases chosen
  · rename_i more
    cases chosen
    exact lt_of_le_of_lt (length_readChunk_le _ _ _) (length_readLine_lt parsed more)

/-- `_decode_chunked`, after the chunks in `body`; also what is left of the socket. -/
def decodeChunked (body buf : Bytes) (s : Socket) : Except PyError (Bytes × Socket) :=
  match _next : nextChunk buf s with
  | .error e => .error e
  | .ok (.last s) => .ok (body, s)
  | .ok (.data items rest s') => decodeChunked (body ++ items) rest s'
termination_by buf.length + (unread s).length
decreasing_by exact length_nextChunk_lt _next

/-! ## The head -/

/-- `str.lower` on a character of latin1. -/
def lowerLatin1 (c : Char) : Char :=
  if (65 ≤ c.toNat ∧ c.toNat ≤ 90) ∨ (192 ≤ c.toNat ∧ c.toNat ≤ 222 ∧ c.toNat ≠ 215) then
    Char.ofNat (c.toNat + 32)
  else c

def lower (text : Str) : Str := text.map lowerLatin1

/-- The status and reason of a status line; missing parts are empty. -/
def parseStatusLine (line : Bytes) : Except PyError (Int × Str) :=
  match splitUpTo [' '] 2 (decodeLatin1 line) ++ [[], []] with
  | _proto :: status :: reason :: _ => do
    let status ← intOfStr status
    return (status, reason)
  | _ => .error .valueError  -- the parts and the two empty texts are always three

def addHeader (headers : Dict Str Str) (line : Bytes) : Dict Str Str :=
  if occursIn [58] line then
    let (k, v) := partition [58] line
    headers.insert (lower (stripBy isSpace (decodeLatin1 k))) (stripBy isSpace (decodeLatin1 v))
  else headers

def parseHead (head : Bytes) : Except PyError (Int × Str × Dict Str Str) :=
  match splitAll crlf (by decide) head with
  | [] => .error .indexError
  | first :: lines => do
    let (status, reason) ← parseStatusLine first
    return (status, reason, lines.foldl addHeader ∅)

def framing (headers : Dict Str Str) : Except PyError Framing :=
  -- Chunked takes precedence over a length.
  if lower ((headers.lookup (lit "transfer-encoding")).getD []) = lit "chunked" then .ok .chunked
  else
    match headers.lookup (lit "content-length") with
    | some text => do
      let n ← intOfStr text
      return .contentLength n
    | none => .ok .untilClose

/-- Read the body in its framing. -/
def readBody (rest : Bytes) (s : Socket) : Framing → Except PyError Bytes
  | .chunked => do
    let (body, _) ← decodeChunked [] rest s
    return body
  | .contentLength n => .ok (recvExactly s n rest).1.1
  | .untilClose => .ok (readToClose s rest)

/-- `http_get`, from the moment the request is sent. -/
def httpGet (s : Socket) : Except PyError RawHTTPResponse := do
  let ((head, rest), s) := readUntil (crlf ++ crlf) s
  let (status, reason, headers) ← parseHead head
  let body ← readBody rest s (← framing headers)
  return ⟨status, reason, headers, body⟩

end Excalibur.Http
