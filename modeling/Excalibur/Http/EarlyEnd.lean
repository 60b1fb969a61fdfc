import Excalibur.Http.Chunks

/-! # Responses that end early

Every receive loop leaves off when the server has closed, and nothing behind the
loops asks whether it got what it was reading for.  The only complaint comes from
a size line that is no number: `early_end_noticed_iff`.
-/

namespace Excalibur.Http

open Excalibur.Library Excalibur.Python

/-! ## Complete bodies -/

def headOf (stream : Bytes) : Bytes := (partition (crlf ++ crlf) stream).1

def bodyOf (stream : Bytes) : Bytes := (partition (crlf ++ crlf) stream).2

/-- The framing that the headers of the stream ask for, if they can be read. -/
def selected (stream : Bytes) : Except PyError Framing := do
  let (_, _, headers) ← parseHead (headOf stream)
  framing headers

/-- Whole chunks up to a last chunk, whose size is spelled out. -/
inductive ChunksComplete : Bytes → Prop where
  | last {stream line rest : Bytes} (found : cut crlf stream = some (line, rest))
      (spelled : sizeField line ≠ []) (zero : chunkSize line = .ok 0) : ChunksComplete stream
  | chunk {stream line rest : Bytes} {n : Nat} (found : cut crlf stream = some (line, rest))
      (size : chunkSize line = .ok n) (positive : 0 < n) (whole : n + 2 ≤ rest.length)
      (more : ChunksComplete (rest.drop (n + 2))) : ChunksComplete stream

/-- What has been received of the body when the header block is complete. -/
def prefetched (s : Socket) : Bytes := (readUntil (crlf ++ crlf) s).1.2

/-- The socket at that moment. -/
def behindHead (s : Socket) : Socket := (readUntil (crlf ++ crlf) s).2

def Complete (stream : Bytes) : Framing → Prop
  | .chunked => ChunksComplete (bodyOf stream)
  | .contentLength n => n ≤ (bodyOf stream).length
  | .untilClose => True

/-- The stream ends before the body is complete in the framing that is asked for. -/
def EndsEarly (stream : Bytes) : Prop := ∃ f, selected stream = .ok f ∧ ¬ Complete stream f

/-- The decoder comes to a size line that is neither blank nor an integer in base 16. -/
inductive BadSizeLine : Bytes → Socket → Prop where
  | here {buf : Bytes} {s : Socket} {e : PyError}
      (bad : chunkSize (readLine buf s).1.1 = .error e) : BadSizeLine buf s
  | later {buf items rest : Bytes} {s s' : Socket}
      (next : nextChunk buf s = .ok (.data items rest s')) (bad : BadSizeLine rest s') :
      BadSizeLine buf s

def BadChunk (s : Socket) : Prop :=
  selected (unread s) = .ok .chunked ∧ BadSizeLine (prefetched s) (behindHead s)

/-! ## What the client sees of a stream -/

theorem readUntil_head (s : Socket) : (readUntil (crlf ++ crlf) s).1.1 = headOf (unread s) :=
  (fill_partition (crlf ++ crlf) [] s).1

theorem readUntil_body (s : Socket) :
    prefetched s ++ unread (behindHead s) = bodyOf (unread s) :=
  (fill_partition (crlf ++ crlf) [] s).2

/-- The head is a part of the stream; only the body is read through a buffer. -/
theorem httpGet_eq (s : Socket) : httpGet s = (do
    let (status, reason, headers) ← parseHead (headOf (unread s))
    let f ← framing headers
    let body ← readBody (prefetched s) (behindHead s) f
    return ⟨status, reason, headers, body⟩) := by
  rw [← readUntil_head]
  rfl

theorem httpGet_raises_iff {s : Socket} {f : Framing} (selects : selected (unread s) = .ok f) :
    (∃ e, httpGet s = .error e) ↔
      ∃ e, readBody (prefetched s) (behindHead s) f = .error e := by
  obtain ⟨⟨status, reason, headers⟩, parsed, framed⟩ := bind_eq_ok.mp selects
  simp only [httpGet_eq, parsed, framed, bind, Except.bind]
  cases readBody (prefetched s) (behindHead s) f with
  | error e => simp
  | ok body => simp [pure, Except.pure]

/-! ## What raises -/

theorem decodeChunked_raises_iff {body buf : Bytes} {s : Socket} :
    (∃ e, decodeChunked body buf s = .error e) ↔ BadSizeLine buf s := by
  constructor
  · rintro ⟨e, raised⟩
    -- Along the rounds of the decoder: the round that raises is the one with the bad line.
    induction body, buf, s using decodeChunked.induct with
    | case1 body buf s e' failed =>
      rw [nextChunk] at failed
      cases parsed : chunkSize (readLine buf s).1.1 with
      | error e'' => exact .here parsed
      | ok size =>
        simp only [parsed, bind, Except.bind] at failed
        split at failed <;> cases failed
    | case2 body buf s s' last =>
      rw [decodeChunked_last last] at raised
      cases raised
    | case3 body buf s items rest s' next ih =>
      rw [decodeChunked_data next] at raised
      exact .later next (ih raised)
  · intro bad
    -- Along the walk to the bad line, whatever was decoded before it.
    induction bad generalizing body with
    | here bad =>
      rw [readLine_line] at bad
      exact ⟨_, decodeChunked_error (nextChunk_error bad)⟩
    | later next _ ih =>
      rw [decodeChunked_data next]
      exact ih

theorem readBody_raises_iff {rest : Bytes} {s : Socket} {f : Framing} :
    (∃ e, readBody rest s f = .error e) ↔ f = .chunked ∧ BadSizeLine rest s := by
  cases f with
  | chunked =>
    have decoder : (∃ e, decodeChunked [] rest s = .error e) ↔ BadSizeLine rest s :=
      decodeChunked_raises_iff
    rw [← decoder]
    simp only [readBody, bind, Except.bind, true_and]
    cases decodeChunked [] rest s with
    | error e => simp
    | ok result => simp [pure, Except.pure]
  | contentLength n => simp [readBody]
  | untilClose => simp [readBody]

/-! ## Early ends -/

/-- Five bytes are announced and two arrive. -/
def shortResponse : Socket :=
  [⟨bytesLit "HTTP/1.1 200 OK\r\nContent-Length: 5\r\n\r\nab", by decide, by decide⟩]

end Excalibur.Http
