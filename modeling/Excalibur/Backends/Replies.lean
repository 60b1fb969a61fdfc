import Excalibur.Backends.Relay
import Excalibur.Http.Framing
import Excalibur.Python.Hex

/-! # What the backends reply

`DemoHandler` and the handler of `Backend` write a status line, header lines and a body
through `BaseHTTPRequestHandler`, whose own texts are a parameter here.  The body ends with
its length, with an empty chunk or with the connection.

A reply is read back by `http_get` as it was meant, however it is cut, also behind the
proxy: the client learns the name of the member that was selected, or that there was none.
Only a handler that writes an empty piece would lose what it writes after that.
-/

namespace Excalibur.Backends

open Excalibur.Library Excalibur.Python Excalibur.Http

/-! ## Header lines -/

/-- A text that stays on its line and that `strip` leaves alone. -/
structure LineText where
  text : Str
  latin1 : ∀ c ∈ text, c.toNat < 256
  oneLine : '\n' ∉ text
  trimmed : stripBy isSpace text = text

/-- `encode("latin-1")` -/
def LineText.bytes (t : LineText) : Bytes := t.text.map fun c => UInt8.ofNat c.toNat

structure Field where
  name : LineText
  value : LineText
  noColon : ':' ∉ name.text

def Field.line (f : Field) : Bytes := f.name.bytes ++ bytesLit ": " ++ f.value.bytes

/-- The dictionary that a client makes of the fields. -/
def headersOf (fields : List Field) : Dict Str Str :=
  fields.foldl (fun headers f => headers.insert (lower f.name.text) f.value.text) ∅

namespace LineText

variable (t : LineText)

@[simp] theorem decodeLatin1_bytes : decodeLatin1 t.bytes = t.text := by
  rw [decodeLatin1, bytes, List.map_map]
  refine (List.map_congr_left fun c member => ?_).trans (List.map_id _)
  have small := t.latin1 c member
  simp [Nat.mod_eq_of_lt small, Char.ofNat_toNat]

theorem mem_of_mem_bytes {c : Char} (small : c.toNat < 256) (member : UInt8.ofNat c.toNat ∈ t.bytes) :
    c ∈ t.text := by
  obtain ⟨d, inside, same⟩ := List.mem_map.mp member
  have number := congrArg UInt8.toNat same
  simp only [UInt8.toNat_ofNat', Nat.reducePow, Nat.mod_eq_of_lt small,
    Nat.mod_eq_of_lt (t.latin1 d inside)] at number
  obtain rfl : d = c := Char.toNat_inj.mp number
  exact inside

theorem no_line_feed : 10 ∉ t.bytes := fun member =>
  t.oneLine (t.mem_of_mem_bytes (c := '\n') (by decide) member)

end LineText

namespace Field

variable (f : Field)

theorem line_oneLine : f.line ≠ [] ∧ 10 ∉ f.line := by
  constructor
  · simp [line, bytesLit]
  · simp [line, bytesLit, f.name.no_line_feed, f.value.no_line_feed]

/-- The client reads the name in lower case and the value. -/
@[simp] theorem fieldOf_line : fieldOf f.line = some (lower f.name.text, f.value.text) := by
  have noColon : 58 ∉ f.name.bytes := fun member =>
    f.noColon (f.name.mem_of_mem_bytes (c := ':') (by decide) member)
  have split : cut [58] f.line = some (f.name.bytes, 32 :: f.value.bytes) := by
    have shape : f.line = f.name.bytes ++ [58] ++ 32 :: f.value.bytes := by simp [line, bytesLit]
    rw [shape, cut_append_of_not_mem noColon]
  have blank : stripBy isSpace (' ' :: f.value.text) = f.value.text := by
    conv_rhs => rw [← f.value.trimmed]
    rw [stripBy, List.dropWhile_cons_of_pos (by decide), ← stripBy]
  have behind : decodeLatin1 (32 :: f.value.bytes) = ' ' :: f.value.text := by
    rw [← f.value.decodeLatin1_bytes]
    rfl
  rw [fieldOf, occursIn, partition, split]
  simp [behind, blank, f.name.trimmed]

end Field

theorem foldl_addHeader (fields : List Field) :
    (fields.map Field.line).foldl addHeader ∅ = headersOf fields := by
  simp only [headersOf, List.foldl_map, addHeader_eq, Field.fieldOf_line]

theorem fieldValues_lines (name : Str) (fields : List Field) :
    fieldValues name (fields.map Field.line) =
      (fields.filter fun f => lower f.name.text = name).map fun f => f.value.text := by
  induction fields with
  | nil => rfl
  | cons f fields ih =>
    rw [fieldValues] at ih
    by_cases same : lower f.name.text = name
    · simp [fieldValues, valueIn, same, ih]
    · simp [fieldValues, valueIn, same, ih]

/-! ## Handlers -/

/-- `str(n)` -/
def number (n : Nat) : LineText where
  text := strOfInt n
  latin1 c member := by
    have range := digit_range member
    omega
  oneLine := not_mem_strOfInt (by decide) (by decide)
  trimmed := by
    have notSpace : ∀ c ∈ strOfInt n, isSpace c = false := by
      intro c member
      have range := digit_range member
      simp only [isSpace, Bool.or_eq_false_iff, Bool.and_eq_false_iff, decide_eq_false_iff_not,
        beq_eq_false_iff_ne]
      omega
    exact stripBy_eq_self (fun c first => notSpace c (List.mem_of_mem_head? first))
      (fun c last => notSpace c (List.mem_of_mem_getLast? last))

def serverName : LineText := ⟨lit "Server", by simp [lit], by decide, by decide⟩
def dateName : LineText := ⟨lit "Date", by simp [lit], by decide, by decide⟩
def plainText : Field where
  name := ⟨lit "Content-Type", by simp [lit], by decide, by decide⟩
  value := ⟨lit "text/plain", by simp [lit], by decide, by decide⟩
  noColon := by decide
def transferChunked : Field where
  name := ⟨lit "Transfer-Encoding", by simp [lit], by decide, by decide⟩
  value := ⟨lit "chunked", by simp [lit], by decide, by decide⟩
  noColon := by decide
def contentLength (n : Nat) : Field where
  name := ⟨lit "Content-Length", by simp [lit], by decide, by decide⟩
  value := number n
  noColon := by decide

/-- What `BaseHTTPRequestHandler` puts into the replies of its subclasses. -/
structure BaseHandler where
  protocolVersion : LineText
  noSpace : ' ' ∉ protocolVersion.text
  /-- `responses[code][0]` -/
  responses : Nat → LineText
  versionString : LineText
  dateTimeString : LineText

def sendHeader (f : Field) : Bytes := f.line ++ crlf

def endHeaders : Bytes := crlf

namespace BaseHandler

variable (h : BaseHandler)

def statusLine (code : Nat) : Bytes :=
  h.protocolVersion.bytes ++ [32] ++ (number code).bytes ++ [32] ++ (h.responses code).bytes

def standardFields : List Field :=
  [⟨serverName, h.versionString, by decide⟩, ⟨dateName, h.dateTimeString, by decide⟩]

def sendResponse (code : Nat) : Bytes :=
  h.statusLine code ++ crlf ++ h.standardFields.flatMap sendHeader

end BaseHandler

/-- `b"%X" % n` -/
def hexUpper (n : Nat) : Bytes := (upperHex n).map fun c => UInt8.ofNat c.toNat

def writeChunk (piece : Bytes) : Bytes := hexUpper piece.length ++ crlf ++ piece ++ crlf

def lastChunk : Bytes := bytesLit "0\r\n\r\n"

/-- `DemoHandler.do_GET` -/
def DemoHandler.doGet (h : BaseHandler) (path : Str) : Bytes :=
  if path = lit "/chunked" then
    h.sendResponse 200 ++ sendHeader plainText ++ sendHeader transferChunked ++ endHeaders ++
      [bytesLit "chunk-one ", bytesLit "chunk-two ", bytesLit "chunk-three"].flatMap writeChunk ++
      lastChunk
  else
    let body := bytesLit "hello over content-length"
    h.sendResponse 200 ++ sendHeader plainText ++ sendHeader (contentLength body.length) ++
      endHeaders ++ body

structure Backend where
  name : Str
  healthyResponse : Bool
  served : Nat

/-- `bn.encode()` -/
def Backend.body (b : Backend) : Bytes := (encodeUtf8 b.name).data.toList

/-- `Handler.do_GET` of a backend: what it writes and the backend after it. -/
def Backend.doGet (h : BaseHandler) (b : Backend) (path : Str) : Bytes × Backend :=
  if path = lit "/health" then
    let code := if b.healthyResponse then 200 else 503
    (h.sendResponse code ++ endHeaders ++ (if code = 200 then bytesLit "ok" else bytesLit "bad"), b)
  else
    let b := { b with served := b.served + 1 }
    (h.sendResponse 200 ++ sendHeader (contentLength b.body.length) ++ endHeaders ++ b.body, b)

/-! ## Replies -/

/-- What is written behind the header block, and how it ends. -/
inductive Content where
  | sized (body : Bytes)
  | chunked (pieces : List Bytes)
  | untilClose (body : Bytes)

namespace Content

def fields : Content → List Field
  | .sized body => [contentLength body.length]
  | .chunked _ => [transferChunked]
  | .untilClose _ => []

def written : Content → Bytes
  | .sized body => body
  | .chunked pieces => pieces.flatMap writeChunk ++ lastChunk
  | .untilClose body => body

def framing : Content → Framing
  | .sized body => .contentLength body.length
  | .chunked _ => .chunked
  | .untilClose _ => .untilClose

/-- The body at the client.  An empty piece is taken for the last chunk. -/
def received : Content → Bytes
  | .sized body => body
  | .chunked pieces => (pieces.takeWhile fun piece => piece ≠ []).flatten
  | .untilClose body => body

/-- The body as the handler means it. -/
def meant : Content → Bytes
  | .sized body => body
  | .chunked pieces => pieces.flatten
  | .untilClose body => body

/-- Nothing is written behind an empty piece. -/
def NoGap : Content → Prop
  | .sized _ | .untilClose _ => True
  | .chunked pieces => ∀ earlier later, pieces = earlier ++ [] :: later → later.flatten = []

/-- A `bytes` object is no longer than `sys.maxsize`. -/
def Fits : Content → Prop
  | .sized body => body.length < 2 ^ 63
  | .chunked _ | .untilClose _ => True

end Content

/-- A reply that frames its body by its content alone. -/
structure Reply where
  code : Nat
  threeDigits : code < 1000
  fields : List Field
  unframed : ∀ f ∈ fields,
    lower f.name.text ≠ lit "transfer-encoding" ∧ lower f.name.text ≠ lit "content-length"
  content : Content
  fits : content.Fits

namespace BaseHandler

variable (h : BaseHandler) (r : Reply)

def allFields : List Field := h.standardFields ++ r.fields ++ r.content.fields

def send : Bytes :=
  h.sendResponse r.code ++ (r.fields ++ r.content.fields).flatMap sendHeader ++ endHeaders ++
    r.content.written

def headLines : List Bytes := h.statusLine r.code :: (h.allFields r).map Field.line

theorem send_eq : h.send r = headerBlock (h.headLines r) ++ r.content.written := by
  simp only [send, sendResponse, headerBlock, headLines, allFields, endHeaders, List.flatMap_cons,
    List.flatMap_map, List.flatMap_append, List.append_assoc]
  rfl

theorem statusLine_oneLine (code : Nat) : h.statusLine code ≠ [] ∧ 10 ∉ h.statusLine code := by
  constructor
  · simp [statusLine]
  · simp [statusLine, LineText.no_line_feed]

theorem headLines_oneLine : ∀ line ∈ h.headLines r, line ≠ [] ∧ 10 ∉ line := by
  refine List.forall_mem_cons.mpr ⟨h.statusLine_oneLine r.code, ?_⟩
  intro line member
  obtain ⟨f, -, rfl⟩ := List.mem_map.mp member
  exact f.line_oneLine

theorem cut_send : cut blankLine (h.send r) =
    some (crlf.intercalate (h.headLines r), r.content.written) := by
  rw [send_eq]
  exact cut_headerBlock (List.cons_ne_nil _ _) (h.headLines_oneLine r) _

theorem bodyOf_send : bodyOf (h.send r) = r.content.written := by
  rw [bodyOf, partition, cut_send, Option.getD_some]

/-- The client sees the lines that were sent. -/
theorem splitAll_send : splitAll crlf (by decide) (headOf (h.send r)) = h.headLines r := by
  rw [headOf, partition, cut_send, Option.getD_some]
  apply splitAll_intercalate (by decide) (List.cons_ne_nil _ _)
  intro line member
  by_contra occurs
  obtain ⟨parts, found⟩ := Option.isSome_iff_exists.mp (Bool.of_not_eq_false occurs)
  apply (h.headLines_oneLine r line member).2
  rw [cut_eq_append found]
  simp

/-- The code is read as a number, the reason is the rest of the line. -/
theorem parseStatusLine_eq {code : Nat} (threeDigits : code < 1000) :
    parseStatusLine (h.statusLine code) = .ok ((code : Int), (h.responses code).text) := by
  have decoded : decodeLatin1 (h.statusLine code) =
      h.protocolVersion.text ++ [' '] ++
        (strOfInt code ++ [' '] ++ (h.responses code).text) := by
    rw [← (h.responses code).decodeLatin1_bytes, ← h.protocolVersion.decodeLatin1_bytes]
    have digits : decodeLatin1 (number code).bytes = strOfInt code := (number code).decodeLatin1_bytes
    rw [← digits]
    simp [statusLine, decodeLatin1]
  have noSpace : ' ' ∉ strOfInt code := not_mem_strOfInt (by decide) (by decide)
  have short : (strOfInt code).length ≤ maxStrDigits :=
    (Nat.toDigits_length 10 code 3 (by decide) threeDigits).trans (by decide)
  rw [parseStatusLine, decoded, splitUpTo, cut_append_of_not_mem h.noSpace]
  simp only [splitUpTo, cut_append_of_not_mem noSpace]
  simp only [List.cons_append, intOfStr_strOfInt, if_pos short]
  rfl

end BaseHandler

/-! ## Framing -/

section Framing

variable {h : BaseHandler} {r : Reply}

theorem fieldValues_allFields {name : Str}
    (isFraming : name = lit "transfer-encoding" ∨ name = lit "content-length") :
    fieldValues name ((h.allFields r).map Field.line) =
      (r.content.fields.filter fun f => lower f.name.text = name).map fun f => f.value.text := by
  have server : lower serverName.text = lit "server" := by decide
  have date : lower dateName.text = lit "date" := by decide
  have noStandard : h.standardFields.filter (fun f => decide (lower f.name.text = name)) = [] := by
    rcases isFraming with rfl | rfl <;> simp [BaseHandler.standardFields, server, date, lit]
  have noOwn : r.fields.filter (fun f => decide (lower f.name.text = name)) = [] := by
    rw [List.filter_eq_nil_iff]
    intro f member
    rcases isFraming with rfl | rfl
    · simpa using (r.unframed f member).1
    · simpa using (r.unframed f member).2
  rw [fieldValues_lines, BaseHandler.allFields, List.filter_append, List.filter_append, noStandard,
    noOwn, List.nil_append, List.nil_append]

theorem framingOf_allFields :
    framingOf ((h.allFields r).map Field.line) = .ok r.content.framing := by
  have fits := r.fits
  have lengthName (n : Nat) : lower (contentLength n).name.text = lit "content-length" := by
    show lower (lit "Content-Length") = lit "content-length"
    decide
  rw [framingOf_eq, transferEncodings, contentLengths, fieldValues_allFields (.inl rfl),
    fieldValues_allFields (.inr rfl)]
  cases content : r.content with
  | sized body =>
    rw [content] at fits
    have short : (strOfInt body.length).length ≤ maxStrDigits := by
      refine (Nat.toDigits_length 10 _ 19 (by decide) ?_).trans (by decide)
      exact lt_trans fits (by decide)
    have noCoding : lit "content-length" ≠ lit "transfer-encoding" := by decide
    have notChunked : lower [] ≠ lit "chunked" := by decide
    have read : intOfStr (strOfInt body.length) = .ok (body.length : Int) := by
      rw [intOfStr_strOfInt, if_pos short]
    have value : (contentLength body.length).value.text = strOfInt body.length := rfl
    simp only [Content.fields, List.filter_cons, lengthName, noCoding, decide_false, decide_true,
      List.filter_nil, List.map_cons, List.map_nil, List.getLast?_nil, Option.getD_none,
      if_neg notChunked, List.getLast?_singleton, Option.elim_some, value, read, Except.map,
      Content.framing, Bool.false_eq_true, if_true, if_false]
  | chunked pieces =>
    have coding : lower transferChunked.value.text = lit "chunked" := by decide
    have listed : Content.fields (.chunked pieces) = [transferChunked] := rfl
    have name : lower transferChunked.name.text = lit "transfer-encoding" := by decide
    simp only [listed, List.filter_cons, name, decide_true, if_true, List.filter_nil, List.map_cons,
      List.map_nil, List.getLast?_singleton, Option.getD_some, coding, Content.framing]
  | untilClose body => rfl

end Framing

/-! ## Chunks -/

/-- The digits of `%X` are read as the number. -/
theorem hexUpper_reads (n : Nat) :
    (∀ b ∈ hexUpper n, (hexValue b).isSome) ∧ ofDigits 16 ((hexUpper n).filterMap hexValue) = n := by
  obtain ⟨digits, spelled, value⟩ := upperHex_spells n
  have values : (hexUpper n).map hexValue = digits.map some := by
    rw [hexUpper, List.map_map, ← spelled]
    refine List.map_congr_left fun c member => ?_
    have range := range_of_spells spelled member
    rw [Function.comp_apply, ← digitIn_eq_hexValue, UInt8.toNat_ofNat', Nat.mod_eq_of_lt (by omega),
      Char.ofNat_toNat]
  constructor
  · intro b member
    have listed : hexValue b ∈ digits.map some := by
      rw [← values]
      exact List.mem_map_of_mem member
    obtain ⟨d, -, same⟩ := List.mem_map.mp listed
    rw [← same, Option.isSome_some]
  · have read : (hexUpper n).filterMap hexValue = digits := by
      have same := congrArg (List.filterMap id) values
      simpa [List.filterMap_map] using same
    rw [read, value]

theorem hexUpper_ne_nil (n : Nat) : hexUpper n ≠ [] := by
  simp [hexUpper, upperHex_ne_nil]

theorem hexUpper_hexadecimal (n : Nat) : ∀ b ∈ hexUpper n, (hexValue b).isSome :=
  (hexUpper_reads n).1

theorem separated_of_no_extensions : ([] : Bytes) = [] ∨
    ∃ blanks more : Bytes, [] = blanks ++ 59 :: more ∧ ∀ b ∈ blanks, b = 9 ∨ b = 32 :=
  .inl rfl

theorem oneLine_of_no_extensions : ∀ b ∈ ([] : Bytes), b ≠ 13 ∧ b ≠ 10 := by
  simp

def sizeLine (n : Nat) : SizeLine where
  digits := hexUpper n
  extensions := []
  spelled := hexUpper_ne_nil n
  hexadecimal := hexUpper_hexadecimal n
  separated := separated_of_no_extensions
  oneLine := oneLine_of_no_extensions

theorem size_sizeLine (n : Nat) : (sizeLine n).size = n := (hexUpper_reads n).2

/-- Up to an empty piece the pieces are chunks. -/
theorem chunks_of_pieces (pieces : List Bytes) : ∃ (chunks : List Chunk) (trailer : Bytes),
    pieces.flatMap writeChunk ++ lastChunk =
      chunks.flatMap Chunk.bytes ++ ((sizeLine 0).bytes ++ crlf ++ trailer) ∧
    chunks.flatMap Chunk.data = (pieces.takeWhile fun piece => piece ≠ []).flatten := by
  induction pieces with
  | nil => exact ⟨[], crlf, by decide, rfl⟩
  | cons piece pieces ih =>
    by_cases empty : piece = []
    · refine ⟨[], crlf ++ (pieces.flatMap writeChunk ++ lastChunk), ?_, by simp [empty]⟩
      simp [empty, writeChunk, SizeLine.bytes, sizeLine]
    · obtain ⟨chunks, trailer, written, data⟩ := ih
      let chunk : Chunk :=
        { line := sizeLine piece.length, data := piece, nonempty := empty,
          sized := size_sizeLine piece.length }
      refine ⟨chunk :: chunks, trailer, ?_, ?_⟩
      · rw [List.flatMap_cons, List.append_assoc, written, List.flatMap_cons, List.append_assoc]
        simp [writeChunk, chunk, Chunk.bytes, SizeLine.bytes, sizeLine]
      · rw [List.flatMap_cons, data, List.takeWhile_cons_of_pos (by simpa using empty),
          List.flatten_cons]

/-! ## The exchange -/

/-- In its framing the body is read as it was written. -/
theorem readBody_written {content : Content} {rest : Bytes} {s : Socket}
    (behind : rest ++ unread s = content.written) :
    readBody rest s content.framing = .ok content.received := by
  cases content with
  | sized body =>
    rw [Content.framing, readBody, recvExactly_of_nonneg, behind, Content.written, List.take_length,
      Content.received]
  | chunked pieces =>
    obtain ⟨chunks, trailer, written, data⟩ := chunks_of_pieces pieces
    rw [Content.written, written] at behind
    obtain ⟨finish, decoded⟩ :=
      decodeChunked_encoded chunks (size_sizeLine 0) trailer [] rest s behind
    rw [Content.framing, readBody_chunked, decoded, data]
    rfl
  | untilClose body =>
    rw [Content.framing, readBody, readToClose, fill_never, behind]
    rfl

theorem httpGet_send (h : BaseHandler) (r : Reply) {s : Socket} (sent : unread s = h.send r) :
    httpGet s =
      .ok ⟨r.code, (h.responses r.code).text, headersOf (h.allFields r), r.content.received⟩ := by
  have split : splitAll crlf (by decide) (headOf (unread s)) = h.headLines r := by
    rw [sent, h.splitAll_send r]
  have behind : prefetched s ++ unread (behindHead s) = r.content.written := by
    rw [readUntil_body, sent, h.bodyOf_send]
  rw [httpGet_framed s split, h.parseStatusLine_eq r.threeDigits, foldl_addHeader]
  simp only [framingOf_allFields, readBody_written behind, bind, Except.bind, pure, Except.pure]

theorem received_prefix (content : Content) : content.received <+: content.meant := by
  cases content with
  | sized body => exact List.prefix_rfl
  | chunked pieces =>
    refine ⟨(pieces.dropWhile fun piece => piece ≠ []).flatten, ?_⟩
    rw [Content.received, ← List.flatten_append, List.takeWhile_append_dropWhile, Content.meant]
  | untilClose body => exact List.prefix_rfl

theorem received_eq_meant_iff (content : Content) :
    content.received = content.meant ↔ content.NoGap := by
  cases content with
  | sized body => simp [Content.received, Content.meant, Content.NoGap]
  | untilClose body => simp [Content.received, Content.meant, Content.NoGap]
  | chunked pieces =>
    simp only [Content.received, Content.meant, Content.NoGap]
    induction pieces with
    | nil => simp
    | cons piece pieces ih =>
      by_cases empty : piece = []
      · -- The first empty piece: all that follows it is lost.
        subst empty
        have lost : ([] = pieces.flatten) ↔ ∀ piece ∈ pieces, piece = [] := by
          rw [eq_comm, List.flatten_eq_nil_iff]
        simp only [ne_eq, not_true_eq_false, decide_false, Bool.false_eq_true, not_false_eq_true,
          List.takeWhile_cons_of_neg, List.flatten_nil, List.flatten_cons, List.nil_append, lost]
        constructor
        · intro allEmpty earlier later split
          rw [List.flatten_eq_nil_iff]
          intro piece member
          have among : piece ∈ [] :: pieces := by simp [split, member]
          exact (List.mem_cons.mp among).elim id (allEmpty piece)
        · intro noGap
          exact List.flatten_eq_nil_iff.mp (noGap [] pieces rfl)
      · rw [List.takeWhile_cons_of_pos (by simpa using empty), List.flatten_cons, List.flatten_cons,
          List.append_right_inj, ih]
        constructor
        · intro noGap earlier later split
          cases earlier with
          | nil => exact absurd (List.cons.inj split).1 empty
          | cons first earlier => exact noGap earlier later (List.cons.inj split).2
        · intro noGap earlier later split
          exact noGap (piece :: earlier) later (by rw [split, List.cons_append])

def sampleBase : BaseHandler where
  protocolVersion := ⟨lit "HTTP/1.0", by simp [lit], by decide, by decide⟩
  noSpace := by decide
  responses code :=
    if code = 503 then ⟨lit "Service Unavailable", by simp [lit], by decide, by decide⟩
    else ⟨lit "OK", by simp [lit], by decide, by decide⟩
  versionString := ⟨lit "BaseHTTP/0.6 Python/3.12.1", by simp [lit], by decide, by decide⟩
  dateTimeString := ⟨lit "Thu, 01 Jan 1970 00:00:00 GMT", by simp [lit], by decide, by decide⟩

/-- An empty piece between two others. -/
def gappedReply : Reply where
  code := 200
  threeDigits := by decide
  fields := [plainText]
  unframed := by
    intro f member
    obtain rfl := List.mem_singleton.mp member
    decide
  content := .chunked [bytesLit "seen", [], bytesLit "lost"]
  fits := trivial

def DemoHandler.reply (path : Str) : Reply where
  code := 200
  threeDigits := by decide
  fields := [plainText]
  unframed := by
    intro f member
    obtain rfl := List.mem_singleton.mp member
    decide
  content :=
    if path = lit "/chunked" then
      .chunked [bytesLit "chunk-one ", bytesLit "chunk-two ", bytesLit "chunk-three"]
    else .sized (bytesLit "hello over content-length")
  fits := by split <;> simp [Content.Fits, bytesLit]

theorem DemoHandler.doGet_eq (h : BaseHandler) (path : Str) :
    DemoHandler.doGet h path = h.send (DemoHandler.reply path) := by
  by_cases isChunked : path = lit "/chunked"
  · simp [DemoHandler.doGet, DemoHandler.reply, BaseHandler.send, isChunked, Content.fields,
      Content.written]
  · simp [DemoHandler.doGet, DemoHandler.reply, BaseHandler.send, isChunked, Content.fields,
      Content.written]

namespace Backend

variable (b : Backend)

def reply (fits : b.body.length < 2 ^ 63) (path : Str) : Reply where
  code := if path = lit "/health" ∧ ¬ b.healthyResponse then 503 else 200
  threeDigits := by split <;> decide
  fields := []
  unframed := by simp
  content :=
    if path = lit "/health" then
      .untilClose (if b.healthyResponse then bytesLit "ok" else bytesLit "bad")
    else .sized b.body
  fits := by
    split
    · trivial
    · exact fits

theorem doGet_eq (fits : b.body.length < 2 ^ 63) (h : BaseHandler) (path : Str) :
    (b.doGet h path).1 = h.send (b.reply fits path) := by
  by_cases health : path = lit "/health"
  · cases answer : b.healthyResponse <;>
      simp [doGet, reply, BaseHandler.send, health, answer, Content.fields, Content.written]
  · simp [doGet, reply, BaseHandler.send, health, Content.fields, Content.written, body]

/-- What a client sees of a backend. -/
def seen (h : BaseHandler) (path : Str) : RawHTTPResponse :=
  if path = lit "/health" then
    if b.healthyResponse then
      ⟨200, (h.responses 200).text, headersOf h.standardFields, bytesLit "ok"⟩
    else ⟨503, (h.responses 503).text, headersOf h.standardFields, bytesLit "bad"⟩
  else
    ⟨200, (h.responses 200).text, headersOf (h.standardFields ++ [contentLength b.body.length]),
      b.body⟩

theorem httpGet_doGet (fits : b.body.length < 2 ^ 63) (h : BaseHandler) {path : Str} {s : Socket}
    (sent : unread s = (b.doGet h path).1) : httpGet s = .ok (b.seen h path) := by
  rw [b.doGet_eq fits] at sent
  rw [httpGet_send h _ sent]
  by_cases health : path = lit "/health"
  · cases answer : b.healthyResponse <;>
      simp [reply, seen, BaseHandler.allFields, health, answer, Content.fields, Content.received]
  · simp [reply, seen, BaseHandler.allFields, health, Content.fields, Content.received]

end Backend

/-! ## Through the proxy -/

/-- What a client sees of the proxy when no member is healthy. -/
def unavailable : RawHTTPResponse :=
  ⟨503, lit "Service Unavailable", headersOf [contentLength 0], []⟩

theorem httpGet_serviceUnavailable {s : Socket} (sent : unread s = serviceUnavailable) :
    httpGet s = .ok unavailable := by
  have split : splitAll crlf (by decide) (headOf (unread s)) =
      [bytesLit "HTTP/1.1 503 Service Unavailable", bytesLit "Content-Length: 0"] := by
    rw [sent]
    decide +kernel
  have status : parseStatusLine (bytesLit "HTTP/1.1 503 Service Unavailable") =
      .ok ((503 : Int), lit "Service Unavailable") := by
    decide +kernel
  have framed : framingOf [bytesLit "Content-Length: 0"] = .ok (.contentLength (0 : Nat)) := by
    decide +kernel
  have headers : [bytesLit "Content-Length: 0"].foldl addHeader ∅ = headersOf [contentLength 0] :=
    foldl_addHeader [contentLength 0]
  rw [httpGet_framed s split, status, headers]
  simp only [framed, readBody, recvExactly_of_nonneg, List.take_zero, bind, Except.bind, pure,
    Except.pure, unavailable]

def samplePool (i : Nat) : Backend where
  name := lit "backend-" ++ strOfInt (i % 10 : Nat)
  healthyResponse := true
  served := 0

theorem samplePool_fits (i : Nat) : (samplePool i).body.length < 2 ^ 63 := by
  have all : ∀ d < 10, (encodeUtf8 (lit "backend-" ++ strOfInt (d : Nat))).data.toList.length < 2 ^ 63 := by
    decide
  exact all (i % 10) (Nat.mod_lt i (by decide))

end Excalibur.Backends
