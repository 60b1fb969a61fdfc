import Excalibur.Backends.Selection
import Excalibur.Http.Segmentation

/-! # The L7 hop

`_handle` reads a request up to its blank line, sends what it has read to a backend and
copies back what the backend sends before it closes or falls silent.  What the client sends
behind the blank line goes along as far as it came in the same segment.

A request that ends with its blank line, such as the one of `http_get`, reaches the backend
as it is, and the client gets the backend's bytes: whether the proxy is there or not makes
no difference to `http_get`.
-/

namespace Excalibur.Backends

open Excalibur.Library Excalibur.Python Excalibur.Http

/-- What comes after the last segment. -/
inductive Ending where
  | closed
  /-- Nothing for two seconds: `socket.timeout`. -/
  | silent
  /-- Any other `OSError`. -/
  | broken
  deriving Repr, DecidableEq

/-- The other end of a connection, as `recv(4096)` sees it. -/
structure Peer where
  segments : Socket
  ending : Ending

abbrev blankLine : Bytes := crlf ++ crlf

def readHttpMessage (sock : Peer) : Except Ending Bytes :=
  let buf := (fill (occursIn blankLine) [] sock.segments).1
  if occursIn blankLine buf then .ok buf
  else
    match sock.ending with
    | .closed => .ok buf
    | raised => .error raised

/-- A backend answers what it is sent, unless connecting or sending fails. -/
def proxyToBackend (backend : Bytes → Except Ending Peer) (request : Bytes) : Except Ending Bytes := do
  let up ← backend request
  let resp := readToClose up.segments []
  match up.ending with
  | .broken => .error .broken
  -- A timeout ends the response like the end of the stream.
  | _ => .ok resp

def serviceUnavailable : Bytes :=
  bytesLit "HTTP/1.1 503 Service Unavailable\r\nContent-Length: 0\r\n\r\n"

/-- What `_handle` sends to the client before it closes the connection. -/
def handle (p : ReverseProxy) (backends : Nat → Bytes → Except Ending Peer) (client : Peer) :
    Except Ending Bytes := do
  let request ← readHttpMessage client
  if request = [] then return []
  match p.select.1 with
  | none => return serviceUnavailable
  | some i => proxyToBackend (backends i) request

/-- What `http_get` sends. -/
def getRequest (host : Str) (port : Int) (path : Str) : Except PyError Bytes :=
  encodeAscii (lit "GET " ++ path ++ lit " HTTP/1.1\r\n" ++
    lit "Host: " ++ host ++ lit ":" ++ strOfInt port ++ lit "\r\n" ++
    lit "User-Agent: raw-http-client/1.0\r\n" ++
    lit "Accept: */*\r\n" ++
    lit "Connection: close\r\n" ++
    lit "\r\n")

/-! ## The request -/

section Request

variable {sock : Peer} {head behind : Bytes}

/-- A complete header block is read with at most 4095 bytes of what follows it. -/
theorem readHttpMessage_complete
    (found : cut blankLine (unread sock.segments) = some (head, behind)) :
    ∃ ahead, readHttpMessage sock = .ok (head ++ blankLine ++ ahead) ∧ ahead <+: behind ∧
      ahead.length ≤ 4095 := by
  have content := fill_content (occursIn blankLine) [] sock.segments
  have occurs : occursIn blankLine (fill (occursIn blankLine) [] sock.segments).1 = true := by
    rcases fill_stops (occursIn blankLine) [] sock.segments with occurs | ended
    · exact occurs
    · rw [fill_all _ _ _ ended, List.nil_append, occursIn, found]
      rfl
  obtain ⟨⟨before, ahead⟩, here⟩ := Option.isSome_iff_exists.mp occurs
  have whole := cut_append (unread (fill (occursIn blankLine) [] sock.segments).2) here
  rw [content, List.nil_append, found] at whole
  simp only [Option.some.injEq, Prod.mk.injEq] at whole
  refine ⟨ahead, ?_, ⟨_, whole.2.symm⟩, ?_⟩
  · rw [readHttpMessage, if_pos occurs, cut_eq_append here, whole.1]
  · have came : prefetched sock.segments = ahead := by
      simp [prefetched, readUntil, partition, here]
    rw [← came]
    exact (length_prefetched_le sock.segments).trans (min_le_right _ _)

/-- Without a blank line everything is read, and a connection that stays open is given up. -/
theorem readHttpMessage_incomplete (missing : cut blankLine (unread sock.segments) = none) :
    readHttpMessage sock =
      if sock.ending = .closed then .ok (unread sock.segments) else .error sock.ending := by
  have content := fill_content (occursIn blankLine) [] sock.segments
  have short : occursIn blankLine (fill (occursIn blankLine) [] sock.segments).1 = false := by
    by_contra occurs
    have whole := occursIn_append (unread (fill (occursIn blankLine) [] sock.segments).2)
      (Bool.of_not_eq_false occurs)
    rw [content, List.nil_append, occursIn, missing] at whole
    cases whole
  have ended := (fill_stops (occursIn blankLine) [] sock.segments).resolve_left (by simp [short])
  rw [readHttpMessage, short, if_neg Bool.false_ne_true, fill_all _ _ _ ended, List.nil_append]
  cases sock.ending <;> rfl

theorem readHttpMessage_bodiless (found : cut blankLine (unread sock.segments) = some (head, [])) :
    readHttpMessage sock = .ok (unread sock.segments) := by
  obtain ⟨ahead, read, nothing, -⟩ := readHttpMessage_complete found
  rw [read, List.prefix_nil.mp nothing, ← cut_eq_append found]

end Request

/-! ## Header blocks -/

theorem cut_behind_line {line : Bytes} (oneLine : 10 ∉ line) (rest : Bytes) :
    cut blankLine (line ++ (crlf ++ rest)) =
      (cut blankLine (crlf ++ rest)).map fun parts => (line ++ parts.1, parts.2) := by
  induction line with
  | nil => simp
  | cons b line ih =>
    simp only [List.mem_cons, not_or] at oneLine
    have misses : ¬ blankLine <+: b :: (line ++ (crlf ++ rest)) := by
      -- The second byte would be a line feed.
      cases line with
      | nil => simp [blankLine, crlf]
      | cons c line =>
        have other : c ≠ 10 := fun same => oneLine.2 (by simp [same])
        simp [blankLine, crlf, other.symm]
    rw [List.cons_append, cut_cons_of_not_isPrefix misses, ih oneLine.2]
    cases cut blankLine (crlf ++ rest) <;> rfl

theorem cut_behind_crlf {rest : Bytes} (more : ¬ crlf <+: rest) :
    cut blankLine (crlf ++ rest) =
      (cut blankLine rest).map fun parts => (crlf ++ parts.1, parts.2) := by
  have first : ¬ blankLine <+: (13 : UInt8) :: 10 :: rest := by
    simpa [blankLine, crlf] using more
  have second : ¬ blankLine <+: (10 : UInt8) :: rest := by simp [blankLine, crlf]
  rw [crlf, List.cons_append, List.cons_append, List.nil_append, cut_cons_of_not_isPrefix first,
    cut_cons_of_not_isPrefix second]
  cases cut blankLine rest <;> rfl

/-- The lines of a header block, up to the blank line. -/
def headerBlock (lines : List Bytes) : Bytes := lines.flatMap (· ++ crlf) ++ crlf

theorem cut_headerBlock {lines : List Bytes} (nonempty : lines ≠ [])
    (each : ∀ line ∈ lines, line ≠ [] ∧ 10 ∉ line) (behind : Bytes) :
    cut blankLine (headerBlock lines ++ behind) = some (crlf.intercalate lines, behind) := by
  induction lines with
  | nil => exact absurd rfl nonempty
  | cons line lines ih =>
    obtain ⟨⟨-, oneLine⟩, others⟩ := List.forall_mem_cons.mp each
    have split : headerBlock (line :: lines) ++ behind =
        line ++ (crlf ++ (headerBlock lines ++ behind)) := by simp [headerBlock]
    rw [split, cut_behind_line oneLine]
    cases lines with
    | nil =>
      have ends : blankLine <+: crlf ++ (headerBlock [] ++ behind) := ⟨behind, by simp [headerBlock]⟩
      rw [cut_of_isPrefix ends]
      simp [headerBlock, blankLine, crlf]
    | cons next lines =>
      -- The next line is not empty and does not make the line end a blank line.
      have more : ¬ crlf <+: headerBlock (next :: lines) ++ behind := by
        obtain ⟨notEmpty, oneLine⟩ := others next List.mem_cons_self
        cases next with
        | nil => exact absurd rfl notEmpty
        | cons b next =>
          cases next with
          | nil => simp [headerBlock, crlf]
          | cons c next =>
            have other : (10 : UInt8) ≠ c := fun same => oneLine (by simp [same])
            simp [headerBlock, crlf, other]
      rw [cut_behind_crlf more, ih (List.cons_ne_nil _ _) others]
      simp [List.intercalate]

def getLines (host : Str) (port : Int) (path : Str) : List Str :=
  [lit "GET " ++ path ++ lit " HTTP/1.1", lit "Host: " ++ host ++ lit ":" ++ strOfInt port,
    lit "User-Agent: raw-http-client/1.0", lit "Accept: */*", lit "Connection: close"]

/-- The request of `http_get` ends with its first blank line. -/
theorem cut_getRequest {host path : Str} {port : Int} {request : Bytes}
    (encoded : getRequest host port path = .ok request) (oneHost : '\n' ∉ host)
    (onePath : '\n' ∉ path) : ∃ head, cut blankLine request = some (head, []) := by
  have byLine : ∀ line ∈ getLines host port path, line ≠ [] ∧ '\n' ∉ line := by
    have onePort : '\n' ∉ strOfInt port := not_mem_strOfInt (by decide) (by decide)
    simp [getLines, lit, onePath, oneHost, onePort]
  have joined : getRequest host port path =
      encodeAscii ((getLines host port path).flatMap (· ++ lit "\r\n") ++ lit "\r\n") := by
    simp [getRequest, getLines, lit]
  rw [joined, encodeAscii] at encoded
  split at encoded
  · rename_i ascii
    have bytes : request = headerBlock ((getLines host port path).map
        (List.map fun c => UInt8.ofNat c.toNat)) := by
      rw [← Except.ok.inj encoded]
      simp [headerBlock, getLines, crlf, lit]
    rw [bytes, ← List.append_nil (headerBlock _)]
    refine ⟨_, cut_headerBlock (by simp [getLines]) ?_ []⟩
    intro line member
    obtain ⟨text, listed, rfl⟩ := List.mem_map.mp member
    obtain ⟨notEmpty, oneLine⟩ := byLine text listed
    refine ⟨by simpa using notEmpty, fun feed => oneLine ?_⟩
    obtain ⟨c, inside, isFeed⟩ := List.mem_map.mp feed
    have small : c.toNat < 128 := by
      have among : c ∈ (getLines host port path).flatMap (· ++ lit "\r\n") ++ lit "\r\n" :=
        List.mem_append_left _ (List.mem_flatMap.mpr ⟨text, listed, List.mem_append_left _ inside⟩)
      simpa using List.all_eq_true.mp ascii c among
    have code : c.toNat = 10 := by
      have number := congrArg UInt8.toNat isFeed
      simp only [UInt8.toNat_ofNat'] at number
      rw [Nat.mod_eq_of_lt (by omega)] at number
      exact number
    obtain rfl : c = '\n' := by
      rw [← Char.ofNat_toNat c, code]
    exact inside
  · cases encoded

/-! ## The exchange -/

/-- A request that ends with its blank line reaches the backend as it was sent, however it
    is cut, and the client gets all that the backend sends. -/
theorem handle_bodiless {p : ReverseProxy} {backends : Nat → Bytes → Except Ending Peer}
    {client up : Peer} {head : Bytes} {i : Nat}
    (bodiless : cut blankLine (unread client.segments) = some (head, []))
    (selected : p.select.1 = some i) (answers : backends i (unread client.segments) = .ok up)
    (goesOn : up.ending ≠ .broken) :
    handle p backends client = .ok (unread up.segments) := by
  have nonempty : unread client.segments ≠ [] := by
    intro nothing
    rw [nothing] at bodiless
    cases bodiless
  simp only [handle, readHttpMessage_bodiless bodiless, selected, bind, Except.bind,
    if_neg nonempty, proxyToBackend, answers, readToClose, fill_never, List.nil_append]

def shortAnswer : Bytes := bytesLit "HTTP/1.0 200 OK\r\nContent-Length: 2\r\n\r\nok"

theorem selected_shortAnswer : Http.selected shortAnswer = .ok (.contentLength 2) := by
  decide +kernel

def getRoot : Bytes :=
  bytesLit ("GET / HTTP/1.1\r\nHost: 127.0.0.1:80\r\nUser-Agent: raw-http-client/1.0\r\n" ++
    "Accept: */*\r\nConnection: close\r\n\r\n")

theorem getRequest_root : getRequest (lit "127.0.0.1") 80 (lit "/") = .ok getRoot := by
  decide +kernel

end Excalibur.Backends
