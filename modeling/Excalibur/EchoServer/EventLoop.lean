import Excalibur.Library.Run

/-! # The event loop of the echo server

One thread runs `serve_forever`; another may call `stop` at any moment.  Everything else
that can differ between two runs is in what the selector and the sockets answer, so a move
is one answer: the keys a `select` returns, what an `accept` or a `recv` did, and what each
`send` inside a `sendall` did.  The handlers are run to their next such call.
-/

namespace Excalibur.EchoServer

/-- What `recv(4096)` returns when there is data. -/
structure Chunk where
  bytes : List UInt8
  nonempty : bytes ≠ []
  bounded : bytes.length ≤ 4096
  deriving Repr, DecidableEq

/-- A connection, by the order of its `accept`.  It is open while it is registered; `ended`
    records that its socket has reported the end of the stream or an error. -/
structure Connection where
  isOpen : Bool
  received : List UInt8
  sent : List UInt8
  ended : Bool
  deriving Repr, DecidableEq

/-- A key of the selector; the listener's is the one whose `data` is `None`. -/
inductive Key where
  | listener
  | client (k : Nat)
  deriving Repr, DecidableEq

inductive Accept where
  | connection
  | wouldBlock
  | error
  deriving Repr, DecidableEq

/-- `error` is any `OSError` besides `BlockingIOError` and `ConnectionResetError`. -/
inductive Recv where
  | data (chunk : Chunk)
  | eof
  | wouldBlock
  | reset
  | error
  deriving Repr, DecidableEq

/-- The outcome of one `send` of a `sendall`; `wrote n` is a partial write when less than
    what is left. -/
inductive Send where
  | wrote (n : Nat)
  | wouldBlock
  | error
  deriving Repr, DecidableEq

/-- Where the loop is, with the keys of `events` still to be handled.  `raised` is an
    exception that has left `serve_forever`. -/
inductive Control where
  | testing
  | selecting
  | accepting (events : List Key)
  | receiving (k : Nat) (events : List Key)
  | sending (k : Nat) (data left : List UInt8) (events : List Key)
  | returned
  | raised
  deriving Repr, DecidableEq

structure Server where
  running : Bool
  connections : List Connection
  connections_served : Nat
  bytes_echoed : Nat
  control : Control
  deriving Repr, DecidableEq

inductive Move where
  | stop
  | test
  | select (ready : List Key)
  | accept (outcome : Accept)
  | recv (outcome : Recv)
  | send (outcome : Send)
  deriving Repr, DecidableEq

/-- The head of the `for` loop over `events`. -/
def Control.next : List Key → Control
  | [] => .testing
  | .listener :: events => .accepting events
  | .client k :: events => .receiving k events

/-- What is left in `data` after `recv`: the `except` clause empties it. -/
def Recv.bytes : Recv → List UInt8
  | .data chunk => chunk.bytes
  | _ => []

def Recv.ends : Recv → Bool
  | .eof => true
  | .reset => true
  | .error => true
  | _ => false

namespace Server

def start : Server :=
  { running := true, connections := [], connections_served := 0, bytes_echoed := 0,
    control := .testing }

/-- The keys that are registered. -/
def registered (s : Server) : Key → Bool
  | .listener => true
  | .client k => (s.connections[k]?).any (·.isOpen)

def modify (s : Server) (k : Nat) (f : Connection → Connection) : Server :=
  { s with connections := s.connections.modify k f }

/-- `_close`. -/
def close (s : Server) (k : Nat) : Server :=
  { s.modify k fun c => { c with isOpen := false } with
    connections_served := s.connections_served + 1 }

def accept (s : Server) (events : List Key) : Accept → Server
  | .connection =>
    let conn : Connection := { isOpen := true, received := [], sent := [], ended := false }
    { s with connections := s.connections ++ [conn] }
  | .wouldBlock => { s with control := .next events }
  | .error => { s with control := .raised }

/-- `_service` up to the test of `data`. -/
def recv (s : Server) (k : Nat) (events : List Key) (outcome : Recv) : Server :=
  let s := s.modify k fun c =>
    { c with received := c.received ++ outcome.bytes, ended := c.ended || outcome.ends }
  -- The `except` clause names two errors; any other leaves the loop.
  if outcome = .error then { s with control := .raised }
  else if outcome.bytes = [] then { s.close k with control := .next events }
  else { s with control := .sending k outcome.bytes outcome.bytes events }

/-- One turn of `sendall`, and what follows it in `_service`. -/
def send (s : Server) (k : Nat) (data left : List UInt8) (events : List Key) :
    Send → Option Server
  | .wrote n =>
    if 0 < n ∧ n ≤ left.length then
      let s := s.modify k fun c => { c with sent := c.sent ++ left.take n }
      if n = left.length then
        some { s with bytes_echoed := s.bytes_echoed + data.length, control := .next events }
      else some { s with control := .sending k data (left.drop n) events }
    else none
  | outcome =>
    -- `except OSError`: a full send buffer raises one as well.
    let s := s.modify k fun c => { c with ended := c.ended || outcome = .error }
    some { s.close k with control := .next events }

def step (s : Server) : Move → Option Server
  | .stop => some { s with running := false }
  | .test =>
    match s.control with
    | .testing => some { s with control := if s.running then .selecting else .returned }
    | _ => none
  | .select ready =>
    match s.control with
    | .selecting =>
      if ready.Nodup ∧ ready.all s.registered = true then some { s with control := .next ready }
      else none
    | _ => none
  | .accept outcome =>
    match s.control with
    | .accepting events => some (s.accept events outcome)
    | _ => none
  | .recv outcome =>
    match s.control with
    | .receiving k events => some (s.recv k events outcome)
    | _ => none
  | .send outcome =>
    match s.control with
    | .sending k data left events => s.send k data left events outcome
    | _ => none

end Server

end Excalibur.EchoServer
