import Excalibur.EchoServer.Invariant

/-! # The echo server and its clients

`_client_roundtrip` sends a message and reads until as much has come back.  Any number of
clients run it against the event loop; a byte stream in each direction holds what one side
has sent and the other has not received.  The clients are numbered as their connections
come to the listener, which hands them out in that order, so client `k` is at the other end
of connection `k`.

What a client has sent and read joins up with what the server has recorded of the
connection (`Linked`), and the echo is carried through by the server's own invariant.
-/

namespace Excalibur.EchoServer

open Excalibur.Library

/-! ## The program -/

inductive Phase where
  | running
  | returned
  | raised
  deriving Repr, DecidableEq

/-- A call of `_client_roundtrip` that is connected.  `unsent` is what `sendall` has left,
    and the two streams hold what is on its way. -/
structure Client where
  message : List UInt8
  unsent : List UInt8
  uplink : List UInt8
  downlink : List UInt8
  chunks : List UInt8
  phase : Phase
  deriving Repr, DecidableEq

structure World where
  server : Server
  clients : List Client
  deriving Repr, DecidableEq

/-- A move of the server, or of client `i`.  `raises` is a timeout or an `OSError`. -/
inductive Turn where
  | server (move : Move)
  | connect (message : List UInt8)
  | send (i n : Nat)
  | recv (i n : Nat)
  | eof (i : Nat)
  | finish (i : Nat)
  | raises (i : Nat)
  deriving Repr, DecidableEq

def Client.connected (message : List UInt8) : Client :=
  { message := message, unsent := message, uplink := [], downlink := [], chunks := [],
    phase := .running }

/-- The `while` loop goes on: the message is sent, and less than it has come back. -/
def Client.waiting (c : Client) : Bool :=
  c.phase = .running && c.unsent = [] && decide (c.chunks.length < c.message.length)

namespace World

def start : World := { server := .start, clients := [] }

/-- What `select` finds readable: a connection to accept, bytes, or an end. -/
def readable (w : World) : Key → Bool
  | .listener => decide (w.server.connections.length < w.clients.length)
  | .client k => (w.clients[k]?).any fun c => c.uplink ≠ [] || c.phase ≠ .running

/-- The streams after a move of the server; `none` when they do not allow it. -/
def deliver (w : World) (move : Move) : Option (List Client) :=
  match move, w.server.control with
  | .select ready, _ => if ready.all w.readable = true then some w.clients else none
  | .accept .connection, _ => if w.readable .listener = true then some w.clients else none
  | .accept .wouldBlock, _ => if w.readable .listener = true then none else some w.clients
  | .recv (.data chunk), .receiving k _ =>
    if (w.clients[k]?).any (fun c => chunk.bytes <+: c.uplink) = true then
      some (w.clients.modify k fun c => { c with uplink := c.uplink.drop chunk.bytes.length })
    else none
  | .recv .eof, .receiving k _ =>
    if (w.clients[k]?).any (fun c => c.uplink = [] && c.phase ≠ .running) = true then
      some w.clients
    else none
  | .send (.wrote n), .sending k _ left _ =>
    some (w.clients.modify k fun c => { c with downlink := c.downlink ++ left.take n })
  | _, _ => some w.clients

/-- Client `i` goes on, when it can. -/
def turn (w : World) (i : Nat) (can : Client → Bool) (f : Client → Client) : Option World :=
  if (w.clients[i]?).any can = true then some { w with clients := w.clients.modify i f } else none

def step (w : World) : Turn → Option World
  | .server move => do
    let server ← w.server.step move
    let clients ← w.deliver move
    return { server := server, clients := clients }
  | .connect message => some { w with clients := w.clients ++ [.connected message] }
  | .send i n =>
    w.turn i (fun c => c.phase = .running && decide (0 < n ∧ n ≤ c.unsent.length)) fun c =>
      { c with unsent := c.unsent.drop n, uplink := c.uplink ++ c.unsent.take n }
  | .recv i n =>
    w.turn i (fun c => c.waiting && decide (0 < n ∧ n ≤ 4096 ∧ n ≤ c.downlink.length)) fun c =>
      { c with downlink := c.downlink.drop n, chunks := c.chunks ++ c.downlink.take n }
  -- `recv` is empty when everything has been read from a connection that the server closed.
  | .eof i =>
    w.turn i (fun c => c.waiting && c.downlink = [] &&
      (w.server.connections[i]?).any (!·.isOpen)) fun c => { c with phase := .returned }
  | .finish i =>
    w.turn i (fun c => c.phase = .running && c.unsent = [] &&
      decide (c.message.length ≤ c.chunks.length)) fun c => { c with phase := .returned }
  | .raises i => w.turn i (fun c => c.phase = .running) fun c => { c with phase := .raised }

end World

/-! ## What the server does to the streams -/

/-- The bytes that a move of the server takes from client `j`. -/
def Move.takes (control : Control) (j : Nat) : Move → List UInt8
  | .recv outcome =>
    match control with
    | .receiving k _ => if j = k then outcome.bytes else []
    | _ => []
  | _ => []

/-- The bytes that it gives to client `j`. -/
def Move.gives (control : Control) (j : Nat) : Move → List UInt8
  | .send (.wrote n) => (control.left j).take n
  | _ => []

namespace Server

def received (s : Server) (j : Nat) : List UInt8 := (s.connections[j]?).elim [] (·.received)

def sent (s : Server) (j : Nat) : List UInt8 := (s.connections[j]?).elim [] (·.sent)

end Server

section Steps

variable {s next : Server} {k : Nat} {f : Connection → Connection}

theorem streams_same (same : next.connections = s.connections) (j : Nat) :
    next.received j = s.received j ∧ next.sent j = s.sent j := by
  simp only [Server.received, Server.sent, same, and_self]

theorem streams_modify (registered : s.registered (.client k) = true)
    (modified : next.connections = s.connections.modify k f) (taken given : List UInt8)
    (own : ∀ c, (f c).received = c.received ++ taken ∧ (f c).sent = c.sent ++ given) (j : Nat) :
    next.received j = s.received j ++ (if j = k then taken else []) ∧
      next.sent j = s.sent j ++ if j = k then given else [] := by
  simp only [Server.received, Server.sent, modified]
  by_cases here : j = k
  · subst here
    obtain ⟨c, found, -⟩ := registered_client.mp registered
    simp [List.getElem?_modify_eq, found, own]
  · simp [List.getElem?_modify_ne f s.connections (Ne.symm here), here]

/-- What a move of the server adds to what it has received and sent. -/
theorem streams_step {move : Move} (tracked : Tracked s) (stepped : s.step move = some next)
    (j : Nat) :
    next.received j = s.received j ++ move.takes s.control j ∧
      next.sent j = s.sent j ++ move.gives s.control j := by
  have same (connections : next.connections = s.connections) :
      next.received j = s.received j ++ [] ∧ next.sent j = s.sent j ++ [] := by
    simp only [List.append_nil]
    exact streams_same connections j
  cases move with
  | stop =>
    cases stepped
    exact same rfl
  | test =>
    obtain ⟨-, rfl⟩ := step_test stepped
    exact same rfl
  | select ready =>
    obtain ⟨-, -, -, rfl⟩ := step_select stepped
    exact same rfl
  | accept outcome =>
    obtain ⟨events, -, rfl⟩ := step_accept stepped
    cases outcome with
    | connection =>
      -- The new connection has received and sent nothing.
      simp only [Server.received, Server.sent, Server.accept, Move.takes, Move.gives,
        List.append_nil]
      rcases lt_trichotomy j s.connections.length with inside | rfl | beyond
      · rw [List.getElem?_append_left inside]
        exact ⟨rfl, rfl⟩
      · simp
      · rw [List.getElem?_eq_none (by simpa using beyond), List.getElem?_eq_none beyond.le]
        exact ⟨rfl, rfl⟩
    | wouldBlock | error => exact same rfl
  | recv outcome =>
    obtain ⟨k, events, control, rfl⟩ := step_recv stepped
    have registered := tracked.registered k (by simp [control])
    simp only [Move.takes, Move.gives, control]
    rcases recv_cases s k events outcome with
      ⟨rfl, modified, -⟩ | ⟨empty, modified, -⟩ | ⟨chunk, rfl, modified, -⟩
    · simpa [Recv.bytes] using streams_modify registered modified [] [] (by simp) j
    · simpa [empty, Connection.closed] using
        streams_modify registered modified [] [] (by simp [Connection.closed]) j
    · simpa [Recv.bytes] using streams_modify registered modified chunk.bytes [] (by simp) j
  | send outcome =>
    obtain ⟨k, data, left, events, control, sent⟩ := step_send stepped
    have registered := tracked.registered k (by simp [control])
    simp only [Move.takes]
    rcases send_cases sent with ⟨n, rfl, -, modified, -⟩ | ⟨raises, modified, -⟩
    · have streams := streams_modify registered modified [] (left.take n) (by simp) j
      simp only [Move.gives, control, left_sending]
      by_cases here : j = k
      · simpa [here] using streams
      · simpa [here] using streams
    · have nothing : Move.gives s.control j (.send outcome) = [] := by
        cases outcome with
        | wrote n => exact absurd rfl (raises n)
        | wouldBlock | error => rfl
      rw [nothing]
      simpa using streams_modify registered modified [] [] (by simp [Connection.closed]) j

theorem next_ne_raised (events : List Key) : Control.next events ≠ .raised := by
  rcases events with _ | ⟨_ | _, _⟩
  all_goals simp [Control.next]

/-- Whether the loop is at connection `k`. -/
def Control.handles (k : Nat) : Control → Bool
  | .receiving j _ => j == k
  | .sending j _ _ _ => j == k
  | _ => false

/-- Whether the connection is closed for something else than its end. -/
def Move.givesUp : Move → Bool
  | .recv .wouldBlock => true
  | .recv .reset => true
  | .send .wouldBlock => true
  | .send .error => true
  | _ => false

theorem closed_modify (modified : next.connections = s.connections.modify k f)
    (stays : ∀ c, (f c).isOpen = c.isOpen) {j : Nat} {c : Connection}
    (found : next.connections[j]? = some c) (closed : c.isOpen = false) :
    ∃ before, s.connections[j]? = some before ∧ before.isOpen = false := by
  rw [modified] at found
  by_cases here : k = j
  · subst here
    rw [List.getElem?_modify_eq] at found
    obtain ⟨before, was, rfl⟩ := Option.map_eq_some_iff.mp found
    exact ⟨before, was, by rw [← stays, closed]⟩
  · rw [List.getElem?_modify_ne f s.connections here] at found
    exact ⟨c, found, closed⟩

/-- A closed connection was closed before, or the loop was at it and met its end or gave up. -/
theorem closed_step {move : Move} (stepped : s.step move = some next) {j : Nat} {c : Connection}
    (found : next.connections[j]? = some c) (closed : c.isOpen = false) :
    (∃ before, s.connections[j]? = some before ∧ before.isOpen = false) ∨
      (s.control.handles j = true ∧ (move = .recv .eof ∨ move.givesUp = true)) := by
  have same (connections : next.connections = s.connections) :
      ∃ before, s.connections[j]? = some before ∧ before.isOpen = false := by
    rw [connections] at found
    exact ⟨c, found, closed⟩
  -- Only connection `k` is closed, so another one was closed before.
  have others {k : Nat} {ends : Bool} (other : k ≠ j)
      (modified : next.connections = s.connections.modify k (·.closed ends)) :
      ∃ before, s.connections[j]? = some before ∧ before.isOpen = false := by
    rw [modified, List.getElem?_modify_ne _ s.connections other] at found
    exact ⟨c, found, closed⟩
  cases move with
  | stop =>
    cases stepped
    exact .inl (same rfl)
  | test =>
    obtain ⟨-, rfl⟩ := step_test stepped
    exact .inl (same rfl)
  | select ready =>
    obtain ⟨-, -, -, rfl⟩ := step_select stepped
    exact .inl (same rfl)
  | accept outcome =>
    obtain ⟨events, -, rfl⟩ := step_accept stepped
    cases outcome with
    | connection =>
      rcases lt_or_ge j s.connections.length with inside | beyond
      · simp only [Server.accept, List.getElem?_append_left inside] at found
        exact .inl ⟨c, found, closed⟩
      · simp only [Server.accept, List.getElem?_append_right beyond] at found
        obtain rfl := List.mem_singleton.mp (List.mem_of_getElem? found)
        cases closed
    | wouldBlock | error => exact .inl (same rfl)
  | recv outcome =>
    obtain ⟨k, events, control, rfl⟩ := step_recv stepped
    rcases recv_cases s k events outcome with
      ⟨-, modified, -⟩ | ⟨empty, modified, goes, -⟩ | ⟨chunk, -, modified, -⟩
    · exact .inl (closed_modify modified (by simp) found closed)
    · by_cases here : k = j
      · refine .inr ⟨by simp [control, Control.handles, here], ?_⟩
        cases outcome with
        | data chunk => exact absurd empty chunk.nonempty
        | eof => exact .inl rfl
        | wouldBlock | reset => exact .inr rfl
        | error => exact absurd goes.symm (next_ne_raised events)
      · exact .inl (others here modified)
    · exact .inl (closed_modify modified (by simp) found closed)
  | send outcome =>
    obtain ⟨k, data, left, events, control, sent⟩ := step_send stepped
    rcases send_cases sent with ⟨n, -, -, modified, -⟩ | ⟨raises, modified, -⟩
    · exact .inl (closed_modify modified (by simp) found closed)
    · by_cases here : k = j
      · refine .inr ⟨by simp [control, Control.handles, here], .inr ?_⟩
        cases outcome with
        | wrote n => exact absurd rfl (raises n)
        | wouldBlock | error => rfl
      · exact .inl (others here modified)

theorem length_step {move : Move} (stepped : s.step move = some next) :
    next.connections.length =
      s.connections.length + if move = .accept .connection then 1 else 0 := by
  cases move with
  | stop =>
    cases stepped
    rfl
  | test =>
    obtain ⟨-, rfl⟩ := step_test stepped
    rfl
  | select ready =>
    obtain ⟨-, -, -, rfl⟩ := step_select stepped
    rfl
  | accept outcome =>
    obtain ⟨events, -, rfl⟩ := step_accept stepped
    cases outcome with
    | connection => simp [Server.accept]
    | wouldBlock | error => rfl
  | recv outcome =>
    obtain ⟨k, events, -, rfl⟩ := step_recv stepped
    rcases recv_cases s k events outcome with
      ⟨-, modified, -⟩ | ⟨-, modified, -⟩ | ⟨chunk, -, modified, -⟩
    all_goals simp [modified]
  | send outcome =>
    obtain ⟨k, data, left, events, -, sent⟩ := step_send stepped
    rcases send_cases sent with ⟨n, -, -, modified, -⟩ | ⟨-, modified, -⟩
    all_goals simp [modified]

end Steps

/-! ## The two ends of a connection -/

/-- What the client has sent is received, on its way or unsent, and what the server has sent
    is read or on its way. -/
structure Linked (s : Server) (j : Nat) (c : Client) : Prop where
  up : s.received j ++ (c.uplink ++ c.unsent) = c.message
  down : s.sent j = c.chunks ++ c.downlink

structure Coupled (w : World) : Prop where
  tracked : Tracked w.server
  few : w.server.connections.length ≤ w.clients.length
  linked : ∀ j c, w.clients[j]? = some c → Linked w.server j c

section Worlds

variable {w next : World} {i : Nat} {move : Move} {clients : List Client}

theorem received_beyond {s : Server} {j : Nat} (beyond : s.connections.length ≤ j) :
    s.received j = [] ∧ s.sent j = [] := by
  simp [Server.received, Server.sent, List.getElem?_eq_none beyond]

theorem length_deliver (delivered : w.deliver move = some clients) :
    clients.length = w.clients.length := by
  unfold World.deliver at delivered
  grind

/-- A client after a move of the server. -/
theorem deliver_cases (delivered : w.deliver move = some clients) {j : Nat} {c : Client}
    (found : clients[j]? = some c) :
    ∃ before rest, w.clients[j]? = some before ∧
      before.uplink = move.takes w.server.control j ++ rest ∧
      { before with
        uplink := rest, downlink := before.downlink ++ move.gives w.server.control j } = c := by
  have same (clientsSame : w.clients = clients) (takes : move.takes w.server.control j = [])
      (gives : move.gives w.server.control j = []) :
      ∃ before rest, w.clients[j]? = some before ∧
        before.uplink = move.takes w.server.control j ++ rest ∧
        { before with
          uplink := rest, downlink := before.downlink ++ move.gives w.server.control j } = c := by
    subst clientsSame
    exact ⟨c, c.uplink, found, by simp [takes], by simp [gives]⟩
  cases move with
  | stop | test => exact same (Option.some.inj delivered) rfl rfl
  | select ready =>
    simp only [World.deliver, Option.ite_none_right_eq_some] at delivered
    exact same (Option.some.inj delivered.2) rfl rfl
  | accept outcome =>
    cases outcome with
    | connection =>
      simp only [World.deliver, Option.ite_none_right_eq_some] at delivered
      exact same (Option.some.inj delivered.2) rfl rfl
    | wouldBlock =>
      simp only [World.deliver, Option.ite_none_left_eq_some] at delivered
      exact same (Option.some.inj delivered.2) rfl rfl
    | error => exact same (Option.some.inj delivered) rfl rfl
  | recv outcome =>
    rcases control : w.server.control with _ | _ | _ | ⟨k, events⟩ | _ | _ | _
    case receiving =>
      cases outcome with
      | data chunk =>
        simp only [World.deliver, control, Option.ite_none_right_eq_some] at delivered
        obtain ⟨arrived, delivered⟩ := delivered
        rw [← Option.some.inj delivered] at found
        by_cases here : k = j
        · subst here
          rw [List.getElem?_modify_eq] at found
          obtain ⟨before, was, spent⟩ := Option.map_eq_some_iff.mp found
          -- The chunk stood at the front of the stream.
          simp only [was, Option.any_some, decide_eq_true_eq] at arrived
          refine ⟨before, before.uplink.drop chunk.bytes.length, was, ?_, ?_⟩
          · simp only [Move.takes, if_true, Recv.bytes]
            exact (List.prefix_iff_eq_append.mp arrived).symm
          · simpa [Move.gives] using spent
        · rw [List.getElem?_modify_ne _ w.clients here] at found
          refine ⟨c, c.uplink, found, ?_, ?_⟩
          · simp [Move.takes, Ne.symm here]
          · simp [Move.gives]
      | eof =>
        simp only [World.deliver, control, Option.ite_none_right_eq_some] at delivered
        rw [← control]
        exact same (Option.some.inj delivered.2) (by simp [Move.takes, control, Recv.bytes]) rfl
      | wouldBlock | reset | error =>
        rw [← control]
        exact same (by simpa [World.deliver, control] using delivered)
          (by simp [Move.takes, control, Recv.bytes]) rfl
    all_goals
      rw [← control]
      refine same ?_ (by simp [Move.takes, control]) rfl
      cases outcome
      all_goals simpa [World.deliver, control] using delivered
  | send outcome =>
    rcases control : w.server.control with _ | _ | _ | _ | ⟨k, data, left, events⟩ | _ | _
    case sending =>
      cases outcome with
      | wrote n =>
        simp only [World.deliver, control] at delivered
        rw [← Option.some.inj delivered] at found
        simp only [Move.takes, Move.gives, left_sending, List.nil_append]
        by_cases here : k = j
        · subst here
          rw [List.getElem?_modify_eq] at found
          obtain ⟨before, was, grown⟩ := Option.map_eq_some_iff.mp found
          exact ⟨before, before.uplink, was, rfl, by simpa using grown⟩
        · rw [List.getElem?_modify_ne _ w.clients here] at found
          exact ⟨c, c.uplink, found, rfl, by simp [Ne.symm here]⟩
      | wouldBlock | error =>
        rw [← control]
        exact same (by simpa [World.deliver, control] using delivered) rfl rfl
    all_goals
      rw [← control]
      refine same ?_ rfl ?_
      · cases outcome
        all_goals simpa [World.deliver, control] using delivered
      · cases outcome
        all_goals simp [Move.gives, control, Control.left]

theorem turn_eq_some {can : Client → Bool} {f : Client → Client} :
    w.turn i can f = some next ↔
      ∃ c, w.clients[i]? = some c ∧ can c = true ∧
        { w with clients := w.clients.modify i f } = next := by
  simp only [World.turn, Option.ite_none_right_eq_some, Option.any_eq_true, Option.some.injEq]
  constructor
  · rintro ⟨⟨c, found, possible⟩, rfl⟩
    exact ⟨c, found, possible, rfl⟩
  · rintro ⟨c, found, possible, rfl⟩
    exact ⟨⟨c, found, possible⟩, rfl⟩

theorem step_server : w.step (.server move) = some next ↔
    ∃ server clients, w.server.step move = some server ∧ w.deliver move = some clients ∧
      { server := server, clients := clients } = next := by
  simp only [World.step, bind, Option.bind_eq_some_iff, pure, Option.some.injEq]
  constructor
  · rintro ⟨server, stepped, clients, delivered, rfl⟩
    exact ⟨server, clients, stepped, delivered, rfl⟩
  · rintro ⟨server, clients, stepped, delivered, rfl⟩
    exact ⟨server, stepped, clients, delivered, rfl⟩

/-- A client's own step keeps what the others have. -/
theorem Coupled.turn (coupled : Coupled w) {can : Client → Bool} {f : Client → Client}
    (turned : w.turn i can f = some next)
    (own : ∀ c, can c = true → Linked w.server i c → Linked w.server i (f c)) : Coupled next := by
  obtain ⟨c, found, possible, rfl⟩ := turn_eq_some.mp turned
  refine ⟨coupled.tracked, ?_, ?_⟩
  · simpa using coupled.few
  · rw [forall_modify]
    refine ⟨?_, ?_⟩
    · intro other same
      obtain rfl : c = other := Option.some.inj (found.symm.trans same)
      exact own c possible (coupled.linked i c found)
    · intro j other _ same
      exact coupled.linked j other same

theorem coupled_step {turn : Turn} (coupled : Coupled w) (stepped : w.step turn = some next) :
    Coupled next := by
  cases turn with
  | server move =>
    obtain ⟨server, clients, moved, delivered, rfl⟩ := step_server.mp stepped
    refine ⟨tracked_step coupled.tracked moved, ?_, ?_⟩
    · rw [length_step moved, length_deliver delivered]
      have few := coupled.few
      split
      · next accepted =>
        subst accepted
        simp only [World.deliver, World.readable, decide_eq_true_eq,
          Option.ite_none_right_eq_some] at delivered
        omega
      · exact few
    · intro j c found
      obtain ⟨before, rest, was, uplink, rfl⟩ := deliver_cases delivered found
      obtain ⟨received, sent⟩ := streams_step coupled.tracked moved j
      have linked := coupled.linked j before was
      refine ⟨?_, ?_⟩
      · rw [received, ← linked.up, uplink]
        simp
      · rw [sent, linked.down]
        simp
  | connect message =>
    cases stepped
    refine ⟨coupled.tracked, by simpa using coupled.few.trans (Nat.le_succ _), ?_⟩
    rw [forall_concat]
    refine ⟨coupled.linked, ?_⟩
    obtain ⟨received, sent⟩ := received_beyond coupled.few
    exact ⟨by simp [received, Client.connected], by simp [sent, Client.connected]⟩
  | send i n =>
    apply coupled.turn stepped
    intro c _ linked
    exact ⟨by simpa using linked.up, linked.down⟩
  | recv i n =>
    apply coupled.turn stepped
    intro c _ linked
    exact ⟨linked.up, by simpa using linked.down⟩
  | eof i | finish i | raises i =>
    apply coupled.turn stepped
    intro c _ linked
    exact ⟨linked.up, linked.down⟩

theorem coupled_start : Coupled .start :=
  ⟨tracked_start, le_rfl, by simp [World.start]⟩

/-- What a client has read back is the beginning of its message. -/
theorem Coupled.prefixed (coupled : Coupled w) {c : Client} (found : w.clients[i]? = some c) :
    c.chunks <+: c.message := by
  have linked := coupled.linked i c found
  have sent : w.server.sent i <+: w.server.received i := by
    simp only [Server.sent, Server.received]
    cases connected : w.server.connections[i]? with
    | none => exact List.prefix_rfl
    | some connection => exact (coupled.tracked.connections i connection connected).prefixed
  calc
    c.chunks <+: w.server.sent i := by
      rw [linked.down]
      exact List.prefix_append ..
    _ <+: w.server.received i := sent
    _ <+: c.message := by
      rw [← linked.up]
      exact List.prefix_append ..

/-! ## What comes back -/

/-- Whether the server is at connection `i` and gives it up before its end. -/
def World.troubles (w : World) (i : Nat) : Turn → Bool
  | .server move => move.givesUp && w.server.control.handles i
  | _ => false

/-- Client `i` finds its connection open as long as it runs, and returns its message. -/
structure Undisturbed (w : World) (i : Nat) : Prop where
  connected : ∀ c connection, w.clients[i]? = some c → w.server.connections[i]? = some connection →
    c.phase = .running → connection.isOpen = true
  whole : ∀ c, w.clients[i]? = some c → c.phase = .returned → c.chunks = c.message

theorem Undisturbed.turn (undisturbed : Undisturbed w i) {j : Nat} {can : Client → Bool}
    {f : Client → Client} (turned : w.turn j can f = some next)
    (own : ∀ c, j = i → w.clients[i]? = some c → can c = true →
      ((f c).phase = .running → c.phase = .running) ∧
        ((f c).phase = .returned → (f c).chunks = (f c).message)) : Undisturbed next i := by
  obtain ⟨c, found, possible, rfl⟩ := turn_eq_some.mp turned
  by_cases here : j = i
  · subst here
    obtain ⟨running, returned⟩ := own c rfl found possible
    have after : (w.clients.modify j f)[j]? = some (f c) := by
      rw [List.getElem?_modify_eq, found]
      rfl
    refine ⟨?_, ?_⟩
    · intro other connection same connected
      rw [after, Option.some.injEq] at same
      subst same
      exact fun runs => undisturbed.connected c connection found connected (running runs)
    · intro other same
      rw [after, Option.some.injEq] at same
      subst same
      exact returned
  · have same : (w.clients.modify j f)[i]? = w.clients[i]? :=
      List.getElem?_modify_ne f w.clients here
    refine ⟨?_, ?_⟩
    · intro other connection found
      rw [same] at found
      exact undisturbed.connected other connection found
    · intro other found
      rw [same] at found
      exact undisturbed.whole other found

/-- Only the end of a client's stream closes its connection, and then it runs no more. -/
theorem Undisturbed.server (undisturbed : Undisturbed w i)
    (free : w.troubles i (.server move) = false) {server : Server}
    (moved : w.server.step move = some server) (delivered : w.deliver move = some clients) :
    Undisturbed { server := server, clients := clients } i := by
  refine ⟨?_, ?_⟩
  · intro c connection found connected runs
    obtain ⟨before, rest, was, -, rfl⟩ := deliver_cases delivered found
    by_contra closed
    rcases closed_step moved connected (by simpa using closed) with
      ⟨earlier, found', closed'⟩ | ⟨handles, rfl | givesUp⟩
    · rw [undisturbed.connected before earlier was found' runs] at closed'
      cases closed'
    · obtain ⟨k, events, control, -⟩ := step_recv moved
      rw [control, Control.handles, beq_iff_eq] at handles
      subst handles
      simp only [World.deliver, control, was, Option.any_some, Option.ite_none_right_eq_some,
        Bool.and_eq_true, decide_eq_true_eq] at delivered
      exact delivered.1.2 runs
    · simp [World.troubles, givesUp, handles] at free
  · intro c found returned
    obtain ⟨before, rest, was, -, rfl⟩ := deliver_cases delivered found
    exact undisturbed.whole before was returned

theorem undisturbed_step {turn : Turn} (coupled : Coupled w) (undisturbed : Undisturbed w i)
    (free : w.troubles i turn = false) (stepped : w.step turn = some next) :
    Undisturbed next i := by
  cases turn with
  | server move =>
    obtain ⟨server, clients, moved, delivered, rfl⟩ := step_server.mp stepped
    exact undisturbed.server free moved delivered
  | connect message =>
    cases stepped
    have few := coupled.few
    refine ⟨?_, ?_⟩
    · intro c connection found connected runs
      have accepted : i < w.server.connections.length :=
        (List.getElem?_eq_some_iff.mp connected).1
      rw [List.getElem?_append_left (by omega)] at found
      exact undisturbed.connected c connection found connected runs
    · intro c found returned
      rcases lt_or_ge i w.clients.length with inside | beyond
      · rw [List.getElem?_append_left inside] at found
        exact undisturbed.whole c found returned
      · rw [List.getElem?_append_right beyond] at found
        obtain rfl := List.mem_singleton.mp (List.mem_of_getElem? found)
        cases returned
  | send j n =>
    apply undisturbed.turn stepped
    intro c _ _ can
    simp only [Bool.and_eq_true, decide_eq_true_eq] at can
    simp [can.1]
  | recv j n =>
    apply undisturbed.turn stepped
    intro c _ _ can
    simp only [Client.waiting, Bool.and_eq_true, decide_eq_true_eq] at can
    simp [can.1.1.1]
  | eof j =>
    apply undisturbed.turn stepped
    rintro c rfl found can
    simp only [Client.waiting, Bool.and_eq_true, decide_eq_true_eq, Option.any_eq_true,
      Bool.not_eq_true'] at can
    -- The server has not closed the connection while the client was running.
    obtain ⟨⟨⟨⟨runs, -⟩, -⟩, -⟩, connection, connected, closed⟩ := can
    rw [undisturbed.connected c connection found connected runs] at closed
    cases closed
  | finish j =>
    apply undisturbed.turn stepped
    rintro c rfl found can
    simp only [Bool.and_eq_true, decide_eq_true_eq] at can
    exact ⟨fun runs => can.1.1, fun _ => (coupled.prefixed found).eq_of_length_le can.2⟩
  | raises j =>
    apply undisturbed.turn stepped
    simp

end Worlds

/-- Two clients, of which the second is given up after one byte of its echo. -/
def twoRoundtrips : List Turn :=
  [.connect [104, 105], .connect [111, 107], .send 1 2, .server .test,
    .server (.select [.listener]), .server (.accept .connection), .server (.accept .connection),
    .server (.accept .wouldBlock), .send 0 1, .server .test,
    .server (.select [.client 1, .client 0]),
    .server (.recv (.data ⟨[111, 107], by decide, by decide⟩)), .server (.send (.wrote 1)),
    .server (.send .wouldBlock), .server (.recv (.data ⟨[104], by decide, by decide⟩)),
    .server (.send (.wrote 1)), .recv 1 1, .eof 1, .send 0 1, .recv 0 1, .server .test,
    .server (.select [.client 0]), .server (.recv (.data ⟨[105], by decide, by decide⟩)),
    .server (.send (.wrote 1)), .recv 0 1, .finish 0]

end Excalibur.EchoServer
