import Excalibur.EchoServer.Invariant

/-! # What a connection is closed for

An empty `recv` and a `recv` that would block both leave `data` empty, and `except OSError`
takes a full send buffer for a dead peer.  `echo_integrity_iff` says that the runs in which
neither happens are the ones that echo as they should.
-/

namespace Excalibur.EchoServer

open Excalibur.Library

section Steps

variable {s next : Server} {k : Nat} {f : Connection → Connection}

/-! ## Closing -/

/-- Whether the answer is `BlockingIOError`, on a connection. -/
def Move.wouldBlock : Move → Bool
  | .recv .wouldBlock => true
  | .send .wouldBlock => true
  | _ => false

theorem ends_of_empty {outcome : Recv} (empty : outcome.bytes = [])
    (free : (Move.recv outcome).wouldBlock = false) : outcome.ends = true := by
  cases outcome with
  | data chunk => exact absurd empty chunk.nonempty
  | wouldBlock => contradiction
  | eof | reset | error => rfl

theorem error_of_raises {outcome : Send} (raises : ∀ n, outcome ≠ .wrote n)
    (free : (Move.send outcome).wouldBlock = false) : outcome = .error := by
  cases outcome with
  | wrote n => exact absurd rfl (raises n)
  | wouldBlock => contradiction
  | error => rfl

/-- No connection is closed but for what its socket has reported. -/
def Justified (s : Server) : Prop :=
  ∀ (k : Nat) (c : Connection), s.connections[k]? = some c → c.isOpen = false → c.ended = true

theorem justified_modify (justified : Justified s)
    (modified : next.connections = s.connections.modify k f)
    (own : ∀ c : Connection, (f c).isOpen = false → (f c).ended = true ∨
      (c.isOpen = false ∧ (c.ended = true → (f c).ended = true))) : Justified next := by
  unfold Justified
  rw [modified, forall_modify]
  refine ⟨?_, ?_⟩
  · intro c found closed
    rcases own c closed with ended | ⟨before, kept⟩
    · exact ended
    · exact kept (justified k c found before)
  · intro j c _ found
    exact justified j c found

theorem justified_step {move : Move} (justified : Justified s) (free : move.wouldBlock = false)
    (stepped : s.step move = some next) : Justified next := by
  cases move with
  | stop =>
    cases stepped
    exact justified
  | test =>
    obtain ⟨-, rfl⟩ := step_test stepped
    exact justified
  | select ready =>
    obtain ⟨-, -, -, rfl⟩ := step_select stepped
    exact justified
  | accept outcome =>
    obtain ⟨events, -, rfl⟩ := step_accept stepped
    cases outcome with
    | connection =>
      unfold Justified
      simp only [Server.accept]
      rw [forall_concat]
      exact ⟨justified, by simp⟩
    | wouldBlock | error => exact justified
  | recv outcome =>
    obtain ⟨k, events, -, rfl⟩ := step_recv stepped
    rcases recv_cases s k events outcome with
      ⟨-, modified, -⟩ | ⟨empty, modified, -⟩ | ⟨chunk, -, modified, -⟩
    -- Receiving that fails leaves the connection open.
    · apply justified_modify justified modified
      simp
    · apply justified_modify justified modified
      -- The peer closed: an empty answer is the end that justifies closing.
      intro c _
      simp [Connection.closed, ends_of_empty empty free]
    · apply justified_modify justified modified
      intro c closed
      exact .inr ⟨closed, fun ended => ended⟩
  | send outcome =>
    obtain ⟨k, data, left, events, -, sent⟩ := step_send stepped
    rcases send_cases sent with ⟨n, -, -, modified, -⟩ | ⟨raises, modified, -⟩
    · apply justified_modify justified modified
      intro c closed
      exact .inr ⟨closed, fun ended => ended⟩
    · apply justified_modify justified modified
      intro c _
      simp [Connection.closed, error_of_raises raises free]

/-- An operation that would block closes a connection whose socket has reported nothing. -/
theorem wouldBlock_closes {move : Move} (tracked : Tracked s) (blocks : move.wouldBlock = true)
    (stepped : s.step move = some next) : ¬ Justified next := by
  have closes {k : Nat} (member : k ∈ s.control.batch) (alive : s.control ≠ .raised)
      (modified : next.connections = s.connections.modify k (·.closed false)) :
      ¬ Justified next := by
    -- The connection was open before, so nothing had ended it, and `close` records no error.
    obtain ⟨c, found, isOpen⟩ := registered_client.mp (tracked.registered k member)
    intro justified
    have ended := justified k (c.closed false) (by simp [modified, found]) rfl
    have quiet := (tracked.connections k c found).quiet isOpen alive
    simp [Connection.closed, quiet] at ended
  cases move with
  | recv outcome =>
    obtain ⟨k, events, control, rfl⟩ := step_recv stepped
    cases outcome with
    | wouldBlock =>
      rcases recv_cases s k events .wouldBlock with ⟨error, -⟩ | ⟨-, modified, -⟩ | ⟨_, data, -⟩
      · contradiction
      · exact closes (by simp [control]) (by simp [control]) modified
      · contradiction
    | _ => contradiction
  | send outcome =>
    obtain ⟨k, data, left, events, control, sent⟩ := step_send stepped
    cases outcome with
    | wouldBlock =>
      rcases send_cases sent with ⟨_, wrote, -⟩ | ⟨-, modified, -⟩
      · contradiction
      · exact closes (by simp [control]) (by simp [control]) modified
    | _ => contradiction
  | _ => contradiction

end Steps

/-! ## The echo -/

/-- Whether the loop is inside a `sendall` to connection `k`. -/
def Control.sendsTo (k : Nat) : Control → Bool
  | .sending j _ _ _ => j == k
  | _ => false

/-- What the echo server promises of every connection. -/
def Intact (s : Server) : Prop :=
  ∀ (k : Nat) (c : Connection), s.connections[k]? = some c →
    c.sent <+: c.received ∧
    (c.isOpen = true → s.control.sendsTo k = false → c.sent = c.received) ∧
    (c.isOpen = false → c.ended = true)

theorem intact_iff {s : Server} (tracked : Tracked s) : Intact s ↔ Justified s := by
  constructor
  · intro intact k c found
    exact (intact k c found).2.2
  · intro justified k c found
    have own := tracked.connections k c found
    refine ⟨own.prefixed, ?_, justified k c found⟩
    intro isOpen elsewhere
    have nothing : s.control.left k = [] := by
      cases control : s.control with
      | sending j data left events =>
        rw [control] at elsewhere
        have other : k ≠ j := by
          rintro rfl
          simp [Control.sendsTo] at elsewhere
        simp [other]
      | _ => rfl
    have echoed := own.echoed isOpen
    rw [nothing, List.append_nil] at echoed
    exact echoed.symm

/-- The echo is intact in all states of exactly the runs in which no `recv` and no `send`
    would block. -/
theorem echo_integrity_iff (moves : List Move) :
    (∀ s, Visited Server.step .start moves s → Intact s) ↔
      ∀ s move, Taken Server.step .start moves s move → move.wouldBlock = false := by
  apply all_states_iff_all_steps Tracked Justified (run_keeps_tracked moves)
  · simp [Justified, Server.start]
  · intro s tracked
    exact (intact_iff tracked).mpr
  · intro s move next _ justified free stepped
    exact justified_step justified free stepped
  · intro s move next tracked blocks stepped intact
    have blocks : move.wouldBlock = true := by simpa using blocks
    have after := tracked_step tracked stepped
    exact wouldBlock_closes tracked blocks stepped ((intact_iff after).mp intact)

/-- A `send` of one byte of two and then a full buffer, and a `recv` that would block: both
    connections are closed, and the second byte is lost. -/
theorem would_block_closes :
    ∃ s, run Server.step .start
        [.test, .select [.listener], .accept .connection, .accept .connection, .accept .wouldBlock,
          .test, .select [.client 0, .client 1],
          .recv (.data ⟨[104, 105], by decide, by decide⟩), .send (.wrote 1), .send .wouldBlock,
          .recv .wouldBlock] = some s ∧
      s.connections = [
        { isOpen := false, received := [104, 105], sent := [104], ended := false },
        { isOpen := false, received := [], sent := [], ended := false }] ∧
      ¬ Intact s := by
  refine ⟨_, rfl, rfl, ?_⟩
  intro intact
  have closed := (intact 0 _ rfl).2.2 rfl
  contradiction

end Excalibur.EchoServer
