import Excalibur.EchoServer.EventLoop
import Excalibur.Library.Parties

/-! # What holds of every connection

Whatever the selector and the sockets answer, an open connection has been sent what it
received but for what the present `sendall` has left, and the keys still to be handled are
those of open connections, each once.  So a connection is handled by one event at a time and
closed at most once: `tracked_step`, and `run_keeps_tracked` for whole runs.
-/

namespace Excalibur.EchoServer

open Excalibur.Library

/-! ## The invariant -/

/-- The bytes of connection `k` that the present `sendall` has not written. -/
def Control.left (j : Nat) : Control → List UInt8
  | .sending k _ left _ => if j = k then left else []
  | _ => []

def clients (events : List Key) : List Nat :=
  events.filterMap fun
    | .listener => none
    | .client k => some k

/-- The connections still to be handled, the one being handled first. -/
def Control.batch : Control → List Nat
  | .accepting events => clients events
  | .receiving k events => k :: clients events
  | .sending k _ _ events => k :: clients events
  | _ => []

@[simp] theorem left_accepting (j : Nat) (events : List Key) :
    (Control.accepting events).left j = [] := rfl

@[simp] theorem left_receiving (j k : Nat) (events : List Key) :
    (Control.receiving k events).left j = [] := rfl

@[simp] theorem left_sending (j k : Nat) (data left : List UInt8) (events : List Key) :
    (Control.sending k data left events).left j = if j = k then left else [] := rfl

@[simp] theorem left_raised (j : Nat) : Control.raised.left j = [] := rfl

@[simp] theorem left_next (j : Nat) (events : List Key) : (Control.next events).left j = [] := by
  rcases events with _ | ⟨_ | _, _⟩ <;> rfl

@[simp] theorem batch_accepting (events : List Key) :
    (Control.accepting events).batch = clients events := rfl

@[simp] theorem batch_receiving (k : Nat) (events : List Key) :
    (Control.receiving k events).batch = k :: clients events := rfl

@[simp] theorem batch_sending (k : Nat) (data left : List UInt8) (events : List Key) :
    (Control.sending k data left events).batch = k :: clients events := rfl

@[simp] theorem batch_raised : Control.raised.batch = [] := rfl

@[simp] theorem batch_next (events : List Key) : (Control.next events).batch = clients events := by
  rcases events with _ | ⟨_ | _, _⟩ <;> rfl

/-- An open connection has been sent what it received, but for what is left of the present
    `sendall`, and its socket has reported nothing yet. -/
structure Connection.Tracked (control : Control) (k : Nat) (c : Connection) : Prop where
  prefixed : c.sent <+: c.received
  echoed : c.isOpen = true → c.received = c.sent ++ control.left k
  quiet : c.isOpen = true → control ≠ .raised → c.ended = false

structure Tracked (s : Server) : Prop where
  connections : ∀ (k : Nat) (c : Connection), s.connections[k]? = some c → c.Tracked s.control k
  distinct : s.control.batch.Nodup
  registered : ∀ k ∈ s.control.batch, s.registered (.client k) = true

section Steps

variable {s next : Server} {k : Nat} {f : Connection → Connection}

theorem Connection.Tracked.carry {control after : Control} {j : Nat} {c : Connection}
    (tracked : c.Tracked control j) (left : after.left j = control.left j)
    (alive : control ≠ .raised) : c.Tracked after j := by
  refine ⟨tracked.prefixed, ?_, ?_⟩
  · rw [left]
    exact tracked.echoed
  · intro isOpen _
    exact tracked.quiet isOpen alive

theorem registered_client : s.registered (.client k) = true ↔
    ∃ c, s.connections[k]? = some c ∧ c.isOpen = true := by
  simp only [Server.registered]
  cases s.connections[k]? with
  | none => simp
  | some c => simp

/-- A move that changes the connection being handled, and no other. -/
theorem Tracked.update (tracked : Tracked s) (alive : s.control ≠ .raised)
    (modified : next.connections = s.connections.modify k f)
    (own : ∀ c, s.connections[k]? = some c → c.Tracked s.control k →
      (f c).Tracked next.control k)
    (others : ∀ j, j ≠ k → next.control.left j = s.control.left j)
    (batch : next.control.batch <:+ s.control.batch)
    (kept : k ∈ next.control.batch → ∀ c, (f c).isOpen = c.isOpen) : Tracked next := by
  refine ⟨?_, tracked.distinct.sublist batch.sublist, ?_⟩
  · rw [modified, forall_modify]
    refine ⟨?_, ?_⟩
    · intro c found
      exact own c found (tracked.connections k c found)
    · intro j c other found
      exact (tracked.connections j c found).carry (others j other) alive
  · intro j member
    obtain ⟨c, found, isOpen⟩ := registered_client.mp (tracked.registered j (batch.mem member))
    apply registered_client.mpr
    rw [modified]
    by_cases same : k = j
    · subst same
      refine ⟨f c, ?_, ?_⟩
      · rw [List.getElem?_modify_eq, found]
        rfl
      · rw [kept member, isOpen]
    · refine ⟨c, ?_, isOpen⟩
      rw [List.getElem?_modify_ne f s.connections same]
      exact found

/-- A move that changes no connection. -/
theorem Tracked.goto (tracked : Tracked s) (alive : s.control ≠ .raised)
    (same : next.connections = s.connections)
    (left : ∀ j, next.control.left j = s.control.left j)
    (distinct : next.control.batch.Nodup)
    (registered : ∀ j ∈ next.control.batch, s.registered (.client j) = true) : Tracked next := by
  refine ⟨?_, distinct, ?_⟩
  · intro j c found
    rw [same] at found
    exact (tracked.connections j c found).carry (left j) alive
  · intro j member
    rw [Server.registered, same]
    exact registered j member

theorem tracked_start : Tracked .start := by
  refine ⟨?_, ?_, ?_⟩
  · simp [Server.start]
  · exact List.nodup_nil
  · simp [Server.start, Control.batch]

theorem mem_clients {events : List Key} : k ∈ clients events ↔ Key.client k ∈ events := by
  simp only [clients, List.mem_filterMap]
  constructor
  · rintro ⟨_ | j, member, same⟩
    · simp at same
    · cases same
      exact member
  · intro member
    exact ⟨.client k, member, rfl⟩

theorem clients_distinct {events : List Key} (distinct : events.Nodup) :
    (clients events).Nodup := by
  apply distinct.filterMap
  rintro (_ | i) (_ | j) k first second <;> simp_all

theorem tracked_accept {events : List Key} (tracked : Tracked s)
    (control : s.control = .accepting events) (outcome : Accept) :
    Tracked (s.accept events outcome) := by
  have distinct := tracked.distinct
  have registered := tracked.registered
  simp only [control, batch_accepting] at distinct registered
  cases outcome with
  | connection =>
    -- The new connection comes last, so the keys of the others stay theirs.
    refine ⟨?_, tracked.distinct, ?_⟩
    · simp only [Server.accept]
      rw [forall_concat]
      refine ⟨tracked.connections, ?_, ?_, ?_⟩
      · exact List.prefix_rfl
      · simp [control]
      · simp
    · intro j member
      obtain ⟨c, found, isOpen⟩ := registered_client.mp (tracked.registered j member)
      obtain ⟨inside, -⟩ := List.getElem?_eq_some_iff.mp found
      apply registered_client.mpr
      refine ⟨c, ?_, isOpen⟩
      simp only [Server.accept]
      rw [List.getElem?_append_left inside, found]
  | wouldBlock =>
    refine tracked.goto (by simp [control]) rfl ?_ ?_ ?_
    · simp [Server.accept, control]
    · simpa [Server.accept] using distinct
    · simpa [Server.accept] using registered
  | error =>
    refine tracked.goto (by simp [control]) rfl ?_ ?_ ?_
    · simp [Server.accept, control]
    · simp [Server.accept]
    · simp [Server.accept]

/-! ## One `recv`, one `send` -/

/-- A connection after `_close`, with whether its socket has reported an end by then. -/
def Connection.closed (ends : Bool) (c : Connection) : Connection :=
  { c with isOpen := false, ended := c.ended || ends }

theorem recv_cases (s : Server) (k : Nat) (events : List Key) (outcome : Recv) :
    (outcome = .error ∧
      (s.recv k events outcome).connections =
        s.connections.modify k (fun c => { c with ended := true }) ∧
      (s.recv k events outcome).control = .raised ∧
      (s.recv k events outcome).connections_served = s.connections_served) ∨
    (outcome.bytes = [] ∧
      (s.recv k events outcome).connections = s.connections.modify k (·.closed outcome.ends) ∧
      (s.recv k events outcome).control = .next events ∧
      (s.recv k events outcome).connections_served = s.connections_served + 1) ∨
    (∃ chunk, outcome = .data chunk ∧
      (s.recv k events outcome).connections =
        s.connections.modify k (fun c => { c with received := c.received ++ chunk.bytes }) ∧
      (s.recv k events outcome).control = .sending k chunk.bytes chunk.bytes events ∧
      (s.recv k events outcome).connections_served = s.connections_served) := by
  cases outcome with
  | error =>
    refine .inl ⟨rfl, ?_, rfl, rfl⟩
    simp [Server.recv, Server.modify, Recv.bytes, Recv.ends]
  | data chunk =>
    refine .inr (.inr ⟨chunk, rfl, ?_, ?_, ?_⟩)
    · simp [Server.recv, Server.modify, Recv.bytes, Recv.ends, chunk.nonempty]
    · simp [Server.recv, Recv.bytes, chunk.nonempty]
    · simp [Server.recv, Server.modify, Recv.bytes, chunk.nonempty]
  | eof | wouldBlock | reset =>
    refine .inr (.inl ⟨rfl, ?_, rfl, rfl⟩)
    simp [Server.recv, Server.close, Server.modify, Recv.bytes, Recv.ends, Connection.closed,
      List.modify_modify_eq, Function.comp_def]

theorem send_cases {events : List Key} {data left : List UInt8} {outcome : Send}
    (stepped : s.send k data left events outcome = some next) :
    (∃ n, outcome = .wrote n ∧ n ≤ left.length ∧
      next.connections = s.connections.modify k (fun c => { c with sent := c.sent ++ left.take n }) ∧
      next.control =
        (if n = left.length then .next events else .sending k data (left.drop n) events) ∧
      next.connections_served = s.connections_served) ∨
    ((∀ n, outcome ≠ .wrote n) ∧
      next.connections = s.connections.modify k (·.closed (outcome = .error)) ∧
      next.control = .next events ∧
      next.connections_served = s.connections_served + 1) := by
  cases outcome with
  | wrote n =>
    simp only [Server.send] at stepped
    -- At most what is left can be written.
    split at stepped
    · next possible =>
      refine .inl ⟨n, rfl, possible.2, ?_⟩
      split at stepped
      · next whole =>
        cases stepped
        simp [Server.modify, whole]
      · next part =>
        cases stepped
        simp [Server.modify, part]
    · contradiction
  | wouldBlock | error =>
    simp only [Server.send, Option.some.injEq] at stepped
    subst stepped
    refine .inr ⟨by simp, ?_, rfl, rfl⟩
    simp [Server.close, Server.modify, Connection.closed, List.modify_modify_eq,
      Function.comp_def]

/-- The end of the handling: the connection is closed or has nothing left. -/
theorem Tracked.handled {events : List Key} (tracked : Tracked s) (alive : s.control ≠ .raised)
    (batch : s.control.batch = k :: clients events)
    (others : ∀ j, j ≠ k → s.control.left j = [])
    (modified : next.connections = s.connections.modify k f)
    (control : next.control = .next events)
    (own : ∀ c : Connection, s.connections[k]? = some c → c.Tracked s.control k →
      (f c).Tracked (.next events) k) : Tracked next := by
  -- The keys still to be handled are others, so that it may be closed.
  have distinct := tracked.distinct
  rw [batch, List.nodup_cons] at distinct
  refine tracked.update alive modified ?_ ?_ ?_ ?_
  · rw [control]
    exact own
  · intro j other
    rw [control, left_next, others j other]
  · rw [control, batch_next, batch]
    exact List.suffix_cons ..
  · intro member
    rw [control, batch_next] at member
    exact absurd member distinct.1

theorem Connection.Tracked.closed {control after : Control} {c : Connection}
    (tracked : c.Tracked control k) (ends : Bool) : (c.closed ends).Tracked after k where
  prefixed := tracked.prefixed
  echoed := by simp [Connection.closed]
  quiet := by simp [Connection.closed]

theorem tracked_recv {events : List Key} (tracked : Tracked s)
    (control : s.control = .receiving k events) (outcome : Recv) :
    Tracked (s.recv k events outcome) := by
  have alive : s.control ≠ .raised := by simp [control]
  have batch : s.control.batch = k :: clients events := by simp [control]
  have left (j : Nat) : s.control.left j = [] := by simp [control]
  rcases recv_cases s k events outcome with
    ⟨-, modified, goes, -⟩ | ⟨-, modified, goes, -⟩ | ⟨chunk, -, modified, goes, -⟩
  · refine tracked.update alive modified ?_ ?_ ?_ ?_
    · intro c _ own
      refine ⟨own.prefixed, ?_, ?_⟩
      · simpa [goes, left] using own.echoed
      · simp [goes]
    · simp [goes, left]
    · simp [goes]
    · simp [goes]
  · apply tracked.handled alive batch (fun j _ => left j) modified goes
    intro c _ own
    exact own.closed outcome.ends
  -- A chunk was read: it is what this connection has left to send.
  · refine tracked.update alive modified ?_ ?_ ?_ ?_
    · intro c _ own
      refine ⟨own.prefixed.trans (List.prefix_append ..), ?_, ?_⟩
      · intro isOpen
        simpa [goes, left] using own.echoed isOpen
      · intro isOpen _
        exact own.quiet isOpen alive
    · intro j other
      simp [goes, left, other]
    · simp [goes, batch]
    · simp

theorem tracked_send {events : List Key} {data left : List UInt8} {outcome : Send}
    (tracked : Tracked s) (control : s.control = .sending k data left events)
    (stepped : s.send k data left events outcome = some next) : Tracked next := by
  have alive : s.control ≠ .raised := by simp [control]
  have batch : s.control.batch = k :: clients events := by simp [control]
  have others (j : Nat) (other : j ≠ k) : s.control.left j = [] := by simp [control, other]
  obtain ⟨conn, found, isOpen⟩ := registered_client.mp (tracked.registered k (by simp [batch]))
  rcases send_cases stepped with ⟨n, -, within, modified, goes, -⟩ | ⟨-, modified, goes, -⟩
  · have received : conn.received = (conn.sent ++ left.take n) ++ left.drop n := by
      simpa [control] using (tracked.connections k conn found).echoed isOpen
    -- What is left behind the bytes just written is what the next state has left.
    have own (after : Control) (leaves : after.left k = left.drop n) (c : Connection)
        (same : s.connections[k]? = some c) (own : c.Tracked s.control k) :
        ({ c with sent := c.sent ++ left.take n } : Connection).Tracked after k := by
      rw [found, Option.some.injEq] at same
      subst same
      refine ⟨?_, ?_, ?_⟩
      · rw [received]
        exact List.prefix_append ..
      · intro _
        rw [leaves]
        exact received
      · intro _ _
        exact own.quiet isOpen alive
    by_cases whole : n = left.length
    · rw [if_pos whole] at goes
      exact tracked.handled alive batch others modified goes (own _ (by simp [whole]))
    · rw [if_neg whole] at goes
      refine tracked.update alive modified ?_ ?_ ?_ ?_
      · exact own _ (by simp [goes])
      · intro j other
        simp [goes, others j other, other]
      · simp [goes, batch]
      · simp
  · apply tracked.handled alive batch others modified goes
    intro c _ own
    exact own.closed (outcome = .error)

/-! ## One move -/

theorem step_test (stepped : s.step .test = some next) :
    s.control = .testing ∧
      next = { s with control := if s.running then .selecting else .returned } := by
  simp only [Server.step] at stepped
  split at stepped
  · next control => exact ⟨control, (Option.some.inj stepped).symm⟩
  · contradiction

theorem step_select {ready : List Key} (stepped : s.step (.select ready) = some next) :
    s.control = .selecting ∧ ready.Nodup ∧ (∀ key ∈ ready, s.registered key = true) ∧
      next = { s with control := .next ready } := by
  simp only [Server.step] at stepped
  split at stepped
  · next control =>
    split at stepped
    · next possible =>
      exact ⟨control, possible.1, List.all_eq_true.mp possible.2, (Option.some.inj stepped).symm⟩
    · contradiction
  · contradiction

theorem step_accept {outcome : Accept} (stepped : s.step (.accept outcome) = some next) :
    ∃ events, s.control = .accepting events ∧ next = s.accept events outcome := by
  simp only [Server.step] at stepped
  split at stepped
  · next events control => exact ⟨events, control, (Option.some.inj stepped).symm⟩
  · contradiction

theorem step_recv {outcome : Recv} (stepped : s.step (.recv outcome) = some next) :
    ∃ k events, s.control = .receiving k events ∧ next = s.recv k events outcome := by
  simp only [Server.step] at stepped
  split at stepped
  · next k events control => exact ⟨k, events, control, (Option.some.inj stepped).symm⟩
  · contradiction

theorem step_send {outcome : Send} (stepped : s.step (.send outcome) = some next) :
    ∃ k data left events, s.control = .sending k data left events ∧
      s.send k data left events outcome = some next := by
  simp only [Server.step] at stepped
  split at stepped
  · next k data left events control => exact ⟨k, data, left, events, control, stepped⟩
  · contradiction

theorem tracked_step {move : Move} (tracked : Tracked s) (stepped : s.step move = some next) :
    Tracked next := by
  cases move with
  | stop =>
    cases stepped
    exact ⟨tracked.connections, tracked.distinct, tracked.registered⟩
  | test =>
    obtain ⟨control, rfl⟩ := step_test stepped
    refine tracked.goto (by simp [control]) rfl ?_ ?_ ?_
    all_goals
      cases s.running
      all_goals simp [control, Control.left, Control.batch]
  | select ready =>
    -- The selector reports registered keys only, and each of them once.
    obtain ⟨control, distinct, registered, rfl⟩ := step_select stepped
    refine tracked.goto (by simp [control]) rfl ?_ ?_ ?_
    · intro j
      rw [left_next, control]
      rfl
    · rw [batch_next]
      exact clients_distinct distinct
    · intro j member
      rw [batch_next, mem_clients] at member
      exact registered _ member
  | accept outcome =>
    obtain ⟨events, control, rfl⟩ := step_accept stepped
    exact tracked_accept tracked control outcome
  | recv outcome =>
    obtain ⟨k, events, control, rfl⟩ := step_recv stepped
    exact tracked_recv tracked control outcome
  | send outcome =>
    obtain ⟨k, data, left, events, control, sent⟩ := step_send stepped
    exact tracked_send tracked control sent

theorem run_keeps_tracked (moves : List Move) :
    ∀ s, Visited Server.step .start moves s → Tracked s :=
  run_invariant tracked_start (fun _ _ _ stepped tracked => tracked_step tracked stepped) moves

/-! ## The counter -/

/-- `connections_served` counts the connections that have been closed. -/
def Served (s : Server) : Prop := s.connections_served = s.connections.countP fun c => !c.isOpen

theorem Served.kept (served : Served s) (modified : next.connections = s.connections.modify k f)
    (same : next.connections_served = s.connections_served)
    (stays : ∀ c, (f c).isOpen = c.isOpen) : Served next := by
  rw [Served, same, modified, countP_modify_same (by simp [stays])]
  exact served

theorem Served.closed (served : Served s) {ends : Bool} (registered : s.registered (.client k) = true)
    (modified : next.connections = s.connections.modify k (·.closed ends))
    (more : next.connections_served = s.connections_served + 1) : Served next := by
  obtain ⟨c, found, isOpen⟩ := registered_client.mp registered
  have count := countP_modify_add (f := (·.closed ends)) (p := fun c => !c.isOpen) found
  simp only [isOpen, Bool.not_true, Bool.false_eq_true, if_false, Nat.add_zero, Connection.closed,
    Bool.not_false, if_true] at count
  rw [Served, more, modified, served]
  exact count.symm

theorem served_step {move : Move} (tracked : Tracked s) (served : Served s)
    (stepped : s.step move = some next) : Served next := by
  cases move with
  | stop =>
    cases stepped
    exact served
  | test =>
    obtain ⟨-, rfl⟩ := step_test stepped
    exact served
  | select ready =>
    obtain ⟨-, -, -, rfl⟩ := step_select stepped
    exact served
  | accept outcome =>
    obtain ⟨events, -, rfl⟩ := step_accept stepped
    cases outcome with
    | connection => simpa [Served, Server.accept] using served
    | wouldBlock | error => exact served
  | recv outcome =>
    obtain ⟨k, events, control, rfl⟩ := step_recv stepped
    rcases recv_cases s k events outcome with
      ⟨-, modified, -, same⟩ | ⟨-, modified, -, more⟩ | ⟨chunk, -, modified, -, same⟩
    · exact served.kept modified same fun _ => rfl
    -- Closing is the only step that counts a connection as served.
    · exact served.closed (tracked.registered k (by simp [control])) modified more
    · exact served.kept modified same fun _ => rfl
  | send outcome =>
    obtain ⟨k, data, left, events, control, sent⟩ := step_send stepped
    rcases send_cases sent with ⟨n, -, -, modified, -, same⟩ | ⟨-, modified, -, more⟩
    · exact served.kept modified same fun _ => rfl
    · exact served.closed (tracked.registered k (by simp [control])) modified more

/-- In every run, a connection that has been closed has been counted once. -/
theorem connections_served_eq (moves : List Move) :
    ∀ s, Visited Server.step .start moves s →
      s.connections_served = s.connections.countP fun c => !c.isOpen := by
  have both : ∀ s, Visited Server.step .start moves s → Tracked s ∧ Served s :=
    run_invariant ⟨tracked_start, rfl⟩ (fun _ _ _ stepped before =>
      ⟨tracked_step before.1 stepped, served_step before.1 before.2 stepped⟩) moves
  intro s visited
  exact (both s visited).2

end Steps

end Excalibur.EchoServer
