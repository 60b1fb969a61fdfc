import Excalibur.EchoServer.Clients

/-! # Every client can be served

`select` hands out readable keys only, and a key stays readable until the loop comes to it
(`Prompt`), so the loop always has a turn that does not block: accept, receive, send, or
close at the end of a stream.  `settles` brings a loop from anywhere in a batch to its head.
From there one client after the other is led to its end: its bytes move on from the unsent
ones through both streams to what it has read, and none is left when none can move.
-/

namespace Excalibur.EchoServer

open Excalibur.Library

/-! ## The keys to come -/

/-- The keys that the loop has still to receive from or to accept on. -/
def Control.awaited : Control → List Key
  | .accepting events => .listener :: events
  | .receiving k events => .client k :: events
  | .sending _ _ _ events => events
  | _ => []

@[simp] theorem awaited_next (events : List Key) : (Control.next events).awaited = events := by
  rcases events with _ | ⟨_ | _, _⟩
  all_goals rfl

/-- Every client that is still to be received from is readable, and a `sendall` under way has
    something left. -/
structure Prompt (w : World) : Prop where
  readable : ∀ k, Key.client k ∈ w.server.control.awaited → w.readable (.client k) = true
  unfinished : ∀ k data left events, w.server.control = .sending k data left events → left ≠ []

section Steps

variable {w next : World} {i : Nat} {move : Move} {clients : List Client} {server : Server}

theorem readable_client : w.readable (.client i) = true ↔
    ∃ c, w.clients[i]? = some c ∧ (c.uplink = [] → c.phase ≠ .running) := by
  simp only [World.readable, Option.any_eq_true]
  apply exists_congr
  intro c
  by_cases empty : c.uplink = []
  · simp [empty]
  · simp [empty]

/-- A client whose stream the loop does not read stays readable. -/
theorem readable_deliver (delivered : w.deliver move = some clients)
    (untouched : move.takes w.server.control i = []) (readable : w.readable (.client i) = true) :
    World.readable { server := server, clients := clients } (.client i) = true := by
  obtain ⟨before, was, runs⟩ := readable_client.mp readable
  have inside : i < clients.length := by
    rw [length_deliver delivered]
    exact (List.getElem?_eq_some_iff.mp was).1
  obtain ⟨before', rest, was', uplink, after⟩ :=
    deliver_cases delivered (List.getElem?_eq_getElem inside)
  obtain rfl : before = before' := Option.some.inj (was.symm.trans was')
  apply readable_client.mpr
  refine ⟨_, List.getElem?_eq_getElem inside, ?_⟩
  rw [untouched, List.nil_append] at uplink
  rw [← after]
  exact fun empty => runs (uplink.trans empty)

/-- After a move the loop awaits what it awaited before and has not read, or what `select`
    has found readable. -/
theorem awaited_step (tracked : Tracked w.server) (moved : w.server.step move = some server)
    (delivered : w.deliver move = some clients) (awaited : Key.client i ∈ server.control.awaited) :
    move.takes w.server.control i = [] ∧
      (Key.client i ∈ w.server.control.awaited ∨ w.readable (.client i) = true) := by
  cases move with
  | stop =>
    cases moved
    exact ⟨rfl, .inl awaited⟩
  | test =>
    obtain ⟨-, rfl⟩ := step_test moved
    cases running : w.server.running
    all_goals simp [running, Control.awaited] at awaited
  | select ready =>
    obtain ⟨-, -, -, rfl⟩ := step_select moved
    simp only [World.deliver, Option.ite_none_right_eq_some] at delivered
    rw [awaited_next] at awaited
    exact ⟨rfl, .inr (List.all_eq_true.mp delivered.1 _ awaited)⟩
  | accept outcome =>
    obtain ⟨events, control, rfl⟩ := step_accept moved
    refine ⟨rfl, .inl ?_⟩
    cases outcome with
    | connection => exact awaited
    | wouldBlock =>
      simp only [Server.accept, awaited_next] at awaited
      simp [control, Control.awaited, awaited]
    | error => simp [Server.accept, Control.awaited] at awaited
  | recv outcome =>
    obtain ⟨k, events, control, rfl⟩ := step_recv moved
    have distinct := tracked.distinct
    rw [control, batch_receiving, List.nodup_cons, mem_clients] at distinct
    have later : Key.client i ∈ events →
        (Move.recv outcome).takes w.server.control i = [] ∧
          (Key.client i ∈ w.server.control.awaited ∨ w.readable (.client i) = true) := by
      intro member
      -- The key that the loop was at comes once, so it is another one.
      have other : i ≠ k := by
        rintro rfl
        exact distinct.1 member
      simp [Move.takes, control, other, Control.awaited, member]
    rcases recv_cases w.server k events outcome with
      ⟨-, -, goes, -⟩ | ⟨-, -, goes, -⟩ | ⟨chunk, -, -, goes, -⟩
    · simp [goes, Control.awaited] at awaited
    · rw [goes, awaited_next] at awaited
      exact later awaited
    · rw [goes] at awaited
      exact later awaited
  | send outcome =>
    obtain ⟨k, data, left, events, control, sent⟩ := step_send moved
    refine ⟨rfl, .inl ?_⟩
    rw [control]
    rcases send_cases sent with ⟨n, -, -, -, goes, -⟩ | ⟨-, -, goes, -⟩
    · rw [goes] at awaited
      split at awaited
      · rwa [awaited_next] at awaited
      · exact awaited
    · rwa [goes, awaited_next] at awaited

theorem unfinished_step (unfinished : ∀ k data left events,
      w.server.control = .sending k data left events → left ≠ [])
    (moved : w.server.step move = some server) :
    ∀ k data left events, server.control = .sending k data left events → left ≠ [] := by
  have atKey (events : List Key) (goes : server.control = .next events) :
      ∀ k data left events, server.control = .sending k data left events → left ≠ [] := by
    intro k data left after control
    rw [goes] at control
    rcases events with _ | ⟨_ | _, _⟩
    all_goals cases control
  cases move with
  | stop =>
    cases moved
    exact unfinished
  | test =>
    obtain ⟨-, rfl⟩ := step_test moved
    cases w.server.running
    all_goals simp
  | select ready =>
    obtain ⟨-, -, -, rfl⟩ := step_select moved
    exact atKey ready rfl
  | accept outcome =>
    obtain ⟨events, control, rfl⟩ := step_accept moved
    cases outcome with
    | connection => exact unfinished
    | wouldBlock => exact atKey events rfl
    | error => simp [Server.accept]
  | recv outcome =>
    obtain ⟨k, events, control, rfl⟩ := step_recv moved
    rcases recv_cases w.server k events outcome with
      ⟨-, -, goes, -⟩ | ⟨-, -, goes, -⟩ | ⟨chunk, -, -, goes, -⟩
    · simp [goes]
    · exact atKey events goes
    · rw [goes]
      rintro _ _ _ _ ⟨⟩
      exact chunk.nonempty
  | send outcome =>
    obtain ⟨k, data, left, events, control, sent⟩ := step_send moved
    rcases send_cases sent with ⟨n, -, within, -, goes, -⟩ | ⟨-, -, goes, -⟩
    · split at goes
      · exact atKey events goes
      · next part =>
        rw [goes]
        rintro _ _ _ _ ⟨⟩
        intro nothing
        have all := List.drop_eq_nil_iff.mp nothing
        omega
    · exact atKey events goes

theorem Prompt.turn (prompt : Prompt w) {j : Nat} {can : Client → Bool} {f : Client → Client}
    (turned : w.turn j can f = some next)
    (own : ∀ c, can c = true → (f c).uplink = [] → (f c).phase = .running → c.uplink = [] ∧
      c.phase = .running) : Prompt next := by
  obtain ⟨c, found, possible, rfl⟩ := turn_eq_some.mp turned
  refine ⟨?_, prompt.unfinished⟩
  intro k awaited
  obtain ⟨before, was, runs⟩ := readable_client.mp (prompt.readable k awaited)
  apply readable_client.mpr
  by_cases here : j = k
  · subst here
    obtain rfl : c = before := Option.some.inj (found.symm.trans was)
    refine ⟨f c, by simp [found], ?_⟩
    intro empty running
    obtain ⟨empty', running'⟩ := own c possible empty running
    exact runs empty' running'
  · exact ⟨before, by simpa [List.getElem?_modify_ne f w.clients here] using was, runs⟩

theorem prompt_step {turn : Turn} (coupled : Coupled w) (prompt : Prompt w)
    (stepped : w.step turn = some next) : Prompt next := by
  cases turn with
  | server move =>
    obtain ⟨server, clients, moved, delivered, rfl⟩ := step_server.mp stepped
    refine ⟨?_, unfinished_step prompt.unfinished moved⟩
    intro k awaited
    obtain ⟨untouched, before | found⟩ := awaited_step coupled.tracked moved delivered awaited
    · exact readable_deliver delivered untouched (prompt.readable k before)
    · exact readable_deliver delivered untouched found
  | connect message =>
    cases stepped
    refine ⟨?_, prompt.unfinished⟩
    intro k awaited
    obtain ⟨c, found, runs⟩ := readable_client.mp (prompt.readable k awaited)
    obtain ⟨inside, -⟩ := List.getElem?_eq_some_iff.mp found
    apply readable_client.mpr
    exact ⟨c, by simpa [List.getElem?_append_left inside] using found, runs⟩
  | send j n =>
    apply prompt.turn stepped
    intro c can empty _
    simp only [Bool.and_eq_true, decide_eq_true_eq] at can
    have nothing : c.unsent.take n = [] := (List.append_eq_nil_iff.mp empty).2
    have shorter := congrArg List.length nothing
    rw [List.length_take, List.length_nil] at shorter
    omega
  | recv j n =>
    apply prompt.turn stepped
    intro c _ empty running
    exact ⟨empty, running⟩
  | eof j | finish j | raises j =>
    apply prompt.turn stepped
    simp

theorem prompt_start : Prompt .start := by
  refine ⟨?_, ?_⟩
  · simp [World.start, Server.start, Control.awaited]
  · simp [World.start, Server.start]

/-! ## Turns that disturb nobody -/

/-- A server that is not told to stop and has given nobody up. -/
structure Serving (w : World) : Prop where
  coupled : Coupled w
  undisturbed : ∀ i, Undisturbed w i
  prompt : Prompt w
  running : w.server.running = true

/-- A call that runs goes on or returns, and one that has ended stays as it has. -/
structure Client.Continues (before after : Client) : Prop where
  message : after.message = before.message
  unraised : before.phase = .running → after.phase ≠ .raised
  ended : before.phase ≠ .running → after.phase = before.phase

structure Later (w next : World) : Prop where
  length : next.clients.length = w.clients.length
  kept : ∀ (i : Nat) (after : Client), next.clients[i]? = some after →
    ∃ before, w.clients[i]? = some before ∧ before.Continues after

def Turn.calm : Turn → Bool
  | .server move => !move.givesUp && move ≠ .stop
  | .send _ _ => true
  | .recv _ _ => true
  | .finish _ => true
  | _ => false

structure Leads (w next : World) : Prop where
  reached : ∃ turns, run World.step w turns = some next
  serving : Serving w → Serving next
  later : Later w next

theorem running_step {s next : Server} (stepped : s.step move = some next) (goesOn : move ≠ .stop) :
    next.running = s.running := by
  cases move with
  | stop => contradiction
  | test =>
    obtain ⟨-, rfl⟩ := step_test stepped
    rfl
  | select ready =>
    obtain ⟨-, -, -, rfl⟩ := step_select stepped
    rfl
  | accept outcome =>
    obtain ⟨events, -, rfl⟩ := step_accept stepped
    cases outcome
    all_goals rfl
  | recv outcome =>
    obtain ⟨k, events, -, rfl⟩ := step_recv stepped
    unfold Server.recv Server.close
    grind [Server.modify]
  | send outcome =>
    obtain ⟨k, data, left, events, -, sent⟩ := step_send stepped
    unfold Server.send Server.close at sent
    grind [Server.modify]

theorem Client.Continues.of_phase {before after : Client} (message : after.message = before.message)
    (phase : after.phase = before.phase) : before.Continues after :=
  ⟨message, fun runs raised => by simp [phase, runs] at raised, fun _ => phase⟩

theorem Client.Continues.trans {before between after : Client} (first : before.Continues between)
    (second : between.Continues after) : before.Continues after := by
  refine ⟨second.message.trans first.message, ?_, ?_⟩
  · intro runs raised
    by_cases still : between.phase = .running
    · exact second.unraised still raised
    · exact first.unraised runs ((second.ended still).symm.trans raised)
  · intro stopped
    have stopped' : between.phase ≠ .running := by rwa [first.ended stopped]
    rw [second.ended stopped', first.ended stopped]

theorem Later.turn {can : Client → Bool} {f : Client → Client} (turned : w.turn i can f = some next)
    (own : ∀ c, can c = true → c.phase = .running ∧ (f c).message = c.message ∧
      (f c).phase ≠ .raised) : Later w next := by
  obtain ⟨c, found, possible, rfl⟩ := turn_eq_some.mp turned
  obtain ⟨runs, message, unraised⟩ := own c possible
  refine ⟨by simp, ?_⟩
  rw [forall_modify]
  refine ⟨?_, ?_⟩
  · intro other same
    obtain rfl : c = other := Option.some.inj (found.symm.trans same)
    exact ⟨c, found, message, fun _ => unraised, fun stopped => absurd runs stopped⟩
  · intro j other _ same
    exact ⟨other, same, .of_phase rfl rfl⟩

theorem later_step {turn : Turn} (stepped : w.step turn = some next) (calm : turn.calm = true) :
    Later w next := by
  cases turn with
  | server move =>
    obtain ⟨server, clients, -, delivered, rfl⟩ := step_server.mp stepped
    refine ⟨length_deliver delivered, ?_⟩
    intro j after found
    obtain ⟨before, rest, was, -, rfl⟩ := deliver_cases delivered found
    exact ⟨before, was, .of_phase rfl rfl⟩
  | send j n =>
    apply Later.turn stepped
    intro c can
    simp only [Bool.and_eq_true, decide_eq_true_eq] at can
    simp [can.1]
  | recv j n =>
    apply Later.turn stepped
    intro c can
    simp only [Client.waiting, Bool.and_eq_true, decide_eq_true_eq] at can
    simp [can.1.1.1]
  | finish j =>
    apply Later.turn stepped
    intro c can
    simp only [Bool.and_eq_true, decide_eq_true_eq] at can
    simp [can.1.1]
  | connect _ | eof _ | raises _ => contradiction

theorem Leads.step {turn : Turn} (stepped : w.step turn = some next) (calm : turn.calm = true) :
    Leads w next := by
  refine ⟨⟨[turn], by simp [run_cons, stepped]⟩, ?_, later_step stepped calm⟩
  intro serving
  have free : ∀ j, w.troubles j turn = false := by
    intro j
    cases turn with
    | server move =>
      simp only [Turn.calm, Bool.and_eq_true, Bool.not_eq_true'] at calm
      simp [World.troubles, calm.1]
    | _ => rfl
  have running : next.server.running = w.server.running := by
    cases turn with
    | server move =>
      obtain ⟨server, clients, moved, -, rfl⟩ := step_server.mp stepped
      simp only [Turn.calm, Bool.and_eq_true, decide_eq_true_eq] at calm
      exact running_step moved calm.2
    | send j n | recv j n | finish j =>
      obtain ⟨c, -, -, rfl⟩ := turn_eq_some.mp stepped
      rfl
    | connect _ | eof _ | raises _ => contradiction
  exact ⟨coupled_step serving.coupled stepped,
    fun j => undisturbed_step serving.coupled (serving.undisturbed j) (free j) stepped,
    prompt_step serving.coupled serving.prompt stepped, running.trans serving.running⟩

theorem Later.trans {middle : World} (first : Later w middle) (second : Later middle next) :
    Later w next := by
  refine ⟨second.length.trans first.length, ?_⟩
  intro j after found
  obtain ⟨between, was, continues⟩ := second.kept j after found
  obtain ⟨before, was', continues'⟩ := first.kept j between was
  exact ⟨before, was', continues'.trans continues⟩

theorem Leads.refl (w : World) : Leads w w := by
  refine ⟨⟨[], rfl⟩, id, rfl, ?_⟩
  intro j after found
  exact ⟨after, found, .of_phase rfl rfl⟩

theorem Leads.trans {middle : World} (first : Leads w middle) (second : Leads middle next) :
    Leads w next := by
  obtain ⟨turns, reached⟩ := first.reached
  obtain ⟨turns', reached'⟩ := second.reached
  refine ⟨⟨turns ++ turns', ?_⟩, fun serving => second.serving (first.serving serving),
    first.later.trans second.later⟩
  rw [run_append, reached]
  exact reached'

/-! ## The server by itself -/

theorem Leads.moved (moved : w.server.step move = some server)
    (delivered : w.deliver move = some clients) (calm : (Turn.server move).calm = true) :
    Leads w { server := server, clients := clients } :=
  .step (step_server.mpr ⟨server, clients, moved, delivered, rfl⟩) calm

/-- `accept` until none is pending. -/
theorem accepts_all (few : w.server.connections.length ≤ w.clients.length) {events : List Key}
    (control : w.server.control = .accepting events) :
    ∃ next, Leads w next ∧ next.server.control = .next events ∧ next.clients = w.clients ∧
      next.server.connections.length = w.clients.length := by
  induction pending : w.clients.length - w.server.connections.length generalizing w with
  | zero =>
    have moved : w.server.step (.accept .wouldBlock) = some (w.server.accept events .wouldBlock) := by
      simp only [Server.step, control]
    have drained : ¬ w.readable .listener = true := by
      simp only [World.readable, decide_eq_true_eq]
      omega
    refine ⟨_, Leads.moved moved (if_neg drained) rfl, rfl, rfl, ?_⟩
    simp only [Server.accept]
    omega
  | succ count ih =>
    have moved : w.server.step (.accept .connection) = some (w.server.accept events .connection) := by
      simp only [Server.step, control]
    have waits : w.readable .listener = true := by
      simp only [World.readable, decide_eq_true_eq]
      omega
    have grown : (w.server.accept events .connection).connections.length =
        w.server.connections.length + 1 := by
      simp [Server.accept]
    obtain ⟨next, leads, goes, clients, length⟩ :=
      @ih { w with server := w.server.accept events .connection } (by simp only [grown]; omega)
        control (by simp only [grown]; omega)
    exact ⟨next, (Leads.moved moved (if_pos waits) rfl).trans leads, goes, clients, length⟩

theorem sends_all {k : Nat} {data left : List UInt8} {events : List Key} (unwritten : left ≠ [])
    (control : w.server.control = .sending k data left events) :
    ∃ next, Leads w next ∧ next.server.control = .next events ∧
      next.clients = w.clients.modify k (fun c => { c with downlink := c.downlink ++ left }) ∧
      next.server.connections.length = w.server.connections.length := by
  have whole : 0 < left.length ∧ left.length ≤ left.length :=
    ⟨List.length_pos_iff.mpr unwritten, le_rfl⟩
  obtain ⟨server, moved⟩ : ∃ server, w.server.step (.send (.wrote left.length)) = some server := by
    simp [Server.step, control, Server.send, whole]
  have delivered : w.deliver (.send (.wrote left.length)) =
      some (w.clients.modify k fun c => { c with downlink := c.downlink ++ left }) := by
    simp only [World.deliver, control, List.take_length]
  refine ⟨_, Leads.moved moved delivered rfl, ?_, rfl, length_step moved⟩
  obtain ⟨k', data', left', events', control', sent⟩ := step_send moved
  cases control.symm.trans control'
  rcases send_cases sent with ⟨n, same, -, -, goes, -⟩ | ⟨raises, -⟩
  · cases same
    rw [goes, if_pos rfl]
  · exact absurd rfl (raises left.length)

/-- A `recv` and the `sendall` behind it. -/
theorem echoes_some {k : Nat} {events : List Key} {c : Client}
    (control : w.server.control = .receiving k events) (found : w.clients[k]? = some c)
    (arrived : c.uplink ≠ []) :
    ∃ next, Leads w next ∧ next.server.control = .next events ∧
      next.clients[k]? = some { c with
        uplink := c.uplink.drop 4096, downlink := c.downlink ++ c.uplink.take 4096 } ∧
      next.server.connections.length = w.server.connections.length := by
  let chunk : Chunk :=
    { bytes := c.uplink.take 4096
      nonempty := by simpa using arrived
      bounded := by simp }
  have moved : w.server.step (.recv (.data chunk)) =
      some (w.server.recv k events (.data chunk)) := by
    simp only [Server.step, control]
  have delivered : w.deliver (.recv (.data chunk)) =
      some (w.clients.modify k fun c => { c with uplink := c.uplink.drop chunk.bytes.length }) := by
    have front : chunk.bytes <+: c.uplink := List.take_prefix ..
    simp only [World.deliver, control, found, Option.any_some, front, decide_true, if_true]
  have first := Leads.moved moved delivered rfl
  obtain ⟨isError, -⟩ | ⟨empty, -⟩ | ⟨chunk', same, -, goes, -⟩ :=
    recv_cases w.server k events (.data chunk)
  · cases isError
  · exact absurd empty chunk.nonempty
  · cases same
    obtain ⟨next, second, after, clients, length⟩ :=
      sends_all (w := ⟨w.server.recv k events (.data chunk), _⟩) chunk.nonempty goes
    refine ⟨next, first.trans second, after, ?_, length.trans (length_step moved)⟩
    have spent : c.uplink.drop (min 4096 c.uplink.length) = c.uplink.drop 4096 :=
      List.drop_eq_drop_iff.mpr (by omega)
    rw [clients]
    simp [found, chunk, spent]

/-- The handling of one key, down to the next. -/
theorem handles_key (serving : Serving w) {key : Key} {events : List Key}
    (control : w.server.control = .next (key :: events)) :
    ∃ next, Leads w next ∧ next.server.control = .next events := by
  cases key with
  | listener =>
    obtain ⟨next, leads, goes, -⟩ := accepts_all serving.coupled.few control
    exact ⟨next, leads, goes⟩
  | client k =>
    have awaited : Key.client k ∈ w.server.control.awaited := by
      rw [control, awaited_next]
      exact List.mem_cons_self
    obtain ⟨c, found, runs⟩ := readable_client.mp (serving.prompt.readable k awaited)
    by_cases arrived : c.uplink = []
    · have moved : w.server.step (.recv .eof) = some (w.server.recv k events .eof) := by
        rw [Control.next] at control
        simp only [Server.step, control]
      have delivered : w.deliver (.recv .eof) = some w.clients := by
        rw [Control.next] at control
        simp [World.deliver, control, found, arrived, runs arrived]
      exact ⟨_, Leads.moved moved delivered rfl, rfl⟩
    · obtain ⟨next, leads, goes, -⟩ := echoes_some control found arrived
      exact ⟨next, leads, goes⟩

theorem handles_batch (serving : Serving w) {events : List Key}
    (control : w.server.control = .next events) :
    ∃ next, Leads w next ∧ next.server.control = .testing := by
  induction events generalizing w with
  | nil => exact ⟨w, .refl w, control⟩
  | cons key events ih =>
    obtain ⟨middle, leads, goes⟩ := handles_key serving control
    obtain ⟨next, leads', ends⟩ := ih (leads.serving serving) goes
    exact ⟨next, leads.trans leads', ends⟩

theorem selects (control : w.server.control = .selecting) {ready : List Key}
    (distinct : ready.Nodup) (registered : ∀ key ∈ ready, w.server.registered key = true)
    (readable : ∀ key ∈ ready, w.readable key = true) :
    Leads w { server := { w.server with control := .next ready }, clients := w.clients } := by
  have possible : ready.Nodup ∧ ready.all w.server.registered = true :=
    ⟨distinct, List.all_eq_true.mpr registered⟩
  have moved : w.server.step (.select ready) =
      some { w.server with control := .next ready } := by
    simp only [Server.step, control, if_pos possible]
  exact .moved moved (if_pos (List.all_eq_true.mpr readable)) rfl

/-- A loop that has neither returned nor raised comes to its head. -/
theorem settles (serving : Serving w) (alive : w.server.control ≠ .returned)
    (unraised : w.server.control ≠ .raised) :
    ∃ next, Leads w next ∧ next.server.control = .testing := by
  cases control : w.server.control with
  | testing => exact ⟨w, .refl w, control⟩
  | selecting =>
    exact ⟨_, selects control List.nodup_nil (by simp) (by simp), rfl⟩
  | accepting events => exact handles_batch serving (show _ = Control.next (.listener :: events) from control)
  | receiving k events => exact handles_batch serving (show _ = Control.next (.client k :: events) from control)
  | sending k data left events =>
    obtain ⟨middle, leads, goes, -⟩ :=
      sends_all (serving.prompt.unfinished k data left events control) control
    obtain ⟨next, leads', ends⟩ := handles_batch (leads.serving serving) goes
    exact ⟨next, leads.trans leads', ends⟩
  | returned => exact absurd control alive
  | raised => exact absurd control unraised

/-- From its head the loop selects a key. -/
theorem reaches_key (serving : Serving w) (control : w.server.control = .testing) {key : Key}
    (registered : w.server.registered key = true) (readable : w.readable key = true) :
    Leads w
      { server := { w.server with control := .next [key] }, clients := w.clients } := by
  have moved : w.server.step .test = some { w.server with control := .selecting } := by
    simp only [Server.step, control, serving.running, if_true]
  have first := Leads.moved (w := w) moved rfl rfl
  refine first.trans (selects (w := ⟨_, w.clients⟩) rfl (List.nodup_singleton key) ?_ ?_)
  · intro other member
    rw [List.mem_singleton.mp member]
    exact registered
  · intro other member
    rw [List.mem_singleton.mp member]
    exact readable

/-! ## One client to its end -/

/-- What client `i` has still to do: its bytes, by how far they have come, its connection and
    its return. -/
def World.owed (w : World) (i : Nat) : Nat :=
  (w.clients[i]?).elim 0 (fun c => 3 * c.unsent.length + 2 * c.uplink.length + c.downlink.length +
    if c.phase = .running then 1 else 0) + if i < w.server.connections.length then 0 else 1

theorem owed_eq {c : Client} (found : w.clients[i]? = some c) :
    w.owed i = 3 * c.unsent.length + 2 * c.uplink.length + c.downlink.length +
      (if c.phase = .running then 1 else 0) + if i < w.server.connections.length then 0 else 1 := by
  simp only [World.owed, found, Option.elim_some]

theorem turns_client {c : Client} (found : w.clients[i]? = some c) {can : Client → Bool}
    {f : Client → Client} (possible : can c = true) :
    w.turn i can f = some { w with clients := w.clients.modify i f } :=
  turn_eq_some.mpr ⟨c, found, possible, rfl⟩

/-- A client that waits with nothing on its way has read its message. -/
theorem read_all (coupled : Coupled w) (control : w.server.control = .testing) {c : Client}
    {connection : Connection} (found : w.clients[i]? = some c)
    (connected : w.server.connections[i]? = some connection) (isOpen : connection.isOpen = true)
    (unsent : c.unsent = []) (uplink : c.uplink = []) (downlink : c.downlink = []) :
    c.message.length ≤ c.chunks.length := by
  have linked := coupled.linked i c found
  have echoed := (coupled.tracked.connections i connection connected).echoed isOpen
  have up := linked.up
  have down := linked.down
  simp only [Server.received, Server.sent, connected, Option.elim_some, unsent, uplink, downlink,
    List.append_nil] at up down
  rw [control] at echoed
  rw [← up, ← down, echoed]
  simp [Control.left]

theorem client_moves_on (serving : Serving w) (control : w.server.control = .testing) {c : Client}
    (found : w.clients[i]? = some c) (runs : c.phase = .running) :
    ∃ next, Leads w next ∧ next.server.control = .testing ∧ next.owed i < w.owed i := by
  have after (f : Client → Client) : (w.clients.modify i f)[i]? = some (f c) := by simp [found]
  rw [owed_eq found]
  by_cases unsent : c.unsent = []
  · by_cases accepted : i < w.server.connections.length
    · have connected := List.getElem?_eq_getElem accepted
      have isOpen := (serving.undisturbed i).connected c _ found connected runs
      by_cases uplink : c.uplink = []
      · by_cases more : c.downlink ≠ [] ∧ c.chunks.length < c.message.length
        -- It reads what has arrived.
        · have arrived := List.length_pos_iff.mpr more.1
          have stepped : w.step (.recv i (min 4096 c.downlink.length)) = some _ :=
            turns_client found (by simp [Client.waiting, runs, unsent, more.2, arrived])
          refine ⟨_, .step stepped rfl, control, ?_⟩
          rw [owed_eq (after _)]
          simp only [List.length_drop]
          omega
        · have whole : c.message.length ≤ c.chunks.length := by
            by_cases downlink : c.downlink = []
            · exact read_all serving.coupled control found connected isOpen unsent uplink downlink
            · exact not_lt.mp fun less => more ⟨downlink, less⟩
          have stepped : w.step (.finish i) = some _ :=
            turns_client found (by simp [runs, unsent, whole])
          refine ⟨_, .step stepped rfl, control, ?_⟩
          rw [owed_eq (after _)]
          simp [runs]
      · have registered : w.server.registered (.client i) = true :=
          registered_client.mpr ⟨_, connected, isOpen⟩
        have readable : w.readable (.client i) = true :=
          readable_client.mpr ⟨c, found, fun empty => absurd empty uplink⟩
        obtain ⟨next, leads, goes, clients, length⟩ :=
          echoes_some (w := ⟨{ w.server with control := .next [.client i] }, w.clients⟩) rfl found
            uplink
        refine ⟨next, (reaches_key serving control registered readable).trans leads, goes, ?_⟩
        have moves := List.length_pos_iff.mpr uplink
        rw [owed_eq clients, length]
        simp only [List.length_drop, List.length_append, List.length_take]
        omega
    · have readable : w.readable .listener = true := by
        have inside := (List.getElem?_eq_some_iff.mp found).1
        simp only [World.readable, decide_eq_true_eq]
        omega
      obtain ⟨next, leads, goes, clients, length⟩ :=
        accepts_all (w := ⟨{ w.server with control := .next [.listener] }, w.clients⟩)
          serving.coupled.few (show _ = Control.accepting [] from rfl)
      refine ⟨next, (reaches_key serving control rfl readable).trans leads, goes, ?_⟩
      have inside := (List.getElem?_eq_some_iff.mp found).1
      rw [← clients] at found
      rw [owed_eq found, length, if_pos inside, if_neg accepted]
      omega
  · have moves := List.length_pos_iff.mpr unsent
    have stepped : w.step (.send i c.unsent.length) = some _ :=
      turns_client found (by simp [runs, moves])
    refine ⟨_, .step stepped rfl, control, ?_⟩
    rw [owed_eq (after _)]
    simp
    omega

def World.Ended (w : World) (i : Nat) : Prop := ∀ c, w.clients[i]? = some c → c.phase ≠ .running

theorem client_finishes (serving : Serving w) (control : w.server.control = .testing) (i : Nat) :
    ∃ next, Leads w next ∧ next.server.control = .testing ∧ next.Ended i := by
  induction owed : w.owed i using Nat.strong_induction_on generalizing w with
  | _ owed ih =>
    by_cases runs : ∃ c, w.clients[i]? = some c ∧ c.phase = .running
    · obtain ⟨c, found, runs⟩ := runs
      obtain ⟨middle, leads, goes, less⟩ := client_moves_on serving control found runs
      obtain ⟨next, leads', ends, done⟩ :=
        ih (middle.owed i) (by omega) (leads.serving serving) goes rfl
      exact ⟨next, leads.trans leads', ends, done⟩
    · exact ⟨w, .refl w, control, fun c found phase => runs ⟨c, found, phase⟩⟩

theorem Later.stays_ended (later : Later w next) (ended : w.Ended i) : next.Ended i := by
  intro after found
  obtain ⟨before, was, continues⟩ := later.kept i after found
  rw [continues.ended (ended before was)]
  exact ended before was

end Steps

/-! ## All clients -/

/-- In every state that a server reaches which has given nobody up and is still in its loop,
    all clients that run can go on to return their messages. -/
theorem every_client_can_be_served {turns : List Turn} {w : World}
    (goes : run World.step .start turns = some w)
    (free : ∀ i state turn, Taken World.step .start turns state turn →
      state.troubles i turn = false)
    (running : w.server.running = true) (alive : w.server.control ≠ .returned)
    (unraised : w.server.control ≠ .raised) :
    ∃ rest finish, run World.step w rest = some finish ∧
      ∀ (i : Nat) (before : Client), w.clients[i]? = some before →
        ∃ after : Client, finish.clients[i]? = some after ∧
          (before.phase = .running → after.phase = .returned ∧ after.chunks = before.message) := by
  have sound : ∀ state, Visited World.step .start turns state → Coupled state ∧ Prompt state :=
    run_invariant ⟨coupled_start, prompt_start⟩ (fun _ _ _ stepped before =>
      ⟨coupled_step before.1 stepped, prompt_step before.1 before.2 stepped⟩) turns
  have undisturbed (i : Nat) : ∀ state, Visited World.step .start turns state →
      Undisturbed state i :=
    visited_induction ⟨by simp [World.start], by simp [World.start]⟩
      fun state turn next taken stepped before =>
        undisturbed_step (sound state taken.visited).1 before (free i state turn taken) stepped
  have reached := visited_finish goes
  have serving : Serving w :=
    ⟨(sound w reached).1, fun i => undisturbed i w reached, (sound w reached).2, running⟩
  obtain ⟨head, toHead, control⟩ := settles serving alive unraised
  -- From the head of the loop, one client after the other.
  have each : ∀ (i : Nat) (state : World), (Leads w state ∧ state.server.control = .testing) →
      ∃ events next, run World.step state events = some next ∧
        (Leads w next ∧ next.server.control = .testing) ∧ next.Ended i ∧
        ∀ j, state.Ended j → next.Ended j := by
    rintro i state ⟨leads, control⟩
    obtain ⟨next, onwards, ends, done⟩ := client_finishes (leads.serving serving) control i
    obtain ⟨events, goesOn⟩ := onwards.reached
    exact ⟨events, next, goesOn, ⟨leads.trans onwards, ends⟩, done,
      fun j => onwards.later.stays_ended⟩
  obtain ⟨rest, finish, goesOn, ⟨leads, -⟩, ended⟩ :=
    exists_run_each each (List.range w.clients.length) ⟨toHead, control⟩
  obtain ⟨first, reachedHead⟩ := toHead.reached
  refine ⟨first ++ rest, finish, ?_, ?_⟩
  · rw [run_append, reachedHead]
    exact goesOn
  · intro i before found
    have inside := (List.getElem?_eq_some_iff.mp found).1
    have inside' : i < finish.clients.length := by rwa [leads.later.length]
    have found' := List.getElem?_eq_getElem inside'
    refine ⟨_, found', ?_⟩
    intro runs
    obtain ⟨before', was, continues⟩ := leads.later.kept i _ found'
    obtain rfl : before = before' := Option.some.inj (found.symm.trans was)
    have stopped := ended i (List.mem_range.mpr inside) _ found'
    have returned : finish.clients[i].phase = .returned := by
      cases phase : finish.clients[i].phase with
      | running => exact absurd phase stopped
      | returned => rfl
      | raised => exact absurd phase (continues.unraised runs)
    have whole := ((leads.serving serving).undisturbed i).whole _ found' returned
    exact ⟨returned, whole.trans continues.message⟩

/-- A client whose message is half sent when its connection has not been accepted. -/
def halfSent : List Turn := [.connect [104, 105], .send 0 1, .server .test]

theorem halfSent_can_be_served : ∃ w, run World.step .start halfSent = some w ∧
    ∃ rest finish, run World.step w rest = some finish ∧
      ∀ (i : Nat) (before : Client), w.clients[i]? = some before →
        ∃ after : Client, finish.clients[i]? = some after ∧
          (before.phase = .running → after.phase = .returned ∧ after.chunks = before.message) := by
  have goes : run World.step .start halfSent = some _ := rfl
  refine ⟨_, goes, every_client_can_be_served goes ?_ rfl (by decide) (by decide)⟩
  rintro i state turn ⟨before, after, -, split, -⟩
  have member : turn ∈ halfSent := by simp [split]
  simp only [halfSent, List.mem_cons, List.not_mem_nil, or_false] at member
  obtain rfl | rfl | rfl := member
  all_goals rfl

end Excalibur.EchoServer
