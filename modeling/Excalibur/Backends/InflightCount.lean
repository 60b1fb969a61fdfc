import Excalibur.Backends.Handling

/-! # What `inflight` is worth

`member.inflight += 1` and `-= 1` in `_handle` are a read and a later write, outside the
lock.  Under any strategy, with any number of members and handlers and with exchanges
that end well or raise, the count is right as long as every write finds the value that
was read, and the first write that does not makes it wrong.
-/

namespace Excalibur.Backends

open Excalibur.Library Excalibur.Python

namespace Handler

/-- Between the read and the write of an update of `inflight`. -/
def updating : Handler → Bool
  | .raising _ _ | .lowering _ _ => true
  | _ => false

/-- Its increment is done and its decrement is not. -/
def between : Handler → Option Nat
  | .proxying i | .finishing i => some i
  | _ => none

theorem between_eq_countedBy {handler : Handler} (settled : handler.updating = false) :
    handler.between = handler.countedBy := by
  cases handler with
  | lowering i seen => cases settled
  | _ => rfl

end Handler

namespace Traffic

/-- Any strategy, nobody under way. -/
def launch (strategy : Str) (numMembers numHandlers : Nat) : Traffic where
  proxy := .init numMembers strategy
  handlers := List.replicate numHandlers .reading

/-- The write of this step, if it is one, finds the value that was read for it. -/
def WritesFresh (s : Traffic) : Move → Prop
  | .proceed h => ∀ handler ∈ s.handlers[h]?, s.Fresh handler
  | _ => True

instance (s : Traffic) : (move : Move) → Decidable (s.WritesFresh move)
  | .proceed h => inferInstanceAs (Decidable (∀ handler ∈ s.handlers[h]?, s.Fresh handler))
  | .probe _ _ | .fail _ => inferInstanceAs (Decidable True)

/-- When no update is half done, `inflight` is the number of requests between increment
    and decrement; when everybody has finished it is zero. -/
structure Conserved (s : Traffic) : Prop where
  settled : (∀ handler ∈ s.handlers, handler.updating = false) → ∀ i, s.proxy.inflight i =
    s.handlers.countP fun handler => handler.between = some i
  finished : (∀ handler ∈ s.handlers, handler = .gone) → ∀ i, s.proxy.inflight i = 0

variable {s next : Traffic} {move : Move} {strategy : Str} {numMembers numHandlers : Nat}

theorem conserved_of_counted (counted : s.Counted) : s.Conserved := by
  constructor
  · intro settled i
    rw [counted i]
    congr 1
    refine List.countP_congr fun handler among => ?_
    rw [Handler.between_eq_countedBy (settled handler among)]
  · intro finished i
    rw [counted i, List.countP_eq_zero.mpr]
    · rfl
    · intro handler among
      rw [finished handler among]
      simp [Handler.countedBy]

theorem inRange_launch : (launch strategy numMembers numHandlers).InRange := by
  intro handler among i mentioned
  rw [List.eq_of_mem_replicate among] at mentioned
  cases mentioned

theorem counted_launch : (launch strategy numMembers numHandlers).Counted := by
  intro i
  simp only [launch, ReverseProxy.init, ReverseProxy.inflight, List.getElem?_replicate,
    List.countP_replicate, Handler.countedBy]
  split <;> simp

theorem inRange_visited {moves : List Move} :
    ∀ s, Visited step (launch strategy numMembers numHandlers) moves s → s.InRange :=
  run_invariant inRange_launch (fun _ _ _ stepped inRange => inRange_step inRange stepped) moves

theorem counted_of_writesFresh (inRange : s.InRange) (counted : s.Counted)
    (fresh : s.WritesFresh move) (stepped : s.step move = some next) : next.Counted := by
  refine counted_step inRange counted ?_ stepped
  rintro h handler rfl found
  exact fresh handler found

/-- A write that leaves `inflight` where the count moves to has found what was read. -/
theorem found_of_counted {h i : Nat} {handler moved : Handler} {written change : Int}
    (inRange : i < s.proxy.members.length) (counted : s.Counted)
    (found : s.handlers[h]? = some handler)
    (after : Counted { proxy := s.proxy.setInflight i written,
                       handlers := s.handlers.set h moved })
    (here : (if handler.countedBy = some i then 1 else 0) + change =
      if moved.countedBy = some i then 1 else 0) :
    written = s.proxy.inflight i + change := by
  have moves := congrArg (Nat.cast : Nat → Int) (countedBy_set found moved i)
  have now := after i
  rw [ReverseProxy.inflight_setInflight inRange, if_pos rfl] at now
  push_cast at moves
  rw [now, counted i]
  linarith

/-- The first write over another one shows. -/
theorem writesFresh_of_counted (inRange : s.InRange) (counted : s.Counted)
    (stepped : s.step move = some next) (after : next.Counted) : s.WritesFresh move := by
  obtain ⟨i, ok, rfl, -⟩ | ⟨h, handler, moved, proxy, rfl, found, proceeds, rfl⟩ |
    ⟨h, handler, moved, rfl, -⟩ := step_cases stepped
  · trivial
  · intro other same
    obtain rfl : handler = other := Option.some.inj (found.symm.trans same)
    have mentioned := inRange handler (List.mem_of_getElem? found)
    -- The count is right before and after, so the value written was one off the current one.
    cases handler with
    | raising i seen =>
      cases proceeds
      have wrote : seen + 1 = s.proxy.inflight i + 1 :=
        found_of_counted (mentioned i List.mem_cons_self) counted found after
          (by simp [Handler.countedBy])
      have same : s.proxy.inflight i = seen := by omega
      exact same
    | lowering i seen =>
      cases proceeds
      have wrote : seen - 1 = s.proxy.inflight i + -1 :=
        found_of_counted (mentioned i List.mem_cons_self) counted found after
          (by simp [Handler.countedBy])
      have same : s.proxy.inflight i = seen := by omega
      exact same
    | _ => trivial
  · trivial

/-- In a run without a write over another one `inflight` is conserved in every state, and
    such a run is exactly one in which `inflight` is at no moment off the requests
    between the two writes. -/
theorem inflight_conserved (strategy : Str) (numMembers numHandlers : Nat) (moves : List Move) :
    ((∀ s move, Taken step (launch strategy numMembers numHandlers) moves s move →
        s.WritesFresh move) →
      ∀ s, Visited step (launch strategy numMembers numHandlers) moves s → s.Conserved) ∧
    ((∀ s, Visited step (launch strategy numMembers numHandlers) moves s → s.Counted) ↔
      ∀ s move, Taken step (launch strategy numMembers numHandlers) moves s move →
        s.WritesFresh move) := by
  have kept : (∀ s move, Taken step (launch strategy numMembers numHandlers) moves s move →
        s.WritesFresh move) →
      ∀ s, Visited step (launch strategy numMembers numHandlers) moves s → s.Counted := by
    intro fresh
    refine visited_induction counted_launch ?_
    intro earlier move next taken stepped counted
    exact counted_of_writesFresh (inRange_visited earlier taken.visited) counted
      (fresh earlier move taken) stepped
  refine ⟨fun fresh s visited => conserved_of_counted (kept fresh s visited), ?_, kept⟩
  intro always s move taken
  obtain ⟨_, _, next, _, _, stepped⟩ := id taken
  exact writesFresh_of_counted (inRange_visited s taken.visited) (always s taken.visited) stepped
    (always next (taken.next stepped))

/-- Both handlers read `inflight` before either has written it. -/
def overlapping : List Move :=
  [.proceed 0, .proceed 0, .proceed 0, .proceed 1, .proceed 1, .proceed 1, .proceed 0, .proceed 1]

/-- One of the two increments is lost; once both requests are done the count is -1. -/
theorem overlapping_increments_lose_one :
    (∃ s, run step (launch (lit "round_robin") 1 2) overlapping = some s ∧
      s.handlers = [.proxying 0, .proxying 0] ∧ s.proxy.inflight 0 = 1 ∧ ¬ s.Conserved) ∧
    ∃ s, run step (launch (lit "round_robin") 1 2) (overlapping ++ [.proceed 0, .proceed 0,
        .proceed 0, .proceed 1, .proceed 1, .proceed 1]) = some s ∧
      s.handlers = [.gone, .gone] ∧ s.proxy.inflight 0 = -1 ∧ ¬ s.Conserved := by
  refine ⟨⟨_, rfl, rfl, rfl, ?_⟩, ⟨_, rfl, rfl, rfl, ?_⟩⟩
  · intro conserved
    have two := conserved.settled (by decide) 0
    exact absurd two (by decide)
  · intro conserved
    have zero := conserved.finished (by decide) 0
    exact absurd zero (by decide)

/-- The backend fails on the first request while the second is being placed. -/
def interleaved : List Move :=
  [.proceed 0, .proceed 1, .proceed 0, .proceed 1, .proceed 0, .proceed 0, .proceed 1, .fail 0,
    .proceed 1, .proceed 0, .proceed 0, .proceed 1, .proceed 1, .proceed 1]

theorem interleaved_conserved :
    (∃ s, run step (launch (lit "round_robin") 2 2) interleaved = some s ∧
      s.handlers = [.gone, .gone]) ∧
    ∀ s, Visited step (launch (lit "round_robin") 2 2) interleaved s → s.Conserved := by
  refine ⟨⟨_, rfl, by decide⟩, ?_⟩
  exact (inflight_conserved (lit "round_robin") 2 2 interleaved).1 (by decide)

end Traffic

end Excalibur.Backends
