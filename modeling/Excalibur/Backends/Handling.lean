import Excalibur.Backends.Selection
import Excalibur.Library.Crew
import Excalibur.Library.Run

/-! # Requests in flight

Threads in `_handle`, with the health loop beside them.  `_select` holds the lock only
after it has listed the healthy members, and `inflight` is raised and lowered outside it,
each time by a read and a later write.  So the count that `_select` compares can lag
behind the requests a member has been given.

`Orderly` excludes the ways in which it does: a request given out and not yet counted
while another one is placed, a list of healthy members that has become too short, and a
write of `inflight` over another one.  `least_connections_picks_least` says that nothing
else can go wrong, and that with two members and two requests it can.
-/

namespace Excalibur.Backends

open Excalibur.Library Excalibur.Python

/-- Where a thread is in `_handle`. -/
inductive Handler where
  | reading
  /-- In `_select`, the healthy members listed. -/
  | choosing (healthy : List Nat)
  | chosen (i : Nat)
  /-- In `member.inflight += 1`, the old value read. -/
  | raising (i : Nat) (seen : Int)
  | proxying (i : Nat)
  | finishing (i : Nat)
  /-- In `member.inflight -= 1`, the old value read. -/
  | lowering (i : Nat) (seen : Int)
  | gone
  deriving Repr, DecidableEq

def ReverseProxy.setInflight (p : ReverseProxy) (i : Nat) (inflight : Int) : ReverseProxy :=
  { p with members := p.members.modify i fun m => { m with inflight := inflight } }

namespace Handler

/-- The next step of `_handle`, when nothing raises. -/
def proceed (p : ReverseProxy) : Handler → Option (Handler × ReverseProxy)
  | .reading =>
    -- With nothing healthy the client gets a 503.
    some (if p.healthyMembers = [] then .gone else .choosing p.healthyMembers, p)
  | .choosing healthy => some (((p.pick healthy).1.map .chosen).getD .gone, (p.pick healthy).2)
  | .chosen i => some (.raising i (p.inflight i), p)
  | .raising i seen => some (.proxying i, p.setInflight i (seen + 1))
  | .proxying i => some (.finishing i, p)
  | .finishing i => some (.lowering i (p.inflight i), p)
  | .lowering i seen => some (.gone, p.setInflight i (seen - 1))
  | .gone => none

/-- The client stalls or leaves before its request is read, or the backend or the client
    fails later: then the `finally` clause is still run. -/
def fail : Handler → Option Handler
  | .reading => some .gone
  | .proxying i => some (.finishing i)
  | _ => none

/-- The member that has been given the request, until the request is no longer counted. -/
def member : Handler → Option Nat
  | .chosen i | .raising i _ | .proxying i | .finishing i | .lowering i _ => some i
  | _ => none

/-- The member that counts the request in `inflight`. -/
def countedBy : Handler → Option Nat
  | .proxying i | .finishing i | .lowering i _ => some i
  | _ => none

/-- The members that the thread may still refer to. -/
def mentions : Handler → List Nat
  | .choosing healthy => healthy
  | handler => handler.member.toList

end Handler

structure Traffic where
  proxy : ReverseProxy
  handlers : List Handler
  deriving Repr, DecidableEq

inductive Move where
  | probe (i : Nat) (ok : Bool)
  | proceed (h : Nat)
  | fail (h : Nat)
  deriving Repr, DecidableEq

namespace Traffic

def start (numMembers numHandlers : Nat) : Traffic where
  proxy := .init numMembers (lit "least_connections")
  handlers := List.replicate numHandlers .reading

def step (s : Traffic) : Move → Option Traffic
  | .probe i ok => some { s with proxy := s.proxy.probe i ok }
  | .proceed h =>
    (s.handlers[h]?.bind (Handler.proceed s.proxy)).map fun after =>
      { proxy := after.2, handlers := s.handlers.set h after.1 }
  | .fail h =>
    (s.handlers[h]?.bind Handler.fail).map fun after =>
      { s with handlers := s.handlers.set h after }

/-- The requests that member `i` has been given and that are not finished. -/
def load (s : Traffic) (i : Nat) : Nat := s.handlers.countP fun handler => handler.member = some i

/-- When `_select` returns a member, no healthy member has fewer unfinished requests. -/
def LeastLoaded (s : Traffic) (move : Move) : Prop :=
  ∀ h healthy i, move = .proceed h → s.handlers[h]? = some (.choosing healthy) →
    (s.proxy.pick healthy).1 = some i → ∀ j ∈ s.proxy.healthyMembers, s.load i ≤ s.load j

/-- What a step relies on: all requests given out are counted and nobody has recovered
    when a member is picked, and `inflight` is as it was read when it is written. -/
def Undisturbed (s : Traffic) : Handler → Prop
  | .choosing healthy =>
    (∀ handler ∈ s.handlers, handler.member = handler.countedBy) ∧
      ∀ j ∈ s.proxy.healthyMembers, j ∈ healthy
  | .raising i seen | .lowering i seen => s.proxy.inflight i = seen
  | _ => True

instance (s : Traffic) : (handler : Handler) → Decidable (s.Undisturbed handler)
  | .choosing _ => inferInstanceAs (Decidable (_ ∧ _))
  | .raising i seen | .lowering i seen =>
    inferInstanceAs (Decidable (s.proxy.inflight i = seen))
  | .reading | .chosen _ | .proxying _ | .finishing _ | .gone => inferInstanceAs (Decidable True)

def Orderly (s : Traffic) : Move → Prop
  | .proceed h => ∀ handler ∈ s.handlers[h]?, s.Undisturbed handler
  | _ => True

instance (s : Traffic) : (move : Move) → Decidable (s.Orderly move)
  | .proceed h => inferInstanceAs (Decidable (∀ handler ∈ s.handlers[h]?, s.Undisturbed handler))
  | .probe _ _ | .fail _ => inferInstanceAs (Decidable True)

/-- The part of it that the counts rely on. -/
def Fresh (s : Traffic) : Handler → Prop
  | .raising i seen | .lowering i seen => s.proxy.inflight i = seen
  | _ => True

instance (s : Traffic) : (handler : Handler) → Decidable (s.Fresh handler)
  | .raising i seen | .lowering i seen =>
    inferInstanceAs (Decidable (s.proxy.inflight i = seen))
  | .reading | .choosing _ | .chosen _ | .proxying _ | .finishing _ | .gone =>
    inferInstanceAs (Decidable True)

theorem Undisturbed.fresh {s : Traffic} {handler : Handler} (undisturbed : s.Undisturbed handler) :
    s.Fresh handler := by
  cases handler with
  | raising i seen => exact undisturbed
  | lowering i seen => exact undisturbed
  | _ => trivial

/-- Nobody refers to a member that is not there. -/
def InRange (s : Traffic) : Prop :=
  ∀ handler ∈ s.handlers, ∀ i ∈ handler.mentions, i < s.proxy.members.length

end Traffic

/-! ## What a step does -/

namespace ReverseProxy

variable {p : ReverseProxy} {i j : Nat}

theorem inflight_probe (ok : Bool) : (p.probe i ok).inflight j = p.inflight j := by
  simp only [inflight, probe, List.getElem?_modify]
  split <;> cases p.members[j]? <;> rfl

theorem inflight_setInflight (inRange : i < p.members.length) (inflight : Int) :
    (p.setInflight i inflight).inflight j = if i = j then inflight else p.inflight j := by
  simp only [ReverseProxy.inflight, setInflight, List.getElem?_modify]
  by_cases same : i = j
  · subst same
    simp [List.getElem?_eq_getElem inRange]
  · simp [same]

theorem pick_kept (healthy : List Nat) :
    (p.pick healthy).2.members = p.members ∧ (p.pick healthy).2.strategy = p.strategy := by
  unfold pick
  split <;> exact ⟨rfl, rfl⟩

theorem mem_of_pick {healthy : List Nat} (picked : (p.pick healthy).1 = some i) : i ∈ healthy := by
  unfold pick at picked
  split at picked
  · exact List.minOn?_mem picked
  · exact List.mem_of_getElem? picked

theorem pick_leastConnections {healthy : List Nat}
    (strategy : p.strategy = lit "least_connections") (picked : (p.pick healthy).1 = some i)
    (listed : j ∈ healthy) : p.inflight i ≤ p.inflight j := by
  simp only [pick, if_pos strategy] at picked
  have least := List.apply_get_minOn?_le_of_mem (f := p.inflight) listed
  simpa only [picked, Option.get_some] using least

theorem inRange_of_healthy (healthy : i ∈ p.healthyMembers) : i < p.members.length := by
  obtain ⟨m, found, -⟩ := mem_healthyMembers.mp healthy
  exact (List.getElem?_eq_some_iff.mp found).1

end ReverseProxy

namespace Handler

variable {p after : ReverseProxy} {handler next : Handler}

theorem proceed_length (proceeds : handler.proceed p = some (next, after)) :
    after.members.length = p.members.length := by
  cases handler with
  | choosing healthy =>
    cases proceeds
    rw [(p.pick_kept healthy).1]
  | raising i seen =>
    cases proceeds
    simp [ReverseProxy.setInflight]
  | lowering i seen =>
    cases proceeds
    simp [ReverseProxy.setInflight]
  | gone => cases proceeds
  | _ =>
    cases proceeds
    rfl

theorem proceed_strategy (proceeds : handler.proceed p = some (next, after)) :
    after.strategy = p.strategy := by
  cases handler with
  | choosing healthy =>
    cases proceeds
    exact (p.pick_kept healthy).2
  | gone => cases proceeds
  | _ =>
    cases proceeds
    rfl

/-- A thread comes to refer to a member only by listing it. -/
theorem proceed_mentions (proceeds : handler.proceed p = some (next, after)) {i : Nat}
    (mentioned : i ∈ next.mentions) : i ∈ handler.mentions ∨ i ∈ p.healthyMembers := by
  cases handler with
  | reading =>
    simp only [proceed, Option.some.injEq, Prod.mk.injEq] at proceeds
    rw [← proceeds.1] at mentioned
    split at mentioned
    · cases mentioned
    · exact .inr mentioned
  | choosing healthy =>
    simp only [proceed, Option.some.injEq, Prod.mk.injEq] at proceeds
    rw [← proceeds.1] at mentioned
    cases picked : (p.pick healthy).1 with
    | none => simp [picked, mentions, member] at mentioned
    | some j =>
      obtain rfl : i = j := by simpa [picked, mentions, member] using mentioned
      exact .inl (ReverseProxy.mem_of_pick picked)
  | gone => cases proceeds
  | lowering j seen =>
    cases proceeds
    cases mentioned
  | _ =>
    cases proceeds
    exact .inl mentioned

theorem fail_mentions (fails : handler.fail = some next) {i : Nat} (mentioned : i ∈ next.mentions) :
    i ∈ handler.mentions := by
  cases handler with
  | reading =>
    cases fails
    cases mentioned
  | proxying j =>
    cases fails
    exact mentioned
  | _ => cases fails

end Handler

namespace Traffic

variable {s next : Traffic} {move : Move}

theorem step_cases (stepped : s.step move = some next) :
    (∃ i ok, move = .probe i ok ∧ next = { s with proxy := s.proxy.probe i ok }) ∨
    (∃ h handler moved proxy, move = .proceed h ∧ s.handlers[h]? = some handler ∧
      handler.proceed s.proxy = some (moved, proxy) ∧
      next = { proxy := proxy, handlers := s.handlers.set h moved }) ∨
    (∃ h handler moved, move = .fail h ∧ s.handlers[h]? = some handler ∧
      handler.fail = some moved ∧ next = { s with handlers := s.handlers.set h moved }) := by
  cases move with
  | probe i ok => exact .inl ⟨i, ok, rfl, (Option.some.inj stepped).symm⟩
  | proceed h =>
    obtain ⟨after, proceeds, rfl⟩ := Option.map_eq_some_iff.mp stepped
    obtain ⟨handler, found, proceeds⟩ := Option.bind_eq_some_iff.mp proceeds
    exact .inr (.inl ⟨h, handler, after.1, after.2, rfl, found, proceeds, rfl⟩)
  | fail h =>
    obtain ⟨after, fails, rfl⟩ := Option.map_eq_some_iff.mp stepped
    obtain ⟨handler, found, fails⟩ := Option.bind_eq_some_iff.mp fails
    exact .inr (.inr ⟨h, handler, after, rfl, found, fails, rfl⟩)

theorem inRange_step (inRange : s.InRange) (stepped : s.step move = some next) : next.InRange := by
  obtain ⟨i, ok, -, rfl⟩ | ⟨h, handler, moved, proxy, -, found, proceeds, rfl⟩ |
    ⟨h, handler, moved, -, found, fails, rfl⟩ := step_cases stepped
  · intro handler among j mentioned
    exact (inRange handler among j mentioned).trans_eq (ReverseProxy.probe_length ok).symm
  · intro other among i mentioned
    rw [Handler.proceed_length proceeds]
    rcases List.mem_or_eq_of_mem_set among with before | rfl
    · exact inRange other before i mentioned
    · rcases Handler.proceed_mentions proceeds mentioned with before | listed
      · exact inRange handler (List.mem_of_getElem? found) i before
      · exact ReverseProxy.inRange_of_healthy listed
  · intro other among i mentioned
    rcases List.mem_or_eq_of_mem_set among with before | rfl
    · exact inRange other before i mentioned
    · exact inRange handler (List.mem_of_getElem? found) i (Handler.fail_mentions fails mentioned)

theorem step_length (stepped : s.step move = some next) :
    next.proxy.members.length = s.proxy.members.length ∧
      next.handlers.length = s.handlers.length := by
  obtain ⟨i, ok, -, rfl⟩ | ⟨h, handler, moved, proxy, -, found, proceeds, rfl⟩ |
    ⟨h, handler, moved, -, found, fails, rfl⟩ := step_cases stepped
  · exact ⟨ReverseProxy.probe_length ok, rfl⟩
  · exact ⟨Handler.proceed_length proceeds, List.length_set⟩
  · exact ⟨rfl, List.length_set⟩

theorem step_strategy (stepped : s.step move = some next) :
    next.proxy.strategy = s.proxy.strategy := by
  obtain ⟨i, ok, -, rfl⟩ | ⟨h, handler, moved, proxy, -, found, proceeds, rfl⟩ |
    ⟨h, handler, moved, -, found, fails, rfl⟩ := step_cases stepped
  · rfl
  · exact Handler.proceed_strategy proceeds
  · rfl

/-- What holds in every run. -/
structure Sound (numMembers numHandlers : Nat) (s : Traffic) : Prop where
  strategy : s.proxy.strategy = lit "least_connections"
  members : s.proxy.members.length = numMembers
  handlers : s.handlers.length = numHandlers
  inRange : ∀ handler ∈ s.handlers, ∀ i ∈ handler.mentions, i < numMembers

variable {numMembers numHandlers : Nat}

theorem sound_start : Sound numMembers numHandlers (start numMembers numHandlers) where
  strategy := rfl
  members := by simp [start, ReverseProxy.init]
  handlers := by simp [start]
  inRange := by
    intro handler among i mentioned
    rw [List.eq_of_mem_replicate among] at mentioned
    cases mentioned

theorem Sound.allInRange (sound : Sound numMembers numHandlers s) : s.InRange := by
  intro handler among i mentioned
  rw [sound.members]
  exact sound.inRange handler among i mentioned

theorem sound_step (sound : Sound numMembers numHandlers s) (stepped : s.step move = some next) :
    Sound numMembers numHandlers next := by
  obtain ⟨sameMembers, sameHandlers⟩ := step_length stepped
  have members := sameMembers.trans sound.members
  refine ⟨(step_strategy stepped).trans sound.strategy, members,
    sameHandlers.trans sound.handlers, ?_⟩
  intro handler among i mentioned
  rw [← members]
  exact inRange_step sound.allInRange stepped handler among i mentioned

theorem sound_visited {moves : List Move} :
    ∀ s, Visited step (start numMembers numHandlers) moves s → Sound numMembers numHandlers s :=
  run_invariant sound_start (fun _ _ _ stepped sound => sound_step sound stepped) moves

/-! ## The counts -/

/-- `inflight` counts the requests between the two writes. -/
def Counted (s : Traffic) : Prop :=
  ∀ i, s.proxy.inflight i = s.handlers.countP fun handler => handler.countedBy = some i

theorem counted_start : Counted (start numMembers numHandlers) := by
  intro i
  simp only [start, ReverseProxy.init, ReverseProxy.inflight, List.getElem?_replicate,
    List.countP_replicate, Handler.countedBy]
  split <;> simp

section Moved

variable {h : Nat} {handler moved : Handler}

theorem countedBy_set (found : s.handlers[h]? = some handler) (moved : Handler) (i : Nat) :
    ((s.handlers.set h moved).countP fun handler => handler.countedBy = some i) +
        (if handler.countedBy = some i then 1 else 0) =
      (s.handlers.countP fun handler => handler.countedBy = some i) +
        if moved.countedBy = some i then 1 else 0 := by
  simpa using countP_set_add found moved fun handler => handler.countedBy = some i

/-- A step that leaves the numbers alone and moves nobody across a write. -/
theorem counted_of_same (counted : s.Counted) {proxy : ReverseProxy}
    (found : s.handlers[h]? = some handler) (inflight : ∀ i, proxy.inflight i = s.proxy.inflight i)
    (same : moved.countedBy = handler.countedBy) :
    Counted { proxy := proxy, handlers := s.handlers.set h moved } := by
  intro i
  have moves := countedBy_set found moved i
  rw [same] at moves
  rw [inflight, counted i]
  exact congrArg Nat.cast (Nat.add_right_cancel moves).symm

/-- A write that changes the number of one member as its thread moves. -/
theorem counted_of_write (counted : s.Counted) {i : Nat} {change : Int}
    (found : s.handlers[h]? = some handler) (inRange : i < s.proxy.members.length)
    (here : (if handler.countedBy = some i then 1 else 0) + change =
      if moved.countedBy = some i then 1 else 0)
    (elsewhere : ∀ j, i ≠ j → handler.countedBy ≠ some j ∧ moved.countedBy ≠ some j) :
    Counted { proxy := s.proxy.setInflight i (s.proxy.inflight i + change),
              handlers := s.handlers.set h moved } := by
  intro j
  have before := counted j
  have moves := countedBy_set found moved j
  rw [ReverseProxy.inflight_setInflight inRange]
  by_cases same : i = j
  · subst same
    have moves := congrArg (Nat.cast : Nat → Int) moves
    push_cast at moves
    rw [if_pos rfl, before]
    linarith
  · rw [if_neg same, before]
    rw [if_neg (elsewhere j same).1, if_neg (elsewhere j same).2] at moves
    exact congrArg Nat.cast moves.symm

end Moved

theorem counted_proceed (inRange : s.InRange) (counted : s.Counted) {h : Nat}
    {handler moved : Handler} {proxy : ReverseProxy} (found : s.handlers[h]? = some handler)
    (fresh : s.Fresh handler) (proceeds : handler.proceed s.proxy = some (moved, proxy)) :
    Counted { proxy := proxy, handlers := s.handlers.set h moved } := by
  have mentioned := inRange handler (List.mem_of_getElem? found)
  cases handler with
  | reading =>
    cases proceeds
    refine counted_of_same counted found (fun i => rfl) ?_
    split <;> rfl
  | choosing healthy =>
    cases proceeds
    refine counted_of_same counted found (fun i => ?_) ?_
    · rw [ReverseProxy.inflight, (s.proxy.pick_kept healthy).1]
      rfl
    · cases (s.proxy.pick healthy).1 <;> rfl
  | chosen i =>
    cases proceeds
    exact counted_of_same counted found (fun i => rfl) rfl
  | raising i seen =>
    cases proceeds
    -- The count that was read is still current, so writing `seen + 1` adds exactly one.
    have read : s.proxy.inflight i = seen := fresh
    rw [← read]
    refine counted_of_write counted found (mentioned i List.mem_cons_self) ?_ ?_
    · simp [Handler.countedBy]
    · simp [Handler.countedBy]
  | proxying i =>
    cases proceeds
    exact counted_of_same counted found (fun i => rfl) rfl
  | finishing i =>
    cases proceeds
    exact counted_of_same counted found (fun i => rfl) rfl
  | lowering i seen =>
    cases proceeds
    -- Likewise one is taken off the current count.
    have read : s.proxy.inflight i = seen := fresh
    rw [← read, Int.sub_eq_add_neg]
    refine counted_of_write counted found (mentioned i List.mem_cons_self) ?_ ?_
    · simp [Handler.countedBy]
    · simp [Handler.countedBy]
  | gone => cases proceeds

theorem counted_step (inRange : s.InRange) (counted : s.Counted)
    (fresh : ∀ h handler, move = .proceed h → s.handlers[h]? = some handler → s.Fresh handler)
    (stepped : s.step move = some next) : next.Counted := by
  obtain ⟨i, ok, -, rfl⟩ | ⟨h, handler, moved, proxy, rfl, found, proceeds, rfl⟩ |
    ⟨h, handler, moved, -, found, fails, rfl⟩ := step_cases stepped
  · intro j
    exact (ReverseProxy.inflight_probe ok).trans (counted j)
  · exact counted_proceed inRange counted found (fresh h handler rfl found) proceeds
  · refine counted_of_same counted found (fun i => rfl) ?_
    cases handler with
    | reading =>
      cases fails
      rfl
    | proxying i =>
      cases fails
      rfl
    | _ => cases fails

theorem leastLoaded_of_orderly (sound : Sound numMembers numHandlers s) (counted : s.Counted)
    (orderly : s.Orderly move) : s.LeastLoaded move := by
  rintro h healthy i rfl found picked j healthyNow
  obtain ⟨allCounted, noneMissing⟩ := orderly _ found
  -- Nobody is between a pick and its write, so the loads are the numbers compared.
  have loads (k : Nat) : (s.load k : Int) = s.proxy.inflight k := by
    rw [counted k, load]
    congr 1
    apply List.countP_congr
    intro handler among
    rw [allCounted handler among]
  have least := ReverseProxy.pick_leastConnections sound.strategy picked (noneMissing j healthyNow)
  rw [← loads, ← loads] at least
  exact_mod_cast least

/-! ## Few members or few requests -/

/-- Nobody else is under way when the only thread makes its choice. -/
theorem leastLoaded_of_single (sound : Sound numMembers numHandlers s) (single : numHandlers ≤ 1) :
    s.LeastLoaded move := by
  rintro h healthy i rfl found picked j -
  have few := sound.handlers.trans_le single
  have inside : h < s.handlers.length := (List.getElem?_eq_some_iff.mp found).1
  obtain ⟨handler, only⟩ := List.length_eq_one_iff.mp (by omega : s.handlers.length = 1)
  obtain rfl : h = 0 := by omega
  obtain rfl : handler = .choosing healthy := by simpa [only] using found
  have idle (k : Nat) : s.load k = 0 := by simp [load, only, Handler.member]
  rw [idle, idle]

theorem leastLoaded_of_alone (sound : Sound numMembers numHandlers s) (alone : numMembers ≤ 1) :
    s.LeastLoaded move := by
  rintro h healthy i rfl found picked j healthyNow
  have first : i < numMembers :=
    sound.inRange _ (List.mem_of_getElem? found) i (ReverseProxy.mem_of_pick picked)
  have second := (ReverseProxy.inRange_of_healthy healthyNow).trans_eq sound.members
  obtain rfl : i = j := by omega
  exact le_refl _

/-- Two threads list the members and pick before either has counted its request. -/
def burst : List Move := [.proceed 0, .proceed 1, .proceed 0, .proceed 1]

theorem healthyMembers_init (strategy : Str) :
    (ReverseProxy.init numMembers strategy).healthyMembers = List.range numMembers := by
  have all : ((List.replicate numMembers (PoolMember.mk true 0)).zipIdx.filter
      fun entry => entry.1.healthy) = (List.replicate numMembers (PoolMember.mk true 0)).zipIdx := by
    rw [List.filter_eq_self]
    intro entry member
    rw [List.eq_of_mem_replicate (List.fst_mem_of_mem_zipIdx member)]
  rw [ReverseProxy.healthyMembers, ReverseProxy.init, all, List.zipIdx_map_snd]
  simp [List.range_eq_range']

theorem pick_init (others : Nat) :
    (ReverseProxy.init (others + 1) (lit "least_connections")).pick (List.range (others + 1)) =
      (some 0, .init (others + 1) (lit "least_connections")) := by
  have idle (i : Nat) :
      (ReverseProxy.init (others + 1) (lit "least_connections")).inflight i = 0 := by
    simp only [ReverseProxy.init, ReverseProxy.inflight, List.getElem?_replicate]
    split <;> rfl
  have least : (List.range (others + 1)).minOn?
      (ReverseProxy.init (others + 1) (lit "least_connections")).inflight = some 0 := by
    rw [List.range_succ_eq_map, List.minOn?_cons]
    cases ((List.range others).map Nat.succ).minOn?
        (ReverseProxy.init (others + 1) (lit "least_connections")).inflight with
    | none => rfl
    | some i => exact congrArg some (minOn_eq_left (by rw [idle, idle]))
  rw [ReverseProxy.pick, if_pos (by rfl), least]

/-- The second pick of the burst goes to member 0 again. -/
theorem burst_overloads (members handlers : Nat) :
    ¬ ∀ s move, Taken step (start (members + 2) (handlers + 2)) burst s move →
      s.LeastLoaded move := by
  intro least
  let p := ReverseProxy.init (members + 2) (lit "least_connections")
  have listed : p.healthyMembers = List.range (members + 2) := healthyMembers_init _
  have picks : p.pick (List.range (members + 2)) = (some 0, p) := pick_init (members + 1)
  let both : Traffic := ⟨p, .choosing (List.range (members + 2)) ::
    .choosing (List.range (members + 2)) :: List.replicate handlers .reading⟩
  let one : Traffic := ⟨p, .chosen 0 :: .choosing (List.range (members + 2)) ::
    List.replicate handlers .reading⟩
  have reached : run step (start (members + 2) (handlers + 2))
      [.proceed 0, .proceed 1] = some both := by
    simp [run, step, start, List.replicate_succ, Handler.proceed, listed, both, p]
  have first : step both (.proceed 0) = some one := by
    simp [step, both, Handler.proceed, picks, one]
  have second : step one (.proceed 1) = some ⟨p, .chosen 0 :: .chosen 0 ::
      List.replicate handlers .reading⟩ := by
    simp [step, one, Handler.proceed, picks]
  have taken : Taken step (start (members + 2) (handlers + 2)) burst one (.proceed 1) := by
    refine ⟨[.proceed 0, .proceed 1, .proceed 0], [], _, rfl, ?_, second⟩
    exact run_snoc.mpr ⟨both, reached, first⟩
  have fewer := least one (.proceed 1) taken 1 (List.range (members + 2)) 0 rfl rfl
    (by rw [picks]) 1 (by simp [one, listed])
  simp [load, one, Handler.member, List.countP_replicate] at fewer

/-! ## Every interleaving -/

/-- Least-connections picks a least loaded member in the runs whose steps are all orderly,
    and in all runs only when there is no choice or nothing to count. -/
theorem least_connections_picks_least (numMembers numHandlers : Nat) :
    (∀ moves, (∀ s move, Taken step (start numMembers numHandlers) moves s move →
        s.Orderly move) →
      ∀ s move, Taken step (start numMembers numHandlers) moves s move → s.LeastLoaded move) ∧
    ((∀ moves s move, Taken step (start numMembers numHandlers) moves s move →
        s.LeastLoaded move) ↔ numMembers ≤ 1 ∨ numHandlers ≤ 1) := by
  constructor
  · intro moves orderly s move taken
    -- Up to this step every write was fresh, so the counts are those of the handlers.
    have counted : s.Counted := by
      refine visited_induction counted_start ?_ s taken.visited
      intro earlier other next before stepped counted
      refine counted_step (sound_visited earlier before.visited).allInRange counted ?_ stepped
      rintro h handler rfl found
      exact (orderly earlier _ before handler found).fresh
    exact leastLoaded_of_orderly (sound_visited s taken.visited) counted (orderly s move taken)
  · constructor
    · intro least
      by_contra many
      rw [not_or] at many
      -- Two handlers that choose before either is counted choose the same member.
      obtain ⟨members, rfl⟩ : ∃ members, numMembers = members + 2 := ⟨numMembers - 2, by omega⟩
      obtain ⟨handlers, rfl⟩ : ∃ handlers, numHandlers = handlers + 2 :=
        ⟨numHandlers - 2, by omega⟩
      exact burst_overloads members handlers (least burst)
    · rintro (alone | single) moves s move taken
      · exact leastLoaded_of_alone (sound_visited s taken.visited) alone
      · exact leastLoaded_of_single (sound_visited s taken.visited) single

/-- Both requests of the burst are given to member 0, while member 1 has none. -/
theorem burst_to_one_member :
    ∃ s, run step (start 2 2) [.proceed 0, .proceed 1, .proceed 0] = some s ∧
      s.handlers = [.chosen 0, .choosing [0, 1]] ∧ s.proxy.healthyMembers = [0, 1] ∧
      (s.proxy.pick [0, 1]).1 = some 0 ∧ s.load 0 = 1 ∧ s.load 1 = 0 ∧
      ¬ s.LeastLoaded (.proceed 1) := by
  refine ⟨_, rfl, rfl, by decide, by decide, by decide, by decide, fun least => ?_⟩
  have fewer := least 1 [0, 1] 0 rfl rfl (by decide) 1 (by decide)
  exact absurd fewer (by decide)

/-- The second request is placed once the first is counted. -/
def patient : List Move :=
  [.proceed 0, .proceed 0, .proceed 0, .proceed 0, .proceed 1, .proceed 1, .proceed 1]

theorem patient_placed_well :
    (∃ s, run step (start 2 2) patient = some s ∧
      s.handlers = [.proxying 0, .raising 1 0]) ∧
    ∀ s move, Taken step (start 2 2) patient s move → s.LeastLoaded move := by
  refine ⟨⟨_, rfl, by decide⟩, ?_⟩
  exact (least_connections_picks_least 2 2).1 patient (by decide)

end Traffic

end Excalibur.Backends
