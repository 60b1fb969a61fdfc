import Excalibur.Library.Simulation
import Excalibur.Python.Basic

/-! # Selecting a backend

`ReverseProxy` with its members, the selection strategies and the health loop.  A member
is referred to by its index in `members`.

Round-robin moves an index through the list of the members that are healthy at the
moment, so a position can hold another member at each call.  `rotation_fair_iff` says
what that costs: with three members or more, one that flaps can keep a healthy one from
ever being selected; with two or less nobody waits longer than two calls.
-/

namespace Excalibur.Backends

open Excalibur.Library Excalibur.Python

structure PoolMember where
  healthy : Bool
  inflight : Int
  deriving Repr, DecidableEq

structure ReverseProxy where
  members : List PoolMember
  strategy : Str
  rrIndex : Int
  deriving Repr, DecidableEq

namespace ReverseProxy

def init (numMembers : Nat) (strategy : Str) : ReverseProxy where
  members := List.replicate numMembers { healthy := true, inflight := 0 }
  strategy := strategy
  rrIndex := 0

def healthyMembers (p : ReverseProxy) : List Nat :=
  (p.members.zipIdx.filter fun entry => entry.1.healthy).map Prod.snd

def inflight (p : ReverseProxy) (i : Nat) : Int := (p.members[i]?.map PoolMember.inflight).getD 0

/-- What `_select` does under the lock, on the list filtered before. -/
def pick (p : ReverseProxy) (healthy : List Nat) : Option Nat × ReverseProxy :=
  if p.strategy = lit "least_connections" then (healthy.minOn? p.inflight, p)
  else
    let rrIndex := (p.rrIndex + 1) % healthy.length
    (healthy[rrIndex.toNat]?, { p with rrIndex := rrIndex })

/-- `_select` when no other thread comes between. -/
def select (p : ReverseProxy) : Option Nat × ReverseProxy :=
  match p.healthyMembers with
  | [] => (none, p)
  | healthy => p.pick healthy

/-- The health loop has probed a member. -/
def probe (p : ReverseProxy) (i : Nat) (ok : Bool) : ReverseProxy :=
  { p with members := p.members.modify i fun m => { m with healthy := ok } }

end ReverseProxy

inductive Event where
  | probe (i : Nat) (ok : Bool)
  | select
  deriving Repr, DecidableEq

/-- The member that an event selects, and the proxy after it. -/
def answer (p : ReverseProxy) : Event → Option Nat × ReverseProxy
  | .probe i ok => (none, p.probe i ok)
  | .select => p.select

/-- There is a number of calls, the same for all proxies with that many members, among
    which round-robin selects every member that is healthy throughout. -/
def RotationFair (numMembers : Nat) : Prop :=
  ∃ bound, ∀ (p : ReverseProxy) (events : List Event) (i : Nat) (m : PoolMember),
    p.members.length = numMembers → p.strategy = lit "round_robin" →
    p.members[i]? = some m → m.healthy = true → (∀ ok, .probe i ok ∉ events) →
    bound ≤ events.count .select → some i ∈ (answers answer p events).1

namespace ReverseProxy

variable {p : ReverseProxy} {i j : Nat}

theorem mem_healthyMembers : i ∈ p.healthyMembers ↔ ∃ m, p.members[i]? = some m ∧ m.healthy = true := by
  simp only [healthyMembers, List.mem_map, List.mem_filter, Prod.exists]
  constructor
  · rintro ⟨m, _, ⟨member, healthy⟩, rfl⟩
    exact ⟨m, List.mem_zipIdx_iff_getElem?.mp member, healthy⟩
  · rintro ⟨m, found, healthy⟩
    exact ⟨m, i, ⟨List.mem_zipIdx_iff_getElem?.mpr found, healthy⟩, rfl⟩

@[simp] theorem probe_length (ok : Bool) : (p.probe i ok).members.length = p.members.length := by
  simp [probe]

theorem probe_other (other : i ≠ j) (ok : Bool) : (p.probe i ok).members[j]? = p.members[j]? := by
  simp [probe, other]

theorem pick_roundRobin (strategy : p.strategy = lit "round_robin") (healthy : List Nat) :
    p.pick healthy = (healthy[((p.rrIndex + 1) % healthy.length).toNat]?,
      { p with rrIndex := (p.rrIndex + 1) % healthy.length }) := by
  have other : p.strategy ≠ lit "least_connections" := by
    rw [strategy]
    decide
  simp only [pick, if_neg other]

theorem select_of_healthy {healthy : List Nat} (listed : p.healthyMembers = healthy)
    (nonempty : healthy ≠ []) : p.select = p.pick healthy := by
  unfold select
  rw [listed]
  split
  · exact absurd rfl nonempty
  · rfl

/-- Round-robin over at most two members, of which `i` is healthy. -/
structure Pair (p : ReverseProxy) (i : Nat) : Prop where
  strategy : p.strategy = lit "round_robin"
  atMostTwo : p.members.length ≤ 2
  healthy : ∃ m, p.members[i]? = some m ∧ m.healthy = true

/-- The next call selects `i` whether or not the other member is healthy. -/
def Due (p : ReverseProxy) (i : Nat) : Prop := (p.rrIndex + 1) % 2 = i

namespace Pair

theorem healthyMembers (pair : p.Pair i) :
    p.healthyMembers = [i] ∨ p.healthyMembers = [0, 1] ∧ i < 2 := by
  obtain ⟨m, found, healthy⟩ := pair.healthy
  have inside : i < p.members.length := (List.getElem?_eq_some_iff.mp found).1
  have atMostTwo := pair.atMostTwo
  -- At most two members: each may be the healthy one, with the other healthy or not.
  match members : p.members with
  | [] => simp [members] at inside
  | [a] =>
    obtain rfl : i = 0 := by simpa [members] using inside
    obtain rfl : a = m := by simpa [members] using found
    exact .inl (by simp [ReverseProxy.healthyMembers, members, healthy])
  | [a, b] =>
    have cases : i = 0 ∨ i = 1 := by
      simp only [members, List.length_cons, List.length_nil] at inside
      omega
    cases cases with
    | inl first =>
      subst first
      obtain rfl : a = m := by simpa [members] using found
      cases other : b.healthy with
      | false => exact .inl (by simp [ReverseProxy.healthyMembers, members, healthy, other])
      | true => exact .inr (by simp [ReverseProxy.healthyMembers, members, healthy, other])
    | inr second =>
      subst second
      obtain rfl : b = m := by simpa [members] using found
      cases other : a.healthy with
      | false => exact .inl (by simp [ReverseProxy.healthyMembers, members, healthy, other])
      | true => exact .inr (by simp [ReverseProxy.healthyMembers, members, healthy, other])
  | a :: b :: c :: rest => simp [members] at atMostTwo

/-- A call selects `i`, or selects the other member and leaves the turn to `i`. -/
theorem select (pair : p.Pair i) :
    p.select.1 = some i ∨ ¬ p.Due i ∧ p.select.2.Due i := by
  cases pair.healthyMembers with
  | inl alone =>
    rw [select_of_healthy alone (by simp), pick_roundRobin pair.strategy]
    simp
  | inr both =>
    obtain ⟨both, small⟩ := both
    rw [select_of_healthy both (by simp), pick_roundRobin pair.strategy]
    unfold Due
    have turns : (p.rrIndex + 1) % 2 = 0 ∨ (p.rrIndex + 1) % 2 = 1 := by omega
    have places : i = 0 ∨ i = 1 := by omega
    rcases turns with turn | turn <;> rcases places with rfl | rfl <;> simp [turn]

theorem answer (pair : p.Pair i) {event : Event} (spared : ∀ ok, event ≠ .probe i ok) :
    (Backends.answer p event).2.Pair i := by
  cases event with
  | probe j ok =>
    have other : j ≠ i := by
      rintro rfl
      exact spared ok rfl
    refine ⟨pair.strategy, ?_, ?_⟩
    · exact (probe_length ok).trans_le pair.atMostTwo
    · obtain ⟨m, found, healthy⟩ := pair.healthy
      exact ⟨m, (probe_other other ok).trans found, healthy⟩
  | select =>
    obtain ⟨healthy, listed⟩ : ∃ healthy, p.select = p.pick healthy := by
      cases pair.healthyMembers with
      | inl alone => exact ⟨_, select_of_healthy alone (by simp)⟩
      | inr both => exact ⟨_, select_of_healthy both.1 (by simp)⟩
    simp only [Backends.answer, listed, pick_roundRobin pair.strategy]
    exact ⟨pair.strategy, pair.atMostTwo, pair.healthy⟩

theorem selected_when_due (pair : p.Pair i) (due : p.Due i) {events : List Event}
    (spared : ∀ ok, .probe i ok ∉ events) (one : 1 ≤ events.count .select) :
    some i ∈ (answers Backends.answer p events).1 := by
  induction events generalizing p with
  | nil => simp at one
  | cons event events ih =>
    have pairNext : (Backends.answer p event).2.Pair i := by
      apply pair.answer
      rintro ok rfl
      exact spared ok List.mem_cons_self
    simp only [answers, List.mem_cons]
    cases event with
    | probe j ok =>
      refine .inr (ih pairNext due ?_ ?_)
      · intro ok member
        exact spared ok (List.mem_cons_of_mem _ member)
      · simpa using one
    | select =>
      rcases pair.select with selected | ⟨notDue, -⟩
      · exact .inl selected.symm
      · exact absurd due notDue

theorem selected (pair : p.Pair i) {events : List Event} (spared : ∀ ok, .probe i ok ∉ events)
    (two : 2 ≤ events.count .select) : some i ∈ (answers Backends.answer p events).1 := by
  induction events generalizing p with
  | nil => simp at two
  | cons event events ih =>
    have pairNext : (Backends.answer p event).2.Pair i := by
      apply pair.answer
      rintro ok rfl
      exact spared ok List.mem_cons_self
    have sparedLater : ∀ ok, Event.probe i ok ∉ events := by
      intro ok member
      exact spared ok (List.mem_cons_of_mem _ member)
    simp only [answers, List.mem_cons]
    cases event with
    | probe j ok => exact .inr (ih pairNext sparedLater (by simpa using two))
    | select =>
      rcases pair.select with selected | ⟨-, due⟩
      · exact .inl selected.symm
      · refine .inr (pairNext.selected_when_due due sparedLater ?_)
        simp only [List.count_cons_self] at two
        omega

end Pair

end ReverseProxy

/-! ## A member that is never selected -/

/-- Members 0 and 1 are healthy, member 2 perhaps, and nobody else is. -/
def crowded (others : Nat) (third : Bool) (rrIndex : Int) : ReverseProxy where
  members := ⟨true, 0⟩ :: ⟨true, 0⟩ :: ⟨third, 0⟩ :: List.replicate others ⟨false, 0⟩
  strategy := lit "round_robin"
  rrIndex := rrIndex

theorem healthyMembers_crowded (others : Nat) (third : Bool) (rrIndex : Int) :
    (crowded others third rrIndex).healthyMembers = if third then [0, 1, 2] else [0, 1] := by
  have down (k : Nat) : ((List.replicate others (PoolMember.mk false 0)).zipIdx k).filter
      (fun entry => entry.1.healthy) = [] := by
    rw [List.filter_eq_nil_iff]
    intro entry member
    simp [List.eq_of_mem_replicate (List.fst_mem_of_mem_zipIdx member)]
  cases third with
  | true => simp [crowded, ReverseProxy.healthyMembers, List.zipIdx_cons, down]
  | false => simp [crowded, ReverseProxy.healthyMembers, List.zipIdx_cons, down]

/-- Member 2 is out of the rotation at every other call. -/
def flapping : List Event := [.select, .probe 2 false, .select, .probe 2 true]

/-- Both turns go past member 0, and after them everything is as before. -/
theorem answers_flapping (others : Nat) :
    answers answer (crowded others true 1) flapping =
      ([some 2, none, some 1, none], crowded others true 1) := by
  have first : (crowded others true 1).select = (some 2, crowded others true 2) := by
    rw [ReverseProxy.select_of_healthy (healthyMembers_crowded others true 1) (by simp),
      ReverseProxy.pick_roundRobin rfl]
    rfl
  have second : (crowded others false 2).select = (some 1, crowded others false 1) := by
    rw [ReverseProxy.select_of_healthy (healthyMembers_crowded others false 2) (by simp),
      ReverseProxy.pick_roundRobin rfl]
    rfl
  have down : (crowded others true 2).probe 2 false = crowded others false 2 := rfl
  have up : (crowded others false 1).probe 2 true = crowded others true 1 := rfl
  simp only [flapping, answers, answer, first, down, second, up]

theorem answers_flapping_rounds (others rounds : Nat) :
    answers answer (crowded others true 1) (List.replicate rounds flapping).flatten =
      ((List.replicate rounds [some 2, none, some 1, none]).flatten, crowded others true 1) := by
  induction rounds with
  | zero => rfl
  | succ rounds ih =>
    simp only [List.replicate_succ, List.flatten_cons, answers_append, answers_flapping, ih]

theorem not_rotationFair (others : Nat) : ¬ RotationFair (others + 3) := by
  rintro ⟨bound, fair⟩
  have selected := fair (crowded others true 1) (List.replicate bound flapping).flatten 0
    ⟨true, 0⟩ (by simp [crowded]) rfl rfl rfl
  rw [answers_flapping_rounds] at selected
  have never : some 0 ∉ (List.replicate bound [some 2, none, some 1, (none : Option Nat)]).flatten := by
    rw [List.mem_flatten]
    rintro ⟨answers, member, zero⟩
    rw [List.eq_of_mem_replicate member] at zero
    simp at zero
  apply never
  apply selected
  · intro ok member
    obtain ⟨round, among, probed⟩ := List.mem_flatten.mp member
    rw [List.eq_of_mem_replicate among] at probed
    simp [flapping] at probed
  · have perRound : flapping.count .select = 2 := by decide
    simp only [List.count_flatten, List.map_replicate, perRound, List.sum_replicate, smul_eq_mul]
    omega

/-- Round-robin is fair in the face of flapping members exactly when there are at most
    two members. -/
theorem rotation_fair_iff (numMembers : Nat) : RotationFair numMembers ↔ numMembers ≤ 2 := by
  constructor
  · intro fair
    by_contra more
    obtain ⟨others, rfl⟩ : ∃ others, numMembers = others + 3 := ⟨numMembers - 3, by omega⟩
    exact not_rotationFair others fair
  · intro atMostTwo
    refine ⟨2, ?_⟩
    rintro p events i m length strategy found healthy spared two
    have pair : p.Pair i := ⟨strategy, by omega, m, found, healthy⟩
    exact pair.selected spared two

/-- Three backends, of which the third flaps, starve the first. -/
theorem three_members_can_starve_one : ¬ RotationFair 3 := not_rotationFair 0

end Excalibur.Backends
