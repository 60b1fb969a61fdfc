import Excalibur.Library.Reservoir

/-! # The token buckets

Two classes named `TokenBucket`: the edge version, with a virtual clock and an
`elapsed > 0` guard on the refill, and the locked version, which refills without the
guard.  `allow` holds the lock from the clock reading to the decision, so the calls
of all threads form one sequence at non-decreasing times.  Numbers are rationals.
-/

namespace Excalibur.RateLimit

open Excalibur.Library

structure TokenBucket where
  rate : ℚ
  capacity : ℚ
  tokens : ℚ
  last : ℚ
  deriving Repr, DecidableEq

/-- A call of `allow`. -/
structure Call where
  now : ℚ
  cost : ℚ := 1
  deriving Repr, DecidableEq

namespace TokenBucket

def init (rate capacity now : ℚ) : TokenBucket :=
  { rate := rate, capacity := capacity, tokens := capacity, last := now }

/-- What `allow` does once the bucket is refilled. -/
def take (b : TokenBucket) (cost : ℚ) : Bool × TokenBucket :=
  if b.tokens ≥ cost then (true, { b with tokens := b.tokens - cost }) else (false, b)

end TokenBucket

namespace Edge

def refill (b : TokenBucket) (now : ℚ) : TokenBucket :=
  let elapsed := now - b.last
  if elapsed > 0 then
    { b with tokens := min b.capacity (b.tokens + elapsed * b.rate), last := now }
  else b

def allow (b : TokenBucket) (call : Call) : Bool × TokenBucket :=
  (refill b call.now).take call.cost

end Edge

namespace Locked

def refill (b : TokenBucket) (now : ℚ) : TokenBucket :=
  let elapsed := now - b.last
  { b with last := now, tokens := min b.capacity (b.tokens + elapsed * b.rate) }

def allow (b : TokenBucket) (call : Call) : Bool × TokenBucket :=
  (refill b call.now).take call.cost

end Locked

/-! ## The law -/

/-- A run: each call with the answer it gets. -/
def history (allow : TokenBucket → Call → Bool × TokenBucket) :
    TokenBucket → List Call → List (Call × Bool)
  | _, [] => []
  | b, call :: calls => (call, (allow b call).1) :: history allow (allow b call).2 calls

def admittedCost (entry : Call × Bool) : ℚ := if entry.2 then entry.1.cost else 0

/-- `call` fits in the burst and, from the construction at `start` and from every
    earlier call, what was admitted since leaves room for it. -/
structure AdmissionLaw (rate capacity start : ℚ) (earlier : List (Call × Bool)) (call : Call) :
    Prop where
  burst : call.cost ≤ capacity
  fromStart : (earlier.map admittedCost).sum + call.cost ≤ capacity + rate * (call.now - start)
  fromCall : ∀ before first rest, earlier = before ++ first :: rest →
    ((first :: rest).map admittedCost).sum + call.cost ≤
      capacity + rate * (call.now - first.1.now)

/-! ## The bucket as a reservoir -/

/-- The reservoir fed at the bucket's rate. -/
def TokenBucket.reservoir (b : TokenBucket) : Reservoir ℚ :=
  { cap := b.capacity, level := b.tokens, supply := b.rate * b.last }

/-- An answered call as a draw from that reservoir. -/
def drawOf (rate : ℚ) (entry : Call × Bool) : Draw ℚ :=
  { supply := rate * entry.1.now, amount := admittedCost entry }

theorem drawn_drawOf (rate : ℚ) (entries : List (Call × Bool)) :
    Reservoir.drawn (entries.map (drawOf rate)) = (entries.map admittedCost).sum := by
  rw [Reservoir.drawn, List.map_map]
  rfl

theorem covered_iff_law {rate capacity start : ℚ} {earlier : List (Call × Bool)} {call : Call} :
    Reservoir.Covered capacity (rate * start) (rate * call.now) (earlier.map (drawOf rate))
        call.cost ↔
      AdmissionLaw rate capacity start earlier call := by
  constructor
  · intro covered
    refine ⟨covered.capped, ?_, ?_⟩
    · rw [mul_sub, ← drawn_drawOf rate]
      exact covered.fromStart
    · rintro before first rest rfl
      rw [mul_sub, ← drawn_drawOf rate]
      exact covered.fromDraw (before.map (drawOf rate)) (drawOf rate first)
        (rest.map (drawOf rate)) (by simp)
  · intro law
    refine ⟨law.burst, ?_, ?_⟩
    · rw [← mul_sub, drawn_drawOf]
      exact law.fromStart
    · intro before draw after split
      obtain ⟨first, rest, rfl, rfl, later⟩ := List.map_eq_append_iff.mp split
      obtain ⟨entry, others, rfl, rfl, rfl⟩ := List.map_eq_cons_iff.mp later
      have room := law.fromCall first entry others rfl
      rw [← drawn_drawOf rate, mul_sub] at room
      exact room

theorem reservoir_refill (b : TokenBucket) (now : ℚ) :
    (Locked.refill b now).reservoir = b.reservoir.refill (b.rate * now) := by
  have supplied : (now - b.last) * b.rate = b.rate * now - b.rate * b.last := by ring
  simp [TokenBucket.reservoir, Locked.refill, Reservoir.refill, supplied]

theorem reservoir_allow (b : TokenBucket) (call : Call) :
    (Locked.allow b call).2.reservoir =
      b.reservoir.draw (drawOf b.rate (call, (Locked.allow b call).1)) := by
  have refilled := reservoir_refill b call.now
  have level : (Locked.refill b call.now).tokens =
      (b.reservoir.refill (b.rate * call.now)).level := congrArg Reservoir.level refilled
  unfold Locked.allow TokenBucket.take
  split
  · simp [Reservoir.draw, drawOf, admittedCost, ← level]
    rfl
  · simp [Reservoir.draw, drawOf, admittedCost, ← level]
    rfl

theorem allow_iff (b : TokenBucket) (call : Call) :
    (Locked.allow b call).1 = true ↔
      call.cost ≤ (b.reservoir.refill (b.rate * call.now)).level := by
  rw [← reservoir_refill]
  unfold Locked.allow TokenBucket.take
  split
  · rename_i enough
    simpa [TokenBucket.reservoir] using enough
  · rename_i short
    simpa [TokenBucket.reservoir] using short

theorem allow_rate (b : TokenBucket) (call : Call) : (Locked.allow b call).2.rate = b.rate := by
  unfold Locked.allow TokenBucket.take
  split <;> rfl

/-- The law for a run that continues after the calls `earlier`. -/
theorem history_law {rate capacity start : ℚ} {b : TokenBucket} {earlier : List (Call × Bool)}
    (sameRate : b.rate = rate)
    (drawnDown : b.reservoir =
      (Reservoir.full capacity (rate * start)).drawAll (earlier.map (drawOf rate)))
    {calls : List Call} {before after : List (Call × Bool)} {entry : Call × Bool}
    (split : history Locked.allow b calls = before ++ entry :: after) :
    entry.2 = true ↔ AdmissionLaw rate capacity start (earlier ++ before) entry.1 := by
  -- What was drawn so far moves from the calls to `earlier`.
  induction calls generalizing b earlier before with
  | nil => simp [history] at split
  | cons call calls ih =>
    rw [history] at split
    cases before with
    | nil =>
      obtain ⟨rfl, -⟩ := List.cons.inj split
      rw [allow_iff, List.append_nil, drawnDown, sameRate, Reservoir.le_refill_iff]
      exact covered_iff_law
    | cons first before =>
      obtain ⟨rfl, later⟩ := List.cons.inj split
      have next : (Locked.allow b call).2.reservoir =
          (Reservoir.full capacity (rate * start)).drawAll
            ((earlier ++ [(call, (Locked.allow b call).1)]).map (drawOf rate)) := by
        rw [List.map_append, List.map_singleton, Reservoir.drawAll_snoc, ← drawnDown,
          reservoir_allow, sameRate]
      have rateKept := (allow_rate b call).trans sameRate
      simpa using ih rateKept next later

/-! ## The two versions agree -/

/-- The guard on the refill is never seen: with no time elapsed there is nothing to
    add to a bucket that is not over its capacity. -/
theorem edge_refill {b : TokenBucket} {now : ℚ} (ordered : b.last ≤ now)
    (within : b.tokens ≤ b.capacity) : Edge.refill b now = Locked.refill b now := by
  unfold Edge.refill Locked.refill
  dsimp only
  by_cases elapsed : now - b.last > 0
  · rw [if_pos elapsed]
  · have sameTime : b.last = now := by linarith
    rw [if_neg elapsed, ← sameTime]
    simp [within]

theorem edge_allow {b : TokenBucket} {call : Call} (ordered : b.last ≤ call.now)
    (within : b.tokens ≤ b.capacity) : Edge.allow b call = Locked.allow b call := by
  rw [Edge.allow, edge_refill ordered within, Locked.allow]

theorem allow_last (b : TokenBucket) (call : Call) : (Locked.allow b call).2.last = call.now := by
  unfold Locked.allow TokenBucket.take
  split <;> rfl

theorem allow_within {b : TokenBucket} {call : Call} (cost : 0 ≤ call.cost) :
    (Locked.allow b call).2.tokens ≤ (Locked.allow b call).2.capacity := by
  have capped : (Locked.refill b call.now).tokens ≤ (Locked.refill b call.now).capacity :=
    min_le_left _ _
  unfold Locked.allow TokenBucket.take
  split
  · dsimp only
    linarith
  · exact capped

theorem history_edge {b : TokenBucket} {calls : List Call} (within : b.tokens ≤ b.capacity)
    (costs : ∀ call ∈ calls, 0 ≤ call.cost)
    (ordered : (b.last :: calls.map Call.now).Pairwise (· ≤ ·)) :
    history Edge.allow b calls = history Locked.allow b calls := by
  induction calls generalizing b with
  | nil => rfl
  | cons call calls ih =>
    obtain ⟨fromLast, later⟩ := List.pairwise_cons.mp ordered
    have same : Edge.allow b call = Locked.allow b call :=
      edge_allow (fromLast call.now (by simp)) within
    have nextOrdered :
        ((Locked.allow b call).2.last :: calls.map Call.now).Pairwise (· ≤ ·) := by
      rw [allow_last]
      exact later
    have rest := ih (allow_within (costs call (by simp)))
      (fun next member => costs next (by simp [member])) nextOrdered
    rw [history, history, same, rest]

/-- Both buckets admit a call exactly when the law does, at any rate, capacity and
    construction time. -/
theorem admits_exactly_the_law (rate capacity start : ℚ) (calls : List Call)
    (costs : ∀ call ∈ calls, 0 ≤ call.cost)
    (ordered : (start :: calls.map Call.now).Pairwise (· ≤ ·)) :
    (∀ before entry after,
      history Edge.allow (.init rate capacity start) calls = before ++ entry :: after →
        (entry.2 = true ↔ AdmissionLaw rate capacity start before entry.1)) ∧
    (∀ before entry after,
      history Locked.allow (.init rate capacity start) calls = before ++ entry :: after →
        (entry.2 = true ↔ AdmissionLaw rate capacity start before entry.1)) ∧
    history Edge.allow (.init rate capacity start) calls =
      history Locked.allow (.init rate capacity start) calls := by
  -- Without negative costs and with the clock in order, both take the same steps.
  have agree : history Edge.allow (.init rate capacity start) calls =
      history Locked.allow (.init rate capacity start) calls :=
    history_edge (le_refl capacity) costs ordered
  have locked : ∀ before entry after,
      history Locked.allow (.init rate capacity start) calls = before ++ entry :: after →
        (entry.2 = true ↔ AdmissionLaw rate capacity start before entry.1) := by
    intro before entry after split
    have full : (TokenBucket.init rate capacity start).reservoir =
        (Reservoir.full capacity (rate * start)).drawAll
          (([] : List (Call × Bool)).map (drawOf rate)) := rfl
    exact history_law rfl full split
  exact ⟨agree ▸ locked, locked, agree⟩

/-- A burst of three against a bucket of two, and one more call when half a token is
    missing. -/
def burst : List Call := [{ now := 1 }, { now := 1 }, { now := 1 }, { now := 3 / 2 }]

theorem burst_obeys_law :
    (∀ before entry after,
      history Edge.allow (.init 1 2 1) burst = before ++ entry :: after →
        (entry.2 = true ↔ AdmissionLaw 1 2 1 before entry.1)) ∧
    (history Locked.allow (.init 1 2 1) burst).map Prod.snd = [true, true, false, false] :=
  ⟨(admits_exactly_the_law 1 2 1 burst (by decide +kernel) (by decide +kernel)).1,
    by decide +kernel⟩

end Excalibur.RateLimit
