import Excalibur.RateLimit.TokenBucket

/-! # The edge bucket under a clock that steps backwards

The `elapsed > 0` guard makes `last` the running maximum of the readings, in whatever
order they come, so going back and forth over an interval fills the bucket for it only
once.  `spent_run` is the account of a run: what was admitted and what is left never
exceed what was there and what that maximum has brought in.
-/

namespace Excalibur.RateLimit

namespace Edge

/-- The bucket after a run. -/
def final (b : TokenBucket) (calls : List Call) : TokenBucket :=
  calls.foldl (fun b call => (allow b call).2) b

/-- The running maximum of the readings, from the one at construction. -/
def peak (start : ℚ) (calls : List Call) : ℚ := (calls.map Call.now).foldl max start

/-- Between empty and full. -/
structure Filled (b : TokenBucket) : Prop where
  nonneg : 0 ≤ b.tokens
  capped : b.tokens ≤ b.capacity

@[simp] theorem final_cons (b : TokenBucket) (call : Call) (calls : List Call) :
    final b (call :: calls) = final (allow b call).2 calls := rfl

@[simp] theorem peak_nil (start : ℚ) : peak start [] = start := rfl

@[simp] theorem peak_cons (start : ℚ) (call : Call) (calls : List Call) :
    peak start (call :: calls) = peak (max start call.now) calls := rfl

theorem peak_append (start : ℚ) (calls more : List Call) :
    peak start (calls ++ more) = peak (peak start calls) more := by
  rw [peak, List.map_append, List.foldl_append]
  rfl

theorem history_append (b : TokenBucket) (calls more : List Call) :
    history allow b (calls ++ more) = history allow b calls ++ history allow (final b calls) more := by
  induction calls generalizing b with
  | nil => rfl
  | cons call calls ih => rw [List.cons_append, history, history, ih, final_cons, List.cons_append]

theorem map_fst_history (b : TokenBucket) (calls : List Call) :
    (history allow b calls).map Prod.fst = calls := by
  induction calls generalizing b with
  | nil => rfl
  | cons call calls ih => rw [history, List.map_cons, ih]

/-! ## One call -/

section Call

variable {b : TokenBucket} {call : Call} {now : ℚ}

theorem refill_last (b : TokenBucket) (now : ℚ) : (refill b now).last = max b.last now := by
  unfold refill
  dsimp only
  split
  · rename_i elapsed
    exact (max_eq_right (by linarith)).symm
  · rename_i stepBack
    exact (max_eq_left (by linarith)).symm

@[simp] theorem refill_rate (b : TokenBucket) (now : ℚ) : (refill b now).rate = b.rate := by
  unfold refill
  dsimp only
  split <;> rfl

@[simp] theorem refill_capacity (b : TokenBucket) (now : ℚ) :
    (refill b now).capacity = b.capacity := by
  unfold refill
  dsimp only
  split <;> rfl

theorem refill_tokens_le (b : TokenBucket) (now : ℚ) :
    (refill b now).tokens ≤ b.tokens + b.rate * ((refill b now).last - b.last) := by
  unfold refill
  dsimp only
  split
  · calc min b.capacity (b.tokens + (now - b.last) * b.rate)
        ≤ b.tokens + (now - b.last) * b.rate := min_le_right _ _
      _ = b.tokens + b.rate * (now - b.last) := by ring
  · simp

theorem filled_refill (rate : 0 ≤ b.rate) (filled : Filled b) : Filled (refill b now) := by
  unfold refill
  dsimp only
  split
  · rename_i elapsed
    have supply : 0 ≤ (now - b.last) * b.rate := mul_nonneg elapsed.le rate
    have cap := filled.nonneg.trans filled.capped
    refine ⟨le_min cap ?_, min_le_left _ _⟩
    have before := filled.nonneg
    linarith
  · exact filled

@[simp] theorem take_last (b : TokenBucket) (cost : ℚ) : (b.take cost).2.last = b.last := by
  unfold TokenBucket.take
  split <;> rfl

@[simp] theorem take_rate (b : TokenBucket) (cost : ℚ) : (b.take cost).2.rate = b.rate := by
  unfold TokenBucket.take
  split <;> rfl

@[simp] theorem take_capacity (b : TokenBucket) (cost : ℚ) :
    (b.take cost).2.capacity = b.capacity := by
  unfold TokenBucket.take
  split <;> rfl

/-- Every token is either left or was given for the call. -/
theorem take_tokens (b : TokenBucket) (call : Call) :
    admittedCost (call, (b.take call.cost).1) + (b.take call.cost).2.tokens = b.tokens := by
  unfold TokenBucket.take admittedCost
  by_cases enough : b.tokens ≥ call.cost
  · simp [enough]
  · simp [enough]

theorem admittedCost_nonneg {entry : Call × Bool} (cost : 0 ≤ entry.1.cost) :
    0 ≤ admittedCost entry := by
  unfold admittedCost
  split
  · exact cost
  · exact le_refl 0

theorem filled_take (filled : Filled b) (cost : 0 ≤ call.cost) :
    Filled (b.take call.cost).2 := by
  have account := take_tokens b call
  have given : 0 ≤ admittedCost (call, (b.take call.cost).1) := admittedCost_nonneg cost
  refine ⟨?_, ?_⟩
  · unfold TokenBucket.take
    split
    · rename_i enough
      exact sub_nonneg.mpr enough
    · exact filled.nonneg
  · rw [take_capacity]
    linarith [filled.capped]

theorem allow_last (b : TokenBucket) (call : Call) :
    (allow b call).2.last = max b.last call.now := by
  rw [allow, take_last, refill_last]

theorem allow_rate (b : TokenBucket) (call : Call) : (allow b call).2.rate = b.rate := by
  rw [allow, take_rate, refill_rate]

theorem allow_capacity (b : TokenBucket) (call : Call) :
    (allow b call).2.capacity = b.capacity := by
  rw [allow, take_capacity, refill_capacity]

theorem filled_allow (rate : 0 ≤ b.rate) (filled : Filled b) (cost : 0 ≤ call.cost) :
    Filled (allow b call).2 :=
  filled_take (filled_refill rate filled) cost

theorem spent_allow (b : TokenBucket) (call : Call) :
    admittedCost (call, (allow b call).1) + (allow b call).2.tokens ≤
      b.tokens + b.rate * ((allow b call).2.last - b.last) := by
  have supplied := refill_tokens_le b call.now
  rw [allow, take_tokens, take_last]
  exact supplied

/-- What the first call of a stretch finds is at most a full bucket. -/
theorem spent_allow_full (rate : 0 ≤ b.rate) (filled : Filled b) :
    admittedCost (call, (allow b call).1) + (allow b call).2.tokens ≤ b.capacity := by
  have capped : (refill b call.now).tokens ≤ (refill b call.now).capacity :=
    (filled_refill rate filled).capped
  rw [allow, take_tokens]
  rwa [refill_capacity] at capped

end Call

/-! ## A run -/

section Run

variable {b : TokenBucket} {calls : List Call}

theorem final_last (b : TokenBucket) (calls : List Call) :
    (final b calls).last = peak b.last calls := by
  induction calls generalizing b with
  | nil => rfl
  | cons call calls ih => rw [final_cons, ih, allow_last, peak_cons]

theorem final_rate (b : TokenBucket) (calls : List Call) : (final b calls).rate = b.rate := by
  induction calls generalizing b with
  | nil => rfl
  | cons call calls ih => rw [final_cons, ih, allow_rate]

theorem final_capacity (b : TokenBucket) (calls : List Call) :
    (final b calls).capacity = b.capacity := by
  induction calls generalizing b with
  | nil => rfl
  | cons call calls ih => rw [final_cons, ih, allow_capacity]

theorem filled_final (rate : 0 ≤ b.rate) (filled : Filled b)
    (costs : ∀ call ∈ calls, 0 ≤ call.cost) : Filled (final b calls) := by
  induction calls generalizing b with
  | nil => exact filled
  | cons call calls ih =>
    have step := filled_allow rate filled (costs call (by simp))
    have sameRate : 0 ≤ (allow b call).2.rate := by rwa [allow_rate]
    exact ih sameRate step fun next member => costs next (List.mem_cons_of_mem call member)

theorem spent_run (b : TokenBucket) (calls : List Call) :
    ((history allow b calls).map admittedCost).sum + (final b calls).tokens ≤
      b.tokens + b.rate * ((final b calls).last - b.last) := by
  induction calls generalizing b with
  | nil => simp [history, final]
  | cons call calls ih =>
    have step := spent_allow b call
    have rest := ih (allow b call).2
    rw [allow_rate] at rest
    rw [history, List.map_cons, List.sum_cons, final_cons]
    linarith

/-- The stretch from `first` on, the clock counted from its reading or from the highest
    one before, whichever is later. -/
theorem spent_stretch {first : Call} {rest : List Call} (rate : 0 ≤ b.rate) (filled : Filled b)
    (costs : ∀ call ∈ first :: rest, 0 ≤ call.cost) :
    ((history allow b (first :: rest)).map admittedCost).sum ≤
      b.capacity + b.rate * (peak b.last (first :: rest) - peak b.last [first]) := by
  have opening : admittedCost (first, (allow b first).1) + (allow b first).2.tokens ≤ b.capacity :=
    spent_allow_full rate filled
  have account := spent_run (allow b first).2 rest
  have left : 0 ≤ (final b (first :: rest)).tokens := (filled_final rate filled costs).nonneg
  rw [allow_rate, final_last, allow_last] at account
  rw [history, List.map_cons, List.sum_cons, peak_cons, peak_cons, peak_nil]
  rw [final_cons] at left
  linarith

end Run

/-- With readings in any order the bucket stays between empty and full, `last` is the
    highest reading so far, and every stretch of calls is admitted at most one full
    bucket and the rate times what that maximum gains from its first call to its last. -/
theorem backward_clock_mints_nothing (rate capacity start : ℚ) (calls : List Call)
    (rateNonneg : 0 ≤ rate) (capacityNonneg : 0 ≤ capacity)
    (costs : ∀ call ∈ calls, 0 ≤ call.cost) :
    Filled (final (.init rate capacity start) calls) ∧
    (final (.init rate capacity start) calls).last = peak start calls ∧
    ∀ before first rest after,
      history allow (.init rate capacity start) calls = before ++ first :: rest ++ after →
        ((first :: rest).map admittedCost).sum ≤
          capacity + rate * (peak start ((before ++ first :: rest).map Prod.fst) -
            peak start ((before ++ [first]).map Prod.fst)) := by
  have full : Filled (.init rate capacity start) := ⟨capacityNonneg, le_refl capacity⟩
  refine ⟨filled_final rateNonneg full costs, final_last _ _, ?_⟩
  intro before first rest after split
  -- the calls of the three parts, and the bucket the stretch starts from
  have parts : calls = before.map Prod.fst ++ (first :: rest).map Prod.fst ++ after.map Prod.fst := by
    rw [← map_fst_history (.init rate capacity start) calls, split]
    simp
  have earlier : ∀ call ∈ before.map Prod.fst, 0 ≤ call.cost :=
    fun call member => costs call (by simp [parts, member])
  have inside : ∀ call ∈ (first :: rest).map Prod.fst, 0 ≤ call.cost :=
    fun call member => costs call (by rw [parts]; simp only [List.mem_append]; tauto)
  have stretch : history allow (final (.init rate capacity start) (before.map Prod.fst))
      ((first :: rest).map Prod.fst) = first :: rest := by
    rw [parts, history_append, history_append] at split
    have lengths : (history allow (.init rate capacity start) (before.map Prod.fst)).length =
        before.length := by
      rw [← List.length_map (f := Prod.fst), map_fst_history, List.length_map]
    rw [List.append_assoc, List.append_assoc] at split
    obtain ⟨-, tail⟩ := List.append_inj split lengths
    refine (List.append_inj tail ?_).1
    rw [← List.length_map (f := Prod.fst), map_fst_history, List.length_map]
  have refills : 0 ≤ (final (.init rate capacity start) (before.map Prod.fst)).rate := by
    rw [final_rate]
    exact rateNonneg
  have spent := spent_stretch refills (filled_final rateNonneg full earlier) inside
  rw [final_rate, final_capacity, final_last] at spent
  rw [← List.map_cons, stretch] at spent
  rw [List.map_append, List.map_append, peak_append, peak_append]
  exact spent

/-- The clock goes back from 1 to 0 and on to 1 again without filling the bucket twice. -/
theorem back_and_forth_mints_once :
    (history allow (.init 1 1 0)
      [{ now := 0 }, { now := 1 }, { now := 0 }, { now := 1 }, { now := 2 }]).map Prod.snd =
        [true, true, false, false, true] ∧
    (final (.init 1 1 0) [{ now := 0 }, { now := 1 }, { now := 0 }, { now := 1 }]).last = 1 := by
  refine ⟨by decide +kernel, ?_⟩
  have highest := (backward_clock_mints_nothing 1 1 0
    [{ now := 0 }, { now := 1 }, { now := 0 }, { now := 1 }] (by norm_num) (by norm_num)
    (by decide +kernel)).2.1
  rw [highest]
  decide +kernel

end Edge

end Excalibur.RateLimit
