import Excalibur.RequestSigning.Verifier

/-! # Replay protection and its threshold

A request is fresh while the clock is within `max_skew` of its timestamp, so two
accepted calls with one timestamp are at most `2 * max_skew` apart.  An accepted
nonce is remembered until its expiry, `nonce_ttl` after the call that accepted
it, and expiry is inclusive: at the expiry time itself it is collected.  Hence
replays are excluded exactly when `nonce_ttl` is greater than `2 * max_skew`.
-/

namespace Excalibur.RequestSigning

open Excalibur.Library Excalibur.Python

variable {d : Digests} {U : UpperCase} {v w : SignatureVerifier}

def NonDecreasing (requests : List Request) : Prop :=
  requests.Pairwise fun first second => first.now ≤ second.now

/-- Two calls of the run carry the same timestamp and nonce and both return
    `(True, 'ok')`. -/
def Replayed (d : Digests) (U : UpperCase) (start : SignatureVerifier) (requests : List Request) :
    Prop :=
  ∃ before first between second after v w ts nonce,
    requests = before ++ first :: (between ++ second :: after) ∧
    run (step d U) start before = some v ∧
    run (step d U) start (before ++ first :: between) = some w ∧
    Carries first.headers ts nonce ∧ Carries second.headers ts nonce ∧
    Accepts d U v first ∧ Accepts d U w second

/-! ## What a run keeps -/

structure SameConfig (v w : SignatureVerifier) : Prop where
  secret : w.secret = v.secret
  maxSkew : w.maxSkew = v.maxSkew
  nonceTtl : w.nonceTtl = v.nonceTtl

theorem step_config {request : Request} (stepped : step d U v request = some w) :
    SameConfig v w := by
  rcases step_cases stepped with rfl | rfl | ⟨ts, nonce, -, -, rfl⟩
  · exact ⟨rfl, rfl, rfl⟩
  · exact ⟨rfl, rfl, rfl⟩
  · exact ⟨rfl, rfl, rfl⟩

theorem run_config {requests : List Request} (reached : run (step d U) v requests = some w) :
    SameConfig v w := by
  refine run_invariant ⟨rfl, rfl, rfl⟩ ?_ requests w (visited_finish reached)
  intro state request next stepped same
  have step := step_config stepped
  exact ⟨step.secret.trans same.secret, step.maxSkew.trans same.maxSkew,
    step.nonceTtl.trans same.nonceTtl⟩

/-- A call before the expiry time of a remembered nonce neither collects the nonce
    nor moves its expiry: only nonces that are not in the store are entered. -/
theorem step_remembers {request : Request} {nonce : Str} {expiry : Int}
    (early : request.now < expiry) (found : v.seen.lookup nonce = some expiry)
    (stepped : step d U v request = some w) : w.seen.lookup nonce = some expiry := by
  have kept : (gc v request.now).seen.lookup nonce = some expiry := by
    rw [lookup_gc, found]
    simp [Option.filter, early]
  rcases step_cases stepped with rfl | rfl | ⟨ts, entered, -, unseen, rfl⟩
  · exact found
  · exact kept
  · have other : nonce ≠ entered := by
      intro same
      subst same
      exact unseen (AList.lookup_isSome.mp (by simp [kept]))
    simpa [accept, AList.lookup_insert_ne other] using kept

theorem run_remembers {requests : List Request} {nonce : Str} {expiry : Int}
    (early : ∀ request ∈ requests, request.now < expiry)
    (found : v.seen.lookup nonce = some expiry)
    (reached : run (step d U) v requests = some w) : w.seen.lookup nonce = some expiry := by
  refine visited_induction (motive := fun state => state.seen.lookup nonce = some expiry)
    found ?_ w (visited_finish reached)
  rintro state request next ⟨before, after, -, rfl, -⟩ stepped remembered
  exact step_remembers (early request (by simp)) remembered stepped

/-! ## Above the threshold -/

theorem not_replayed_of_lt {start : SignatureVerifier} (above : 2 * start.maxSkew < start.nonceTtl)
    {requests : List Request} (ordered : NonDecreasing requests) :
    ¬ Replayed d U start requests := by
  rintro ⟨before, first, between, second, after, v, w, ts, nonce, rfl, reachedFirst, reachedSecond,
    carriesFirst, carriesSecond, acceptsFirst, acceptsSecond⟩
  obtain ⟨ts₁, nonce₁, authentic₁, unseen₁⟩ := accepts_iff.mp acceptsFirst
  obtain ⟨ts₂, nonce₂, authentic₂, unseen₂⟩ := accepts_iff.mp acceptsSecond
  obtain ⟨rfl, rfl⟩ := carriesFirst.unique authentic₁.carries
  obtain ⟨rfl, rfl⟩ := carriesSecond.unique authentic₂.carries
  have config₁ := run_config reachedFirst
  have config₂ := run_config reachedSecond
  -- The first call enters the nonce, and the run goes on from there to the second.
  have entered : step d U v first = some (accept (gc v first.now) nonce first.now) := by
    simp only [step, verify_of_authentic authentic₁, if_neg unseen₁]
  have continued : run (step d U) (accept (gc v first.now) nonce first.now) between = some w := by
    rw [run_append, reachedFirst] at reachedSecond
    simpa [run_cons, entered] using reachedSecond
  -- Both calls are within the skew of the timestamp, so the second is before the expiry.
  have fresh₁ := abs_le.mp authentic₁.fresh
  have fresh₂ := abs_le.mp authentic₂.fresh
  rw [config₁.maxSkew] at fresh₁
  rw [config₂.maxSkew] at fresh₂
  have beforeExpiry : second.now < first.now + v.nonceTtl := by
    rw [config₁.nonceTtl]
    linarith only [fresh₁.1, fresh₂.2, above]
  have early : ∀ request ∈ between, request.now < first.now + v.nonceTtl := by
    intro request member
    have tail := (List.pairwise_cons.mp (List.pairwise_append.mp ordered).2.1).2
    have notAfter := (List.pairwise_append.mp tail).2.2 request member second (by simp)
    exact lt_of_le_of_lt notAfter beforeExpiry
  have found : (accept (gc v first.now) nonce first.now).seen.lookup nonce =
      some (first.now + v.nonceTtl) := by
    simp [accept, gc]
  have remembered := run_remembers early found continued
  apply unseen₂
  apply AList.lookup_isSome.mp
  rw [lookup_gc, remembered]
  simp [Option.filter, beforeExpiry]

/-! ## At the threshold and below -/

/-- A signed request without a body, sent again when the skew window closes. -/
def edgeRequest (d : Digests) (U : UpperCase) (secret : Bytes) (ts now : Int) : Request where
  method := lit "GET"
  path := lit "/"
  body := []
  headers := sign d U secret (lit "GET") (lit "/") [] ts (lit "n")
  now := now

theorem edgeRequest_authentic {ts now : Int} (fresh : |now - ts| ≤ v.maxSkew) :
    Authentic d U v (edgeRequest d U v.secret ts now) ts (lit "n") :=
  ⟨carries_sign _ _ _ _ _ _, fresh, getItem_signature_sign _ _ _ _ _ _⟩

theorem replayed_of_le (secret : Bytes) {maxSkew nonceTtl : Int} (nonneg : 0 ≤ maxSkew)
    (atMost : nonceTtl ≤ 2 * maxSkew) :
    Replayed d U (freshVerifier secret maxSkew nonceTtl)
      [edgeRequest d U secret maxSkew 0, edgeRequest d U secret maxSkew (2 * maxSkew)] := by
  -- The timestamp is `max_skew` ahead at the first call and `max_skew` behind at the second.
  have first : Authentic d U (freshVerifier secret maxSkew nonceTtl)
      (edgeRequest d U secret maxSkew 0) maxSkew (lit "n") := by
    apply edgeRequest_authentic (v := freshVerifier secret maxSkew nonceTtl)
    simp [freshVerifier, abs_of_nonneg nonneg]
  have unseenFirst : lit "n" ∉ (gc (freshVerifier secret maxSkew nonceTtl)
      (edgeRequest d U secret maxSkew 0).now).seen := by
    rw [← AList.lookup_eq_none, lookup_gc]
    simp [freshVerifier]
  have entered : step d U (freshVerifier secret maxSkew nonceTtl)
      (edgeRequest d U secret maxSkew 0) =
      some (accept (gc (freshVerifier secret maxSkew nonceTtl) 0) (lit "n") 0) := by
    simp only [step, verify_of_authentic first, if_neg unseenFirst]
    rfl
  refine ⟨[], _, [], _, [], freshVerifier secret maxSkew nonceTtl,
    accept (gc (freshVerifier secret maxSkew nonceTtl) 0) (lit "n") 0, maxSkew, lit "n", rfl, rfl,
    by simp [run_cons, entered], first.carries, carries_sign _ _ _ _ _ _,
    accepts_iff.mpr ⟨_, _, first, unseenFirst⟩, ?_⟩
  -- At `2 * max_skew` the entry has expired and is collected before the lookup.
  refine accepts_iff.mpr ⟨maxSkew, lit "n", ?_, ?_⟩
  · refine edgeRequest_authentic
      (v := accept (gc (freshVerifier secret maxSkew nonceTtl) 0) (lit "n") 0) ?_
    have distance : 2 * maxSkew - maxSkew = maxSkew := by ring
    simp [accept, gc, freshVerifier, distance, abs_of_nonneg nonneg]
  · rw [← AList.lookup_eq_none, lookup_gc]
    simp [accept, gc, freshVerifier, edgeRequest, Option.filter, not_lt.mpr atMost]

/-- On a fresh verifier with a non-negative skew, no run with a clock that never
    goes back accepts one timestamp and nonce twice when `nonce_ttl` is greater
    than `2 * max_skew`, and some such run does when it is not. -/
theorem replay_excluded_above_twice_skew (d : Digests) (U : UpperCase) (secret : Bytes)
    (maxSkew nonceTtl : Int) (nonneg : 0 ≤ maxSkew) :
    (2 * maxSkew < nonceTtl → ∀ requests, NonDecreasing requests →
      ¬ Replayed d U (freshVerifier secret maxSkew nonceTtl) requests) ∧
    (nonceTtl ≤ 2 * maxSkew → ∃ requests, NonDecreasing requests ∧
      Replayed d U (freshVerifier secret maxSkew nonceTtl) requests) := by
  constructor
  · intro above requests ordered
    exact not_replayed_of_lt above ordered
  · intro atMost
    refine ⟨_, ?_, replayed_of_le secret nonneg atMost⟩
    simp [NonDecreasing, edgeRequest, nonneg]

/-- The default configuration, 30 seconds of skew and nonces kept for 300, excludes
    replays; keeping nonces for 60 would not. -/
theorem replay_excluded_at_defaults :
    (∀ requests, NonDecreasing requests →
      ¬ Replayed ⟨id, fun _ _ => []⟩ .ascii (freshVerifier [1] 30 300) requests) ∧
    ∃ requests, NonDecreasing requests ∧
      Replayed ⟨id, fun _ _ => []⟩ .ascii (freshVerifier [1] 30 60) requests :=
  ⟨(replay_excluded_above_twice_skew _ _ [1] 30 300 (by decide)).1 (by decide),
    (replay_excluded_above_twice_skew _ _ [1] 30 60 (by decide)).2 (by decide)⟩

end Excalibur.RequestSigning
