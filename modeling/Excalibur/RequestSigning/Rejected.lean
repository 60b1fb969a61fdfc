import Excalibur.RequestSigning.Replay

/-! # Rejected requests leave no trace

What is decided before the nonce store is touched depends on the configuration
only (`checks`).  A replay is refused after the store has been collected, so a
rejected call can leave a smaller store behind; but what it has lost is expired
for every later call, which collects it anyway.
-/

namespace Excalibur.RequestSigning

open Excalibur.Library Excalibur.Python

variable {d : Digests} {U : UpperCase} {v w : SignatureVerifier} {request : Request}

/-! ## The two stages of a call -/

/-- The checks before the nonce store: the reason to refuse, or the nonce to look up. -/
def checks (d : Digests) (U : UpperCase) (secret : Bytes) (maxSkew : Int) (request : Request) :
    Except PyError (Reason ⊕ Str) := do
  let ts ← intOfHeader (← getItem request.headers (lit "timestamp"))
  let nonce ← getItem request.headers (lit "nonce")
  let provided ← getItem request.headers (lit "signature")
  if maxSkew < |request.now - ts| then
    return .inl .staleTimestamp
  let nonce ← textOfHeader nonce
  let expected := signature d U secret request.method request.path request.body ts nonce
  if !(← compareDigest expected provided) then
    return .inl .badSignature
  return .inr nonce

/-- The rest of the call, on the nonce store. -/
def finish (v : SignatureVerifier) (now : Int) : Reason ⊕ Str → (Bool × Reason) × SignatureVerifier
  | .inl reason => ((false, reason), v)
  | .inr nonce =>
    if nonce ∈ (gc v now).seen then ((false, .replayedNonce), gc v now)
    else ((true, .ok), accept (gc v now) nonce now)

theorem verify_eq_finish (v : SignatureVerifier) (request : Request) :
    verify d U v request =
      (checks d U v.secret v.maxSkew request).map (finish v request.now) := by
  unfold verify checks
  -- One case for each check that may raise, in the order in which `verify` makes them.
  cases getItem request.headers (lit "timestamp") with
  | error e => rfl
  | ok value =>
    simp only [bind, Except.bind]
    cases intOfHeader value with
    | error e => rfl
    | ok ts =>
      cases getItem request.headers (lit "nonce") with
      | error e => rfl
      | ok nonceValue =>
        cases getItem request.headers (lit "signature") with
        | error e => rfl
        | ok provided =>
          simp only [pure, Except.pure]
          by_cases stale : v.maxSkew < |request.now - ts|
          · simp only [if_pos stale]
            rfl
          · simp only [if_neg stale]
            cases textOfHeader nonceValue with
            | error e => rfl
            | ok nonce =>
              simp only
              cases compareDigest (signature d U v.secret request.method request.path
                  request.body ts nonce) provided with
              | error e => rfl
              | ok same =>
                cases same with
                | false => rfl
                | true =>
                  simp only [Bool.not_true, Bool.false_eq_true, if_false, Except.map, finish]
                  by_cases seen : nonce ∈ (gc v request.now).seen
                  · rw [if_pos seen, if_pos seen]
                  · rw [if_neg seen, if_neg seen]

/-! ## Results of a run -/

/-- What a call returns or raises. -/
def result (d : Digests) (U : UpperCase) (v : SignatureVerifier) (request : Request) :
    Except PyError (Bool × Reason) :=
  (verify d U v request).map Prod.fst

def stateAfter (d : Digests) (U : UpperCase) (v : SignatureVerifier) (request : Request) :
    SignatureVerifier :=
  match verify d U v request with
  | .ok (_, next) => next
  | .error _ => v

def results (d : Digests) (U : UpperCase) (v : SignatureVerifier) :
    List Request → List (Except PyError (Bool × Reason))
  | [] => []
  | request :: requests => result d U v request :: results d U (stateAfter d U v request) requests

theorem step_eq (v : SignatureVerifier) (request : Request) :
    step d U v request = some (stateAfter d U v request) := by
  unfold step stateAfter
  cases verify d U v request with
  | error e => rfl
  | ok outcome => rfl

/-- The verifier after a run; no call stops a run. -/
def stateAfterAll (d : Digests) (U : UpperCase) (v : SignatureVerifier) (requests : List Request) :
    SignatureVerifier :=
  requests.foldl (stateAfter d U) v

theorem run_eq (v : SignatureVerifier) (requests : List Request) :
    run (step d U) v requests = some (stateAfterAll d U v requests) := by
  induction requests generalizing v with
  | nil => rfl
  | cons request requests ih =>
    rw [run_cons, step_eq]
    exact ih _

theorem results_append (v : SignatureVerifier) (first second : List Request) :
    results d U v (first ++ second) =
      results d U v first ++ results d U (stateAfterAll d U v first) second := by
  induction first generalizing v with
  | nil => rfl
  | cons request first ih =>
    simp only [List.cons_append, results, ih, stateAfterAll, List.foldl_cons]

/-! ## Stores that agree on what has not expired -/

/-- The same configuration, and the same entries among those that expire after `t`. -/
structure AgreeFrom (t : Int) (v w : SignatureVerifier) : Prop where
  config : SameConfig v w
  remembered : ∀ nonce, (w.seen.lookup nonce).filter (fun expiry => t < expiry) =
    (v.seen.lookup nonce).filter fun expiry => t < expiry

theorem agreeFrom_refl (t : Int) (v : SignatureVerifier) : AgreeFrom t v v :=
  ⟨⟨rfl, rfl, rfl⟩, fun _ => rfl⟩

theorem filter_later {t now : Int} (later : t ≤ now) (entry : Option Int) :
    (entry.filter fun expiry => t < expiry).filter (fun expiry => now < expiry) =
      entry.filter fun expiry => now < expiry := by
  cases entry with
  | none => rfl
  | some expiry =>
    by_cases unexpired : now < expiry
    · have before : t < expiry := lt_of_le_of_lt later unexpired
      simp [Option.filter, unexpired, before]
    · by_cases before : t < expiry
      · simp [Option.filter, unexpired, before]
      · simp [Option.filter, unexpired, before]

/-- From `t` on, agreeing stores are the same after collection. -/
theorem AgreeFrom.lookup_gc {t now : Int} (agree : AgreeFrom t v w) (later : t ≤ now)
    (nonce : Str) : (gc w now).seen.lookup nonce = (gc v now).seen.lookup nonce := by
  rw [RequestSigning.lookup_gc, RequestSigning.lookup_gc,
    ← filter_later later (w.seen.lookup nonce), agree.remembered nonce, filter_later later]

theorem agreeFrom_gc {t now : Int} (v : SignatureVerifier) (atMost : now ≤ t) :
    AgreeFrom t v (gc v now) := by
  refine ⟨⟨rfl, rfl, rfl⟩, fun nonce => ?_⟩
  rw [RequestSigning.lookup_gc]
  cases v.seen.lookup nonce with
  | none => rfl
  | some expiry =>
    by_cases unexpired : t < expiry
    · have kept : now < expiry := lt_of_le_of_lt atMost unexpired
      simp [Option.filter, unexpired, kept]
    · by_cases kept : now < expiry
      · simp [Option.filter, unexpired, kept]
      · simp [Option.filter, unexpired, kept]

/-- Calls from `t` on have the same result on agreeing verifiers, which go on to agree. -/
theorem AgreeFrom.call {t : Int} (agree : AgreeFrom t v w) (later : t ≤ request.now) :
    result d U w request = result d U v request ∧
      AgreeFrom t (stateAfter d U v request) (stateAfter d U w request) := by
  have collected := agree.lookup_gc later
  have member : ∀ nonce, nonce ∈ (gc w request.now).seen ↔ nonce ∈ (gc v request.now).seen := by
    intro nonce
    rw [← AList.lookup_isSome, ← AList.lookup_isSome, collected nonce]
  have sameChecks : checks d U w.secret w.maxSkew request =
      checks d U v.secret v.maxSkew request := by
    rw [agree.config.secret, agree.config.maxSkew]
  have collectedAgree : AgreeFrom t (gc v request.now) (gc w request.now) :=
    ⟨⟨agree.config.secret, agree.config.maxSkew, agree.config.nonceTtl⟩,
      fun nonce => by rw [collected nonce]⟩
  unfold result stateAfter
  rw [verify_eq_finish, verify_eq_finish, sameChecks]
  -- Only a request that passes every check touches the nonces.
  cases checks d U v.secret v.maxSkew request with
  | error e => exact ⟨rfl, agree⟩
  | ok verdict =>
    cases verdict with
    | inl reason => exact ⟨rfl, agree⟩
    | inr nonce =>
      by_cases seen : nonce ∈ (gc v request.now).seen
      · have seenToo := (member nonce).mpr seen
        simp only [Except.map, finish, if_pos seen, if_pos seenToo, true_and]
        exact collectedAgree
      · have unseenToo := fun seenToo => seen ((member nonce).mp seenToo)
        simp only [Except.map, finish, if_neg seen, if_neg unseenToo, true_and]
        refine ⟨⟨agree.config.secret, agree.config.maxSkew, agree.config.nonceTtl⟩, fun other => ?_⟩
        rcases eq_or_ne other nonce with rfl | different
        · simp [accept, gc, agree.config.nonceTtl]
        · simp only [accept, AList.lookup_insert_ne different]
          exact collectedAgree.remembered other

theorem AgreeFrom.results_eq {t : Int} (agree : AgreeFrom t v w) {requests : List Request}
    (later : ∀ request ∈ requests, t ≤ request.now) :
    results d U w requests = results d U v requests := by
  induction requests generalizing v w with
  | nil => rfl
  | cons request requests ih =>
    obtain ⟨same, after⟩ := agree.call (d := d) (U := U) (later request (by simp))
    simp only [results, same]
    rw [ih after fun other member => later other (List.mem_cons_of_mem _ member)]

/-- A call that is not accepted changes at most what has expired by its time. -/
theorem agreeFrom_of_not_accepts (rejected : ¬ Accepts d U v request) :
    AgreeFrom request.now v (stateAfter d U v request) := by
  have cases := step_cases (step_eq (d := d) (U := U) v request)
  obtain same | collected | ⟨ts, nonce, authentic, unseen, -⟩ := cases
  · rw [same]
    exact agreeFrom_refl _ v
  · rw [collected]
    exact agreeFrom_gc v (le_refl _)
  · exact absurd (accepts_iff.mpr ⟨ts, nonce, authentic, unseen⟩) rejected

/-! ## Deleting and inserting rejected calls -/

/-- A run with a call that is refused or raises, against the run without it: the
    other calls have the same results.  The clock does not go back in either. -/
theorem rejected_call_leaves_no_trace (d : Digests) (U : UpperCase) (start : SignatureVerifier)
    (before after : List Request) (call : Request)
    (ordered : NonDecreasing (before ++ call :: after))
    (rejected : ∀ v, run (step d U) start before = some v → ¬ Accepts d U v call) :
    ∃ earlier later refused, earlier.length = before.length ∧ later.length = after.length ∧
      results d U start (before ++ call :: after) = earlier ++ refused :: later ∧
      results d U start (before ++ after) = earlier ++ later := by
  have behind : ∀ request ∈ after, call.now ≤ request.now := by
    have tail := (List.pairwise_append.mp ordered).2.1
    exact (List.pairwise_cons.mp tail).1
  have agree := agreeFrom_of_not_accepts (rejected _ (run_eq start before))
  have lengths : ∀ (v : SignatureVerifier) (requests : List Request),
      (results d U v requests).length = requests.length := by
    intro v requests
    induction requests generalizing v with
    | nil => rfl
    | cons request requests ih => simp [results, ih]
  refine ⟨results d U start before, results d U (stateAfterAll d U start before) after,
    result d U (stateAfterAll d U start before) call, lengths _ _, lengths _ _, ?_, ?_⟩
  · rw [results_append, results, agree.results_eq behind]
  · rw [results_append]

/-- A request without headers, at time 1. -/
def bareRequest : Request := ⟨lit "GET", lit "/", [], ∅, 1⟩

/-- It raises between two calls that are not touched by it. -/
theorem bareRequest_leaves_no_trace : ∃ earlier later refused,
    earlier.length = 1 ∧ later.length = 1 ∧
      results ⟨id, fun _ _ => []⟩ .ascii (freshVerifier [1] 30 300)
        [edgeRequest ⟨id, fun _ _ => []⟩ .ascii [1] 0 0, bareRequest,
          edgeRequest ⟨id, fun _ _ => []⟩ .ascii [1] 0 2] = earlier ++ refused :: later ∧
      results ⟨id, fun _ _ => []⟩ .ascii (freshVerifier [1] 30 300)
        [edgeRequest ⟨id, fun _ _ => []⟩ .ascii [1] 0 0,
          edgeRequest ⟨id, fun _ _ => []⟩ .ascii [1] 0 2] = earlier ++ later := by
  refine rejected_call_leaves_no_trace ⟨id, fun _ _ => []⟩ .ascii (freshVerifier [1] 30 300)
    [edgeRequest ⟨id, fun _ _ => []⟩ .ascii [1] 0 0]
    [edgeRequest ⟨id, fun _ _ => []⟩ .ascii [1] 0 2] bareRequest ?_ ?_
  · simp [NonDecreasing, edgeRequest, bareRequest]
  · intro v _ accepted
    obtain ⟨ts, nonce, authentic, -⟩ := accepts_iff.mp accepted
    have carried := authentic.carries.nonce
    simp [bareRequest, getItem] at carried

end Excalibur.RequestSigning
