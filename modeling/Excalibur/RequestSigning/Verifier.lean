import Excalibur.Library.Run
import Excalibur.Python.IntParse

/-! # Signed requests and their verifier

The client signs a canonical text of the request; the server recomputes the
signature, checks that the timestamp is fresh and remembers accepted nonces until
they expire.  SHA-256 and HMAC are arbitrary functions here.

`verify` is specified by two lemmas.  A request is `Authentic` when its headers
read as a fresh timestamp, a nonce and the right signature; the verifier answers
an authentic request from its nonce store, and any other request, accepted by
nothing and refused or raising, leaves it as it was.
-/

namespace Excalibur.RequestSigning

open Excalibur.Library Excalibur.Python

structure Digests where
  sha256 : Bytes → Bytes
  hmac : Bytes → ByteArray → Bytes

/-- The value of a header: the signer stores an integer and two texts. -/
inductive HeaderValue where
  | int (n : Int)
  | str (text : Str)
deriving DecidableEq

abbrev Headers := Dict Str HeaderValue

/-- The arguments of a `verify` call, with `now` as its integer value. -/
structure Request where
  method : Str
  path : Str
  body : Bytes
  headers : Headers
  now : Int

inductive Reason where
  | ok
  | staleTimestamp
  | badSignature
  | replayedNonce
deriving DecidableEq, Repr

def Reason.text : Reason → Str
  | .ok => lit "ok"
  | .staleTimestamp => lit "stale-timestamp"
  | .badSignature => lit "bad-signature"
  | .replayedNonce => lit "replayed-nonce"

/-- `secret`, `max_skew`, `nonce_ttl` and `_seen`, from nonces to expiry times. -/
structure SignatureVerifier where
  secret : Bytes
  maxSkew : Int
  nonceTtl : Int
  seen : Dict Str Int

def freshVerifier (secret : Bytes) (maxSkew nonceTtl : Int) : SignatureVerifier where
  secret := secret
  maxSkew := maxSkew
  nonceTtl := nonceTtl
  seen := ∅

section Operations

variable (d : Digests) (U : UpperCase)

/-! ## Signing -/

def canonicalText (method path : Str) (body : Bytes) (timestamp : Int) (nonce : Str) : Str :=
  List.intercalate ['\n']
    [U.upper method, path, strOfInt timestamp, nonce, hexOfBytes (d.sha256 body)]

def canonical (method path : Str) (body : Bytes) (timestamp : Int) (nonce : Str) : ByteArray :=
  encodeUtf8 (canonicalText d U method path body timestamp nonce)

def signature (secret : Bytes) (method path : Str) (body : Bytes) (timestamp : Int)
    (nonce : Str) : Str :=
  hexOfBytes (d.hmac secret (canonical d U method path body timestamp nonce))

/-- `RequestSigner.sign`, for the nonce that it was given or has drawn. -/
def sign (secret : Bytes) (method path : Str) (body : Bytes) (timestamp : Int) (nonce : Str) :
    Headers :=
  ((AList.singleton (lit "timestamp") (.int timestamp)).insert (lit "nonce") (.str nonce)).insert
    (lit "signature") (.str (signature d U secret method path body timestamp nonce))

/-! ## Verifying -/

def intOfHeader : HeaderValue → Except PyError Int
  | .int n => .ok n
  | .str text => intOfStr text

def textOfHeader : HeaderValue → Except PyError Str
  | .int _ => .error .typeError
  | .str text => .ok text

/-- `hmac.compare_digest`, which refuses anything but ASCII texts. -/
def compareDigest (expected : Str) : HeaderValue → Except PyError Bool
  | .int _ => .error .typeError
  | .str provided =>
    if provided.all fun c => c.toNat < 128 then .ok (expected == provided)
    else .error .typeError

def expired (seen : Dict Str Int) (now : Int) : List Str :=
  (seen.entries.filter fun item => item.2 ≤ now).map fun item => item.1

def gc (v : SignatureVerifier) (now : Int) : SignatureVerifier :=
  { v with seen := delItems v.seen (expired v.seen now) }

def accept (v : SignatureVerifier) (nonce : Str) (now : Int) : SignatureVerifier :=
  { v with seen := v.seen.insert nonce (now + v.nonceTtl) }

/-- `SignatureVerifier.verify`: the verdict and the verifier afterwards.  What
    raises does so before the verifier is changed. -/
def verify (v : SignatureVerifier) (request : Request) :
    Except PyError ((Bool × Reason) × SignatureVerifier) := do
  let ts ← intOfHeader (← getItem request.headers (lit "timestamp"))
  let nonce ← getItem request.headers (lit "nonce")
  let provided ← getItem request.headers (lit "signature")
  if v.maxSkew < |request.now - ts| then
    return ((false, .staleTimestamp), v)
  -- The signature is checked before the nonce store is touched.
  let nonce ← textOfHeader nonce
  let expected := signature d U v.secret request.method request.path request.body ts nonce
  if !(← compareDigest expected provided) then
    return ((false, .badSignature), v)
  let v := gc v request.now
  if nonce ∈ v.seen then
    return ((false, .replayedNonce), v)
  return ((true, .ok), accept v nonce request.now)

/-- One call of `verify` in a run; the caller of a call that raised goes on with
    the verifier as it is. -/
def step (v : SignatureVerifier) (request : Request) : Option SignatureVerifier :=
  match verify d U v request with
  | .ok (_, next) => some next
  | .error _ => some v

def Accepts (v : SignatureVerifier) (request : Request) : Prop :=
  ∃ next, verify d U v request = .ok ((true, .ok), next)

/-- The headers carry this timestamp and this nonce. -/
structure Carries (headers : Headers) (ts : Int) (nonce : Str) : Prop where
  timestamp : (getItem headers (lit "timestamp")).bind intOfHeader = .ok ts
  nonce : getItem headers (lit "nonce") = .ok (.str nonce)

/-- The request is fresh and carries the right signature. -/
structure Authentic (v : SignatureVerifier) (request : Request) (ts : Int) (nonce : Str) : Prop where
  carries : Carries request.headers ts nonce
  fresh : |request.now - ts| ≤ v.maxSkew
  signed : getItem request.headers (lit "signature") =
    .ok (.str (signature d U v.secret request.method request.path request.body ts nonce))

end Operations

/-! ## Garbage collection -/

theorem mem_expired {seen : Dict Str Int} {now : Int} {nonce : Str} :
    nonce ∈ expired seen now ↔ ∃ expiry, seen.lookup nonce = some expiry ∧ expiry ≤ now := by
  simp only [expired, List.mem_map, List.mem_filter, decide_eq_true_eq]
  constructor
  · rintro ⟨⟨key, expiry⟩, ⟨member, old⟩, rfl⟩
    exact ⟨expiry, (mem_entries_iff seen key expiry).mp member, old⟩
  · rintro ⟨expiry, found, old⟩
    exact ⟨⟨nonce, expiry⟩, ⟨(mem_entries_iff seen nonce expiry).mpr found, old⟩, rfl⟩

theorem lookup_gc (v : SignatureVerifier) (now : Int) (nonce : Str) :
    (gc v now).seen.lookup nonce = (v.seen.lookup nonce).filter fun expiry => now < expiry := by
  simp only [gc, lookup_delItems, mem_expired]
  cases found : v.seen.lookup nonce with
  | none => simp
  | some expiry =>
    by_cases old : expiry ≤ now
    · simp [old, Option.filter, not_lt.mpr old]
    · simp [old, Option.filter, not_le.mp old]

/-! ## The verdicts -/

section Verdicts

variable {d : Digests} {U : UpperCase} {v : SignatureVerifier} {request : Request}

theorem compareDigest_hexOfBytes (digest : Bytes) :
    compareDigest (hexOfBytes digest) (.str (hexOfBytes digest)) = .ok true := by
  have ascii : (hexOfBytes digest).all (fun c => c.toNat < 128) = true := by
    simp only [List.all_eq_true, decide_eq_true_eq]
    exact fun c member => (isAscii_of_mem_hexOfBytes member).2
  simp [compareDigest, ascii]

theorem compareDigest_eq_true {expected : Str} {provided : HeaderValue}
    (same : compareDigest expected provided = .ok true) : provided = .str expected := by
  cases provided with
  | int n => simp [compareDigest] at same
  | str text =>
    simp only [compareDigest] at same
    split at same
    · simp only [Except.ok.injEq, beq_iff_eq] at same
      rw [same]
    · contradiction

/-- An authentic request is answered from the nonce store. -/
theorem verify_of_authentic {ts : Int} {nonce : Str} (authentic : Authentic d U v request ts nonce) :
    verify d U v request =
      if nonce ∈ (gc v request.now).seen then .ok ((false, .replayedNonce), gc v request.now)
      else .ok ((true, .ok), accept (gc v request.now) nonce request.now) := by
  obtain ⟨⟨timestamp, nonceItem⟩, fresh, signed⟩ := authentic
  obtain ⟨value, timestampItem, read⟩ : ∃ value,
      getItem request.headers (lit "timestamp") = .ok value ∧ intOfHeader value = .ok ts := by
    cases item : getItem request.headers (lit "timestamp") with
    | error e => simp [item, Except.bind] at timestamp
    | ok value => exact ⟨value, rfl, by simpa [item, Except.bind] using timestamp⟩
  simp only [verify, timestampItem, read, nonceItem, signed, bind, Except.bind, textOfHeader,
    if_neg (not_lt.mpr fresh), signature, compareDigest_hexOfBytes, Bool.not_true,
    Bool.false_eq_true, if_false, pure, Except.pure]

/-- Any other request leaves the verifier as it was. -/
theorem verify_of_not_authentic (forged : ∀ ts nonce, ¬ Authentic d U v request ts nonce) :
    (∃ reason, verify d U v request = .ok ((false, reason), v)) ∨
      ∃ e, verify d U v request = .error e := by
  -- One check after the other, in the order of the source.
  unfold verify
  cases timestampItem : getItem request.headers (lit "timestamp") with
  | error e => exact .inr ⟨e, rfl⟩
  | ok value =>
    cases read : intOfHeader value with
    | error e => exact .inr ⟨e, by simp [bind, Except.bind, read]⟩
    | ok ts =>
      cases nonceItem : getItem request.headers (lit "nonce") with
      | error e => exact .inr ⟨e, by simp [bind, Except.bind, read]⟩
      | ok nonceValue =>
        cases signed : getItem request.headers (lit "signature") with
        | error e => exact .inr ⟨e, by simp [bind, Except.bind, read]⟩
        | ok provided =>
          simp only [bind, Except.bind, read, pure, Except.pure]
          by_cases stale : v.maxSkew < |request.now - ts|
          · exact .inl ⟨_, if_pos stale⟩
          · simp only [if_neg stale]
            cases nonceText : textOfHeader nonceValue with
            | error e => exact .inr ⟨e, rfl⟩
            | ok nonce =>
              simp only
              cases compared : compareDigest (signature d U v.secret request.method request.path
                  request.body ts nonce) provided with
              | error e => exact .inr ⟨e, rfl⟩
              | ok same =>
                cases same with
                | false => exact .inl ⟨_, rfl⟩
                | true =>
                  -- All checks passed, so the request was authentic after all.
                  refine absurd ⟨⟨?_, ?_⟩, not_lt.mp stale, ?_⟩ (forged ts nonce)
                  · simp [timestampItem, Except.bind, read]
                  · cases nonceValue with
                    | int n => simp [textOfHeader] at nonceText
                    | str text =>
                      simp only [textOfHeader, Except.ok.injEq] at nonceText
                      rw [nonceItem, nonceText]
                  · rw [signed, compareDigest_eq_true compared]

/-- The call returns `(True, 'ok')` exactly for an authentic request with a nonce
    that is not in the store. -/
theorem accepts_iff : Accepts d U v request ↔
    ∃ ts nonce, Authentic d U v request ts nonce ∧ nonce ∉ (gc v request.now).seen := by
  constructor
  · rintro ⟨next, accepted⟩
    by_cases authentic : ∃ ts nonce, Authentic d U v request ts nonce
    · -- Were the nonce in the store, the verdict would be a replay.
      obtain ⟨ts, nonce, authentic⟩ := authentic
      refine ⟨ts, nonce, authentic, fun seen => ?_⟩
      rw [verify_of_authentic authentic, if_pos seen] at accepted
      simp at accepted
    · have forged : ∀ ts nonce, ¬ Authentic d U v request ts nonce := by
        simpa only [not_exists] using authentic
      rcases verify_of_not_authentic forged with ⟨reason, refused⟩ | ⟨e, raised⟩
      · simp [refused] at accepted
      · simp [raised] at accepted
  · rintro ⟨ts, nonce, authentic, unseen⟩
    exact ⟨_, by rw [verify_of_authentic authentic, if_neg unseen]⟩

theorem Carries.unique {headers : Headers} {ts ts' : Int} {nonce nonce' : Str}
    (first : Carries headers ts nonce) (second : Carries headers ts' nonce') :
    ts = ts' ∧ nonce = nonce' := by
  have timestamps := first.timestamp.symm.trans second.timestamp
  have nonces := first.nonce.symm.trans second.nonce
  simp only [Except.ok.injEq, HeaderValue.str.injEq] at timestamps nonces
  exact ⟨timestamps, nonces⟩

/-- What one call can do to the verifier. -/
theorem step_cases {next : SignatureVerifier} (stepped : step d U v request = some next) :
    next = v ∨ next = gc v request.now ∨
      ∃ ts nonce, Authentic d U v request ts nonce ∧ nonce ∉ (gc v request.now).seen ∧
        next = accept (gc v request.now) nonce request.now := by
  by_cases authentic : ∃ ts nonce, Authentic d U v request ts nonce
  · obtain ⟨ts, nonce, authentic⟩ := authentic
    simp only [step, verify_of_authentic authentic] at stepped
    by_cases seen : nonce ∈ (gc v request.now).seen
    · simp only [if_pos seen, Option.some.injEq] at stepped
      exact .inr (.inl stepped.symm)
    · simp only [if_neg seen, Option.some.injEq] at stepped
      exact .inr (.inr ⟨ts, nonce, authentic, seen, stepped.symm⟩)
  · have forged : ∀ ts nonce, ¬ Authentic d U v request ts nonce := by
      simpa only [not_exists] using authentic
    left
    rcases verify_of_not_authentic forged with ⟨reason, refused⟩ | ⟨e, raised⟩
    · simpa [step, refused, eq_comm] using stepped
    · simpa [step, raised, eq_comm] using stepped

theorem carries_sign (secret : Bytes) (method path : Str) (body : Bytes) (ts : Int) (nonce : Str) :
    Carries (sign d U secret method path body ts nonce) ts nonce := by
  constructor
  · have item : (sign d U secret method path body ts nonce).lookup (lit "timestamp") =
        some (.int ts) := by
      rw [sign, AList.lookup_insert_ne (by decide), AList.lookup_insert_ne (by decide)]
      simp [AList.lookup, AList.singleton]
    simp [getItem, item, Except.bind, intOfHeader]
  · have item : (sign d U secret method path body ts nonce).lookup (lit "nonce") =
        some (.str nonce) := by
      rw [sign, AList.lookup_insert_ne (by decide), AList.lookup_insert]
    simp [getItem, item]

theorem getItem_signature_sign (secret : Bytes) (method path : Str) (body : Bytes) (ts : Int)
    (nonce : Str) :
    getItem (sign d U secret method path body ts nonce) (lit "signature") =
      .ok (.str (signature d U secret method path body ts nonce)) := by
  simp [getItem, sign]

end Verdicts

end Excalibur.RequestSigning
