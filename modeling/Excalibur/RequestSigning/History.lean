import Excalibur.RequestSigning.Replay

/-! # The history of a verifier

What `verify` answers can be told from the calls before it, without the nonce store: a call
is accepted if it is authentic and its nonce has not been accepted less than `nonce_ttl`
ago.  `Remembers` is the invariant.  It speaks about the store as later calls see it, after
garbage collection, and so it does not matter which of them have collected it before.
-/

namespace Excalibur.RequestSigning

open Excalibur.Library Excalibur.Python

variable {d : Digests} {U : UpperCase} {start v w : SignatureVerifier}

/-- `request` is a call of the run that returned `(True, 'ok')`. -/
def AcceptedIn (d : Digests) (U : UpperCase) (start : SignatureVerifier) (requests : List Request)
    (request : Request) : Prop :=
  ∃ before after v, requests = before ++ request :: after ∧
    run (step d U) start before = some v ∧ Accepts d U v request

/-- A request with this nonce was accepted less than `nonce_ttl` before `now`. -/
def RecentlyAccepted (d : Digests) (U : UpperCase) (start : SignatureVerifier)
    (requests : List Request) (nonce : Str) (now : Int) : Prop :=
  ∃ request ts, AcceptedIn d U start requests request ∧ Carries request.headers ts nonce ∧
    now < request.now + start.nonceTtl

theorem acceptedIn_snoc {requests : List Request} {last request : Request}
    (reached : run (step d U) start requests = some v) :
    AcceptedIn d U start (requests ++ [last]) request ↔
      AcceptedIn d U start requests request ∨ request = last ∧ Accepts d U v last := by
  constructor
  · rintro ⟨before, after, w, split, reachedHere, accepts⟩
    rcases List.eq_nil_or_concat' after with rfl | ⟨front, final, rfl⟩
    · obtain ⟨rfl, same⟩ := List.append_inj' split rfl
      obtain rfl := List.singleton_injective same
      rw [reached, Option.some.injEq] at reachedHere
      exact .inr ⟨rfl, reachedHere ▸ accepts⟩
    · rw [← List.cons_append, ← List.append_assoc] at split
      obtain ⟨rfl, -⟩ := List.append_inj' split rfl
      exact .inl ⟨before, front, w, rfl, reachedHere, accepts⟩
  · rintro (⟨before, after, w, rfl, reachedHere, accepts⟩ | ⟨rfl, accepts⟩)
    · exact ⟨before, after ++ [last], w, by simp, reachedHere, accepts⟩
    · exact ⟨requests, [], v, rfl, reached, accepts⟩

/-! ## The invariant -/

/-- The store holds what a call from `now` on has to refuse. -/
def Remembers (d : Digests) (U : UpperCase) (start : SignatureVerifier) (requests : List Request)
    (v : SignatureVerifier) : Prop :=
  ∀ nonce now, (∀ request ∈ requests, request.now ≤ now) →
    (nonce ∈ (gc v now).seen ↔ RecentlyAccepted d U start requests nonce now)

theorem mem_gc_iff {nonce : Str} {now : Int} :
    nonce ∈ (gc v now).seen ↔ ∃ expiry, v.seen.lookup nonce = some expiry ∧ now < expiry := by
  rw [← AList.lookup_isSome, lookup_gc]
  cases v.seen.lookup nonce with
  | none => simp
  | some expiry => simp [Option.filter_some]

/-- Collecting earlier makes no difference to a later call. -/
theorem mem_gc_gc {nonce : Str} {first now : Int} (later : first ≤ now) :
    nonce ∈ (gc (gc v first) now).seen ↔ nonce ∈ (gc v now).seen := by
  rw [mem_gc_iff, mem_gc_iff]
  constructor
  · rintro ⟨expiry, found, alive⟩
    rw [lookup_gc, Option.filter_eq_some_iff] at found
    exact ⟨expiry, found.1, alive⟩
  · rintro ⟨expiry, found, alive⟩
    refine ⟨expiry, ?_, alive⟩
    rw [lookup_gc, Option.filter_eq_some_iff]
    exact ⟨found, by simpa using later.trans_lt alive⟩

theorem mem_gc_accept {nonce other : Str} {first now : Int} (later : first ≤ now) :
    other ∈ (gc (accept (gc v first) nonce first) now).seen ↔
      other ∈ (gc v now).seen ∧ other ≠ nonce ∨ other = nonce ∧ now < first + v.nonceTtl := by
  rw [← mem_gc_gc (v := v) later, mem_gc_iff, mem_gc_iff]
  by_cases same : other = nonce
  · subst same
    simp [accept, gc]
  · simp [accept, AList.lookup_insert_ne same, same]

theorem recentlyAccepted_snoc {requests : List Request} {last : Request} {nonce : Str} {now : Int}
    (reached : run (step d U) start requests = some v) :
    RecentlyAccepted d U start (requests ++ [last]) nonce now ↔
      RecentlyAccepted d U start requests nonce now ∨
      Accepts d U v last ∧ ∃ ts, Carries last.headers ts nonce ∧ now < last.now + start.nonceTtl := by
  unfold RecentlyAccepted
  constructor
  · rintro ⟨request, ts, accepted, carries, alive⟩
    rcases (acceptedIn_snoc reached).mp accepted with earlier | ⟨rfl, accepts⟩
    · exact .inl ⟨request, ts, earlier, carries, alive⟩
    · exact .inr ⟨accepts, ts, carries, alive⟩
  · rintro (⟨request, ts, accepted, carries, alive⟩ | ⟨accepts, ts, carries, alive⟩)
    · exact ⟨request, ts, (acceptedIn_snoc reached).mpr (.inl accepted), carries, alive⟩
    · exact ⟨last, ts, (acceptedIn_snoc reached).mpr (.inr ⟨rfl, accepts⟩), carries, alive⟩

theorem remembers_fresh (secret : Bytes) (maxSkew nonceTtl : Int) :
    Remembers d U (freshVerifier secret maxSkew nonceTtl) [] (freshVerifier secret maxSkew nonceTtl) := by
  intro nonce now _
  rw [mem_gc_iff]
  constructor
  · rintro ⟨expiry, found, -⟩
    simp [freshVerifier] at found
  · rintro ⟨request, -, ⟨before, after, -, split, -⟩, -⟩
    simp at split

theorem remembers_step {requests : List Request} {last : Request}
    (reached : run (step d U) start requests = some v) (remembers : Remembers d U start requests v)
    (stepped : step d U v last = some w) : Remembers d U start (requests ++ [last]) w := by
  intro nonce now past
  have later : last.now ≤ now := past last (by simp)
  have before := remembers nonce now fun request member => past request (by simp [member])
  rw [recentlyAccepted_snoc reached, ← before]
  by_cases accepts : Accepts d U v last
  · obtain ⟨ts, entered, authentic, unseen⟩ := accepts_iff.mp accepts
    have after : w = accept (gc v last.now) entered last.now := by
      simp only [step, verify_of_authentic authentic, if_neg unseen, Option.some.injEq] at stepped
      exact stepped.symm
    have carried : (∃ ts, Carries last.headers ts nonce ∧ now < last.now + start.nonceTtl) ↔
        nonce = entered ∧ now < last.now + v.nonceTtl := by
      rw [(run_config reached).nonceTtl]
      constructor
      · rintro ⟨ts, carries, alive⟩
        exact ⟨(carries.unique authentic.carries).2, alive⟩
      · rintro ⟨rfl, alive⟩
        exact ⟨ts, authentic.carries, alive⟩
    -- The nonce that is entered was not in the store, at whatever later time it is looked up.
    have absent : entered ∉ (gc v now).seen := by
      intro present
      obtain ⟨expiry, found, alive⟩ := mem_gc_iff.mp present
      exact unseen (mem_gc_iff.mpr ⟨expiry, found, later.trans_lt alive⟩)
    rw [after, mem_gc_accept later, carried]
    by_cases same : nonce = entered
    · subst same
      simp [absent, accepts]
    · simp [same]
  · simp only [accepts, false_and, or_false]
    rcases step_cases stepped with rfl | rfl | ⟨ts, entered, authentic, unseen, -⟩
    · rfl
    · exact mem_gc_gc later
    · exact absurd (accepts_iff.mpr ⟨ts, entered, authentic, unseen⟩) accepts

theorem remembers_run {requests : List Request} (ordered : NonDecreasing requests)
    (fresh : Remembers d U start [] start) (reached : run (step d U) start requests = some v) :
    Remembers d U start requests v := by
  induction requests using List.reverseRecOn generalizing v with
  | nil =>
    cases reached
    exact fresh
  | append_singleton requests last ih =>
    obtain ⟨middle, reachedMiddle, stepped⟩ := run_snoc.mp reached
    exact remembers_step reachedMiddle (ih (List.pairwise_append.mp ordered).1 reachedMiddle) stepped

/-! ## The law -/

/-- On a fresh verifier and a clock that never goes back, a call is accepted exactly if it
    is authentic and no request with its nonce was accepted less than `nonce_ttl` ago; and
    so is what a client with the secret signs. -/
theorem accepts_exactly_the_unseen (d : Digests) (U : UpperCase) (secret : Bytes)
    (maxSkew nonceTtl : Int) (before : List Request) (request : Request)
    (ordered : NonDecreasing (before ++ [request]))
    (reached : run (step d U) (freshVerifier secret maxSkew nonceTtl) before = some v) :
    (Accepts d U v request ↔ ∃ ts nonce,
      Authentic d U (freshVerifier secret maxSkew nonceTtl) request ts nonce ∧
      ¬ RecentlyAccepted d U (freshVerifier secret maxSkew nonceTtl) before nonce request.now) ∧
    (∀ ts nonce, request.headers = sign d U secret request.method request.path request.body ts nonce →
      |request.now - ts| ≤ maxSkew →
      ¬ RecentlyAccepted d U (freshVerifier secret maxSkew nonceTtl) before nonce request.now →
      Accepts d U v request) := by
  obtain ⟨front, -, upTo⟩ := List.pairwise_append.mp ordered
  have remembers := remembers_run front (remembers_fresh secret maxSkew nonceTtl) reached
  have config := run_config reached
  have stored (nonce : Str) := remembers nonce request.now fun other member =>
    upTo other member request (by simp)
  have law : Accepts d U v request ↔ ∃ ts nonce,
      Authentic d U (freshVerifier secret maxSkew nonceTtl) request ts nonce ∧
      ¬ RecentlyAccepted d U (freshVerifier secret maxSkew nonceTtl) before nonce request.now := by
    rw [accepts_iff]
    refine exists_congr fun ts => exists_congr fun nonce => ?_
    rw [stored]
    -- Only the configuration matters for what is authentic, and a run keeps it.
    refine and_congr_left fun _ => ⟨fun ⟨carries, fresh, signed⟩ => ?_, fun ⟨carries, fresh, signed⟩ => ?_⟩
    · exact ⟨carries, config.maxSkew ▸ fresh, config.secret ▸ signed⟩
    · exact ⟨carries, config.maxSkew ▸ fresh, config.secret ▸ signed⟩
  refine ⟨law, fun ts nonce headers skew unused => law.mpr ⟨ts, nonce, ⟨?_, skew, ?_⟩, unused⟩⟩
  · rw [headers]
    exact carries_sign _ _ _ _ _ _
  · rw [headers]
    exact getItem_signature_sign _ _ _ _ _ _

/-- A request signed twice with one nonce, ten seconds apart. -/
theorem second_use_of_nonce_refused :
    ∃ v, run (step ⟨id, fun _ _ => []⟩ .ascii) (freshVerifier [1] 30 300)
        [edgeRequest ⟨id, fun _ _ => []⟩ .ascii [1] 0 0] = some v ∧
      Accepts ⟨id, fun _ _ => []⟩ .ascii (freshVerifier [1] 30 300)
        (edgeRequest ⟨id, fun _ _ => []⟩ .ascii [1] 0 0) ∧
      ¬ Accepts ⟨id, fun _ _ => []⟩ .ascii v
        (edgeRequest ⟨id, fun _ _ => []⟩ .ascii [1] 10 10) := by
  set d : Digests := ⟨id, fun _ _ => []⟩
  set U := UpperCase.ascii
  set fresh := freshVerifier [1] 30 300
  set first := edgeRequest d U [1] 0 0
  set second := edgeRequest d U [1] 10 10
  have accepted : Accepts d U fresh first := by
    refine (accepts_exactly_the_unseen d U [1] 30 300 [] first (List.pairwise_singleton _ _) rfl).2 0
      (lit "n") rfl (by decide) ?_
    rintro ⟨request, ts, ⟨before, after, w, split, -⟩, -⟩
    simp at split
  obtain ⟨v, verified⟩ := id accepted
  have reached : run (step d U) fresh [first] = some v := by
    simp [run_cons, step, verified]
  refine ⟨v, reached, accepted, fun again => ?_⟩
  have law := (accepts_exactly_the_unseen d U [1] 30 300 [first] second
    (by simp [NonDecreasing, first, second, edgeRequest]) reached).1
  obtain ⟨ts, nonce, authentic, unused⟩ := law.mp again
  obtain ⟨-, rfl⟩ := authentic.carries.unique (carries_sign _ _ _ _ _ _)
  exact unused ⟨first, 0, ⟨[], [], fresh, rfl, rfl, accepted⟩, carries_sign _ _ _ _ _ _, by decide⟩

end Excalibur.RequestSigning
