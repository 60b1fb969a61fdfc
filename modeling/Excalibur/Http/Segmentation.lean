import Excalibur.Http.EarlyEnd

/-! # Responses do not depend on how they are cut

The buffers of two runs over the same stream hold different parts of it, but what
is cut off at a marker or at a length is the same, so the outcomes are the same.
Sizes below zero break this: Python counts such a slice bound from the end of the
buffer.  For a negative Content-Length the exact threshold is known, because the
prefetched part of a body can have any length up to 4095.
-/

namespace Excalibur.Http

open Excalibur.Library Excalibur.Python

/-- The same response, or an error in both runs. -/
def SameOutcome : Except PyError RawHTTPResponse → Except PyError RawHTTPResponse → Prop
  | .ok response, .ok response' => response = response'
  | .error _, .error _ => True
  | _, _ => False

/-- Any two ways of cutting the stream have the same outcome. -/
def CutIndependent (stream : Bytes) : Prop :=
  ∀ s s' : Socket, unread s = stream → unread s' = stream → SameOutcome (httpGet s) (httpGet s')

/-- Walking from chunk to chunk comes to a size below zero. -/
inductive NegativeChunk : Bytes → Prop where
  | here {stream : Bytes} {size : Int} (parsed : chunkSize (lineOf stream) = .ok size)
      (negative : size < 0) : NegativeChunk stream
  | later {stream : Bytes} {n : Nat} (parsed : chunkSize (lineOf stream) = .ok n)
      (positive : 0 < n) (more : NegativeChunk ((behindLine stream).drop (n + 2))) :
      NegativeChunk stream

/-- No chunk of a chunked body has a size below zero. -/
def ChunksNonnegative (stream : Bytes) : Prop :=
  selected stream = .ok .chunked → ¬ NegativeChunk (bodyOf stream)

/-- A Content-Length below zero is at least as large as what can be prefetched. -/
def LengthHarmless (stream : Bytes) : Prop :=
  ∀ n, selected stream = .ok (.contentLength n) →
    0 ≤ n ∨ ((min (bodyOf stream).length 4095 : Nat) : Int) ≤ -n

theorem sameOutcome_refl (outcome : Except PyError RawHTTPResponse) :
    SameOutcome outcome outcome := by
  cases outcome with
  | error e => trivial
  | ok response => rfl

/-! ## Chunked bodies -/

theorem decodeChunked_independent {body buf buf' : Bytes} {s s' : Socket}
    (nonnegative : ¬ NegativeChunk (buf ++ unread s))
    (same : buf ++ unread s = buf' ++ unread s') :
    (decodeChunked body buf s).map Prod.fst = (decodeChunked body buf' s').map Prod.fst := by
  -- Induction on what is left of the stream.
  induction left : buf.length + (unread s).length using Nat.strong_induction_on
    generalizing body buf buf' s s' with
  | _ length ih =>
    cases parsed : chunkSize (lineOf (buf ++ unread s)) with
    | error e =>
      have parsed' := parsed
      rw [same] at parsed'
      rw [decodeChunked_error (nextChunk_error parsed), decodeChunked_error (nextChunk_error parsed')]
    | ok size =>
      have parsed' := parsed
      rw [same] at parsed'
      rcases lt_trichotomy size 0 with negative | rfl | positive
      · -- This size is excluded; from here on it is the last chunk or one with data.
        exact absurd (.here parsed negative) nonnegative
      · obtain ⟨t, done⟩ := nextChunk_last parsed
        obtain ⟨t', done'⟩ := nextChunk_last parsed'
        rw [decodeChunked_last done, decodeChunked_last done']
        rfl
      · lift size to Nat using le_of_lt positive with n
        have positive : 0 < n := by simpa using positive
        obtain ⟨rest, t, next, behind⟩ := nextChunk_data positive parsed
        obtain ⟨rest', t', next', behind'⟩ := nextChunk_data positive parsed'
        rw [decodeChunked_data next, decodeChunked_data next', same]
        refine ih _ ?_ ?_ ?_ rfl
        · rw [← left]
          exact length_nextChunk_lt next
        · rw [behind]
          exact fun more => nonnegative (.later parsed positive more)
        · rw [behind, behind', same]

/-! ## Bodies with a length -/

theorem recvExactly_of_nonneg (n : Nat) (buf : Bytes) (s : Socket) :
    (recvExactly s n buf).1.1 = (buf ++ unread s).take n := by
  have reaches : ∀ items : Bytes, decide ((n : Int) ≤ (items.length : Int)) = true →
      n ≤ items.length := by
    intro items holds
    have bound := of_decide_eq_true holds
    omega
  simp only [recvExactly, sliceTo_natCast]
  exact fill_take buf s reaches (le_refl n)

theorem recvExactly_of_neg {n : Int} (negative : n < 0) (buf : Bytes) (s : Socket) :
    (recvExactly s n buf).1.1 = buf.take (n + buf.length).toNat := by
  have filled : fill (fun items => decide (n ≤ (items.length : Int))) buf s = (buf, s) := by
    apply fill_of_enough s
    rw [decide_eq_true_eq]
    omega
  simp only [recvExactly, filled, sliceTo, sliceIndex, if_pos negative]

/-- What is prefetched of the body came with the end of the header block. -/
theorem length_prefetched_le (s : Socket) :
    (prefetched s).length ≤ min (bodyOf (unread s)).length 4095 := by
  have whole := congrArg List.length (readUntil_body s)
  rw [List.length_append] at whole
  apply le_min (by omega)
  cases found : cut (crlf ++ crlf) (fill (occursIn (crlf ++ crlf)) [] s).1 with
  | none => simp [prefetched, readUntil, partition, found]
  | some parts =>
    obtain ⟨before, after⟩ := parts
    have occurs : occursIn (crlf ++ crlf) (fill (occursIn (crlf ++ crlf)) [] s).1 = true := by
      simp [occursIn, found]
    obtain ⟨earlier, segment, -, split, missing⟩ := fill_last s (by decide) occurs
    have came : prefetched s = after := by
      simp [prefetched, readUntil, partition, found]
    rw [came]
    by_contra long
    -- Otherwise the blank line would have been complete one segment earlier.
    have bounded := segment.bounded
    have joined := (cut_eq_append found).symm.trans split
    have lengths := congrArg List.length joined
    simp only [List.length_append] at lengths
    have inside : before ++ (crlf ++ crlf) <+: earlier := by
      refine List.prefix_of_prefix_length_le ⟨after, joined⟩ (List.prefix_append _ _) ?_
      simp only [List.length_append]
      omega
    obtain ⟨more, rebuilt⟩ := inside
    have complete : occursIn (crlf ++ crlf) (before ++ (crlf ++ crlf)) = true := by
      rw [occursIn, cut_first found]
      rfl
    have early := occursIn_append more complete
    rw [rebuilt, missing] at early
    contradiction

/-! ## Two cuts that show a negative length -/

def singles (bytes : Bytes) : Socket := bytes.map fun b => ⟨[b], by simp, by simp⟩

@[simp] theorem unread_singles (bytes : Bytes) : unread (singles bytes) = bytes := by
  induction bytes with
  | nil => rfl
  | cons b bytes ih =>
    simp only [singles, List.map_cons, unread_cons] at ih ⊢
    rw [ih, List.singleton_append]

/-- Byte by byte, but `count` bytes of the body come with the end of the header block. -/
def cutWith (head body : Bytes) (count : Nat) (bounded : count ≤ 4095) : Socket :=
  singles (head ++ [13, 10, 13]) ++
    ([⟨10 :: body.take count, by simp, by simp; omega⟩] ++ singles (body.drop count))

theorem unread_cutWith (head body : Bytes) (count : Nat) (bounded : count ≤ 4095) :
    unread (cutWith head body count bounded) = head ++ (crlf ++ crlf) ++ body := by
  simp [cutWith, crlf]

theorem readUntil_cutWith {stream head body : Bytes}
    (found : cut (crlf ++ crlf) stream = some (head, body)) (count : Nat) (bounded : count ≤ 4095) :
    readUntil (crlf ++ crlf) (cutWith head body count bounded) =
      ((head, body.take count), singles (body.drop count)) := by
  -- Before its last byte the blank line does not occur in the buffer.
  have front : fill (occursIn (crlf ++ crlf)) [] (cutWith head body count bounded) =
      fill (occursIn (crlf ++ crlf)) (head ++ (crlf ++ crlf) ++ body.take count)
        (singles (body.drop count)) := by
    rw [cutWith, ← List.append_assoc, fill_append]
    · simp [crlf]
    · intro k early
      have within : k ≤ (singles (head ++ [13, 10, 13])).length := by
        simp only [List.length_append, List.length_singleton] at early
        omega
      have start : unread ((singles (head ++ [13, 10, 13])).take k) =
          (head ++ [13, 10, 13]).take k := by
        rw [singles, ← List.map_take]
        exact unread_singles _
      rw [List.nil_append, List.take_append_of_le_length within, start]
      refine occursIn_of_short found ?_ ?_
      · refine (List.take_prefix _ _).trans ⟨[10], ?_⟩
        simp [crlf]
      · simp [crlf]
  have blankLine := cut_replace (body.take count) found
  have enough : occursIn (crlf ++ crlf) (head ++ (crlf ++ crlf) ++ body.take count) = true := by
    rw [occursIn, blankLine]
    rfl
  simp only [readUntil, front, fill_of_enough _ enough, partition, blankLine, Option.getD_some]

/-! ## Independence -/

/-- Two runs have the same outcome when they read the same body in the framing
    that is asked for. -/
theorem httpGet_congr {s s' : Socket} (same : unread s = unread s')
    (bodies : ∀ f, selected (unread s) = .ok f →
      readBody (prefetched s) (behindHead s) f = readBody (prefetched s') (behindHead s') f) :
    httpGet s = httpGet s' := by
  rw [httpGet_eq, httpGet_eq, ← same]
  simp only [selected, bind, Except.bind] at bodies ⊢
  cases parsed : parseHead (headOf (unread s)) with
  | error e => rfl
  | ok head =>
    simp only [parsed] at bodies ⊢
    cases framed : framing head.2.2 with
    | error e => rfl
    | ok f => simp only [bodies f framed]

theorem readBody_chunked (rest : Bytes) (s : Socket) :
    readBody rest s .chunked = (decodeChunked [] rest s).map Prod.fst := by
  simp only [readBody, bind, Except.bind, Except.map]
  cases decodeChunked [] rest s with
  | error e => rfl
  | ok result => rfl

theorem recvExactly_harmless {s : Socket} {n : Int} (negative : n < 0)
    (harmless : ((min (bodyOf (unread s)).length 4095 : Nat) : Int) ≤ -n) :
    (recvExactly (behindHead s) n (prefetched s)).1.1 = [] := by
  have few := length_prefetched_le s
  have nothing : (n + ((prefetched s).length : Int)).toNat = 0 := by omega
  rw [recvExactly_of_neg negative, nothing, List.take_zero]

theorem readBody_independent {s s' : Socket} (same : unread s = unread s') {f : Framing}
    (selects : selected (unread s) = .ok f) (nonnegative : ChunksNonnegative (unread s))
    (harmless : LengthHarmless (unread s)) :
    readBody (prefetched s) (behindHead s) f = readBody (prefetched s') (behindHead s') f := by
  have bodies :
      prefetched s ++ unread (behindHead s) = prefetched s' ++ unread (behindHead s') := by
    rw [readUntil_body, readUntil_body, same]
  cases f with
  | chunked =>
    rw [readBody_chunked, readBody_chunked]
    refine decodeChunked_independent ?_ bodies
    rw [readUntil_body]
    exact nonnegative selects
  | contentLength n =>
    simp only [readBody, Except.ok.injEq]
    cases le_or_gt 0 n with
    | inl nonneg =>
      lift n to Nat using nonneg
      rw [recvExactly_of_nonneg, recvExactly_of_nonneg, bodies]
    | inr negative =>
      -- A harmless negative length takes nothing, however much was read ahead.
      have small := (harmless n selects).resolve_left (not_le.mpr negative)
      rw [recvExactly_harmless negative small, recvExactly_harmless negative (same ▸ small)]
  | untilClose =>
    simp only [readBody, readToClose, Except.ok.injEq]
    rw [fill_never, fill_never, bodies]

/-- A Content-Length below zero shows how much was prefetched, once that can be
    more than the length cuts off. -/
theorem lengthHarmless_of_cutIndependent {stream : Bytes} (independent : CutIndependent stream) :
    LengthHarmless stream := by
  intro n selects
  by_contra harmful
  simp only [not_or, not_le] at harmful
  obtain ⟨negative, visible⟩ := harmful
  cases found : cut (crlf ++ crlf) stream with
  | none =>
    simp only [bodyOf, partition, found, Option.getD_none, List.length_nil] at visible
    omega
  | some parts =>
    obtain ⟨head, body⟩ := parts
    have rebuilt := cut_eq_append found
    have behind : bodyOf stream = body := by simp [bodyOf, partition, found]
    rw [behind] at visible
    -- The run that has `count` bytes of the body prefetched returns these less `-n`.
    have returns : ∀ count (bounded : count ≤ 4095), ∃ response,
        httpGet (cutWith head body count bounded) = .ok response ∧
          response.body = (body.take count).take (n + (body.take count).length).toNat := by
      intro count bounded
      have whole : unread (cutWith head body count bounded) = stream := by
        rw [unread_cutWith, rebuilt]
      obtain ⟨⟨status, reason, headers⟩, parsed, framed⟩ := bind_eq_ok.mp selects
      rw [httpGet_eq, whole, prefetched, behindHead, readUntil_cutWith found count bounded]
      simp only [parsed, framed, bind, Except.bind, readBody, pure, Except.pure]
      exact ⟨_, rfl, recvExactly_of_neg negative _ _⟩
    -- Nothing prefetched against as much as one segment can bring.
    obtain ⟨first, returnedFirst, firstBody⟩ := returns 0 (by omega)
    obtain ⟨second, returnedSecond, secondBody⟩ := returns 4095 (le_refl 4095)
    have same := independent (cutWith head body 0 (by omega)) (cutWith head body 4095 (le_refl 4095))
      (by rw [unread_cutWith, rebuilt]) (by rw [unread_cutWith, rebuilt])
    rw [returnedFirst, returnedSecond] at same
    have equal : first.body = second.body := congrArg RawHTTPResponse.body same
    rw [firstBody, secondBody] at equal
    have lengths := congrArg List.length equal
    simp only [List.take_zero, List.take_nil, List.length_nil, List.length_take] at lengths
    omega

/-- Outcomes do not depend on the cut as long as no chunk size is negative and a
    negative Content-Length is harmless, which it has to be. -/
theorem cut_independent_of_nonnegative (stream : Bytes) :
    (ChunksNonnegative stream → LengthHarmless stream → CutIndependent stream) ∧
      (CutIndependent stream → LengthHarmless stream) := by
  refine ⟨?_, lengthHarmless_of_cutIndependent⟩
  rintro nonnegative harmless s s' rfl same
  have equal : httpGet s = httpGet s' :=
    httpGet_congr same.symm fun f selects =>
      readBody_independent same.symm selects nonnegative harmless
  rw [equal]
  exact sameOutcome_refl _

/-- A header block with Content-Length -1. -/
def negativeHead : Bytes := bytesLit "HTTP/1.1 200 OK\r\nContent-Length: -1\r\n\r\n"

def negativeWhole : Socket := [⟨negativeHead ++ bytesLit "ab", by decide, by decide⟩]

def negativeCut : Socket :=
  [⟨negativeHead, by decide, by decide⟩, ⟨bytesLit "ab", by decide, by decide⟩]

theorem sameOutcome_body {outcome outcome' : Except PyError RawHTTPResponse} {body body' : Bytes}
    (same : SameOutcome outcome outcome') (returned : outcome.map RawHTTPResponse.body = .ok body)
    (returned' : outcome'.map RawHTTPResponse.body = .ok body') : body = body' := by
  cases outcome with
  | error e => cases returned
  | ok response =>
    cases outcome' with
    | error e => cases returned'
    | ok response' =>
      cases same
      exact Except.ok.inj (returned.symm.trans returned')

/-- In one segment the body is `a`, cut behind the header block it is empty. -/
theorem negative_length_depends_on_cut :
    (httpGet negativeWhole).map RawHTTPResponse.body = .ok (bytesLit "a") ∧
      (httpGet negativeCut).map RawHTTPResponse.body = .ok [] ∧
      ¬ CutIndependent (negativeHead ++ bytesLit "ab") := by
  have whole : (httpGet negativeWhole).map RawHTTPResponse.body = .ok (bytesLit "a") := by
    decide +kernel
  have cut : (httpGet negativeCut).map RawHTTPResponse.body = .ok [] := by
    decide +kernel
  refine ⟨whole, cut, fun independent => ?_⟩
  have same := independent negativeWhole negativeCut (by decide) (by decide)
  exact absurd (sameOutcome_body same whole cut) (by decide)

end Excalibur.Http
