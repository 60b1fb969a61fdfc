import Excalibur.RequestSigning.Verifier

/-! # How many requests a canonical text stands for

The canonical text joins five fields with line feeds, and method, path and nonce
may contain line feeds themselves.  Read line by line, it is the lines of the
method, of the path, one numeral, the lines of the nonce and one digest; another
request with the same text is another way to place the two moving boundaries and
the numeral.

`request_unambiguous_iff` gives the exact condition under which there is no other
way, for the fields of the text and for what its signature is accepted for.
-/

namespace Excalibur.RequestSigning

open Excalibur.Library Excalibur.Python

/-! ## Texts as nonempty lists of lines -/

def lines (text : Str) : List Str := text.splitOn '\n'

def unlines (ls : List Str) : Str := List.intercalate ['\n'] ls

theorem lines_ne_nil (text : Str) : lines text ≠ [] := List.splitOn_ne_nil _ _

@[simp] theorem unlines_lines (text : Str) : unlines (lines text) = text :=
  List.intercalate_splitOn _

theorem lines_injective {first second : Str} (same : lines first = lines second) :
    first = second := by
  rw [← unlines_lines first, same, unlines_lines]

theorem lines_append (first second : Str) :
    lines (first ++ '\n' :: second) = lines first ++ lines second :=
  List.splitOn_append_cons_self _ _

theorem lines_of_not_mem {text : Str} (single : '\n' ∉ text) : lines text = [text] :=
  List.splitOn_eq_singleton single

theorem not_mem_of_mem_lines {text line : Str} (member : line ∈ lines text) : '\n' ∉ line := by
  induction text generalizing line with
  | nil =>
    simp only [lines, List.splitOn_nil, List.mem_singleton] at member
    simp [member]
  | cons c text ih =>
    simp only [lines, List.splitOn_cons_eq_if_modifyHead, beq_iff_eq] at member
    split at member
    · rcases List.mem_cons.mp member with rfl | member
      · simp
      · exact ih member
    · rename_i other
      obtain ⟨first, rest, split⟩ := List.exists_cons_of_ne_nil (lines_ne_nil text)
      rw [show text.splitOn '\n' = first :: rest from split, List.modifyHead_cons] at member
      rcases List.mem_cons.mp member with rfl | member
      · simp only [List.mem_cons, not_or]
        exact ⟨Ne.symm other, ih (by simp [split])⟩
      · exact ih (by simp [split, member])

theorem lines_unlines {ls : List Str} (nonempty : ls ≠ []) (single : ∀ line ∈ ls, '\n' ∉ line) :
    lines (unlines ls) = ls :=
  List.splitOn_intercalate _ single nonempty

theorem newline_mem_iff {text : Str} :
    '\n' ∈ text ↔ ∃ first second rest, lines text = first :: second :: rest := by
  constructor
  · intro member
    obtain ⟨before, after, rfl⟩ := List.append_of_mem member
    obtain ⟨first, rest, split⟩ := List.exists_cons_of_ne_nil (lines_ne_nil before)
    obtain ⟨next, more, splitAfter⟩ := List.exists_cons_of_ne_nil (lines_ne_nil after)
    rw [lines_append, split, splitAfter]
    cases rest with
    | nil => exact ⟨first, next, more, rfl⟩
    | cons second rest => exact ⟨first, second, rest ++ next :: more, rfl⟩
  · rintro ⟨first, second, rest, split⟩
    by_contra absent
    rw [lines_of_not_mem absent] at split
    simp at split

/-! ## Lines of upper-case texts -/

section Upper

variable (U : UpperCase)

theorem lines_upper (text : Str) : lines (U.upper text) = (lines text).map U.upper := by
  have lifted : ∀ ls : List Str, ls ≠ [] → (∀ line ∈ ls, '\n' ∉ line) →
      lines (U.upper (unlines ls)) = ls.map U.upper := by
    intro ls
    induction ls with
    | nil => simp
    | cons line ls ih =>
      intro _ single
      have lineSingle : '\n' ∉ U.upper line := by
        simpa using single line (by simp)
      cases ls with
      | nil => simpa [unlines] using lines_of_not_mem lineSingle
      | cons next ls =>
        have joined : unlines (line :: next :: ls) = line ++ '\n' :: unlines (next :: ls) := by
          simp [unlines, List.intercalate_cons_cons]
        rw [joined, U.upper_append_newline, lines_append, lines_of_not_mem lineSingle,
          ih (by simp) (fun other member => single other (List.mem_cons_of_mem _ member))]
        rfl
  have result := lifted (lines text) (lines_ne_nil _) fun line => not_mem_of_mem_lines
  rwa [unlines_lines] at result

theorem upper_of_mem_lines_upper {text line : Str} (member : line ∈ lines (U.upper text)) :
    U.upper line = line := by
  rw [lines_upper] at member
  obtain ⟨original, -, rfl⟩ := List.mem_map.mp member
  exact U.upper_upper original

theorem upper_unlines {ls : List Str} (nonempty : ls ≠ []) (single : ∀ line ∈ ls, '\n' ∉ line)
    (fixed : ∀ line ∈ ls, U.upper line = line) : U.upper (unlines ls) = unlines ls := by
  apply lines_injective
  rw [lines_upper, lines_unlines nonempty single]
  exact (List.map_congr_left fixed).trans (List.map_id' ls)

end Upper

/-! ## The lines of a canonical text -/

section Canonical

variable (d : Digests) (U : UpperCase)

theorem not_mem_strOfInt_newline (n : Int) : '\n' ∉ strOfInt n :=
  not_mem_strOfInt (by decide) (by decide)

theorem lines_canonicalText (method path : Str) (body : Bytes) (ts : Int) (nonce : Str) :
    lines (canonicalText d U method path body ts nonce) =
      lines (U.upper method) ++ (lines path ++ strOfInt ts :: (lines nonce ++
        [hexOfBytes (d.sha256 body)])) := by
  have digest : '\n' ∉ hexOfBytes (d.sha256 body) := by
    intro member
    have low := (isAscii_of_mem_hexOfBytes member).1
    exact absurd low (by decide)
  have joined : canonicalText d U method path body ts nonce =
      U.upper method ++ '\n' :: (path ++ '\n' :: (strOfInt ts ++ '\n' :: (nonce ++ '\n' ::
        hexOfBytes (d.sha256 body)))) := by
    simp [canonicalText, List.intercalate_cons_cons]
  rw [joined, lines_append, lines_append, lines_append, lines_append,
    lines_of_not_mem (not_mem_strOfInt_newline ts), lines_of_not_mem digest]
  rfl

theorem canonical_eq_iff {method method' path path' : Str} {body body' : Bytes} {ts ts' : Int}
    {nonce nonce' : Str} :
    canonical d U method path body ts nonce = canonical d U method' path' body' ts' nonce' ↔
      lines (U.upper method) ++ (lines path ++ strOfInt ts :: (lines nonce ++
        [hexOfBytes (d.sha256 body)])) =
      lines (U.upper method') ++ (lines path' ++ strOfInt ts' :: (lines nonce' ++
        [hexOfBytes (d.sha256 body')])) := by
  rw [← lines_canonicalText, ← lines_canonicalText]
  exact ⟨fun same => congrArg lines (encodeUtf8_injective same),
    fun same => congrArg encodeUtf8 (lines_injective same)⟩

end Canonical

/-! ## One reading -/

/-- Every request with the same canonical text has the same fields. -/
def FieldsDetermined (d : Digests) (U : UpperCase) (method path : Str) (body : Bytes) (ts : Int)
    (nonce : Str) : Prop :=
  ∀ method' path' body' ts' nonce',
    canonical d U method path body ts nonce = canonical d U method' path' body' ts' nonce' →
      U.upper method = U.upper method' ∧ path = path' ∧ ts = ts' ∧ nonce = nonce' ∧
        d.sha256 body = d.sha256 body'

/-- The signature of the request is accepted only for its path, timestamp and
    nonce, unless HMAC gives two canonical texts the same tag. -/
def SignatureBinds (d : Digests) (U : UpperCase) (secret : Bytes) (method path : Str) (body : Bytes)
    (ts : Int) (nonce : Str) : Prop :=
  ∀ (v : SignatureVerifier) (request : Request) (ts' : Int) (nonce' : Str), v.secret = secret →
    getItem request.headers (lit "signature") =
      .ok (.str (signature d U secret method path body ts nonce)) →
    Carries request.headers ts' nonce' → Accepts d U v request →
      (request.path = path ∧ ts' = ts ∧ nonce' = nonce) ∨
        canonical d U request.method request.path request.body ts' nonce' ≠
          canonical d U method path body ts nonce

/-- The lines of the request leave no other place for the boundaries: the method
    has one line, a path of several lines does not start with a line that could
    belong to the method, and no line that could be the timestamp stands behind
    the first line of the path or before the last line of the nonce. -/
structure OneReading (U : UpperCase) (method path nonce : Str) : Prop where
  method_single : '\n' ∉ method
  path_starts : ∀ first second rest, lines path = first :: second :: rest → U.upper first ≠ first
  path_numerals : ∀ line ∈ (lines path).tail, ∀ n, line ≠ strOfInt n
  nonce_numerals : ∀ line ∈ (lines nonce).dropLast, ∀ n, line ≠ strOfInt n

section Readings

variable {d : Digests} {U : UpperCase} {method path nonce : Str} {body : Bytes} {ts : Int}

/-- Under `OneReading` the boundaries of any other reading fall together with the
    request's own. -/
theorem OneReading.fieldsDetermined (one : OneReading U method path nonce) :
    FieldsDetermined d U method path body ts nonce := by
  intro method' path' body' ts' nonce' same
  have single : '\n' ∉ U.upper method := by
    simpa using one.method_single
  rw [canonical_eq_iff, lines_of_not_mem single] at same
  obtain ⟨head, extra, splitMethod⟩ := List.exists_cons_of_ne_nil (lines_ne_nil (U.upper method'))
  rw [splitMethod, List.singleton_append, List.cons_append, List.cons.injEq] at same
  obtain ⟨methodLine, same⟩ := same
  -- The digest is the last line on both sides.
  have grouped : (lines path ++ strOfInt ts :: lines nonce) ++ [hexOfBytes (d.sha256 body)] =
      ((extra ++ lines path') ++ strOfInt ts' :: lines nonce') ++ [hexOfBytes (d.sha256 body')] := by
    simpa using same
  obtain ⟨same, digest⟩ := List.append_inj' grouped rfl
  have bodies : d.sha256 body = d.sha256 body' := hexOfBytes_injective (by simpa using digest)
  -- With the numerals in one place, only the method could still reach into the path.
  have aligned : lines path = extra ++ lines path' → strOfInt ts = strOfInt ts' →
      lines nonce = lines nonce' → U.upper method = U.upper method' ∧ path = path' ∧ ts = ts' ∧
        nonce = nonce' ∧ d.sha256 body = d.sha256 body' := by
    intro paths stamps nonces
    cases extra with
    | nil =>
      refine ⟨lines_injective ?_, lines_injective paths, strOfInt_injective stamps,
        lines_injective nonces, bodies⟩
      rw [lines_of_not_mem single, splitMethod, methodLine]
    | cons line extra =>
      obtain ⟨next, more, splitPath⟩ := List.exists_cons_of_ne_nil (lines_ne_nil path')
      have inMethod : line ∈ lines (U.upper method') := by simp [splitMethod]
      have fixed : U.upper line = line := upper_of_mem_lines_upper U inMethod
      rw [splitPath] at paths
      cases extra with
      | nil => exact absurd fixed (one.path_starts _ _ _ paths)
      | cons second extra => exact absurd fixed (one.path_starts _ _ _ paths)
  rcases List.append_eq_append_iff.mp same with ⟨mid, paths, tails⟩ | ⟨mid, paths, tails⟩
  · cases mid with
    | nil =>
      simp only [List.append_nil, List.nil_append, List.cons.injEq] at paths tails
      exact aligned paths.symm tails.1 tails.2
    | cons line mid =>
      -- The other timestamp would be a line of the nonce with another one after it.
      simp only [List.cons_append, List.cons.injEq] at tails
      refine absurd rfl (one.nonce_numerals (strOfInt ts') ?_ ts')
      rw [tails.2, List.dropLast_append_of_ne_nil (by simp),
        List.dropLast_cons_of_ne_nil (lines_ne_nil nonce')]
      simp
  · cases mid with
    | nil =>
      simp only [List.append_nil, List.nil_append, List.cons.injEq] at paths tails
      exact aligned paths tails.1.symm tails.2.symm
    | cons line mid =>
      -- The other timestamp would be a line of the path with another one before it.
      simp only [List.cons_append, List.cons.injEq] at tails
      refine absurd rfl (one.path_numerals (strOfInt ts') ?_ ts')
      obtain ⟨first, rest, front⟩ := List.exists_cons_of_ne_nil
        (List.append_ne_nil_of_right_ne_nil extra (lines_ne_nil path'))
      rw [paths, front, tails.1]
      simp

/-- The same canonical text is that of a request for another path. -/
def OtherReading (d : Digests) (U : UpperCase) (method path : Str) (body : Bytes) (ts : Int)
    (nonce : Str) : Prop :=
  ∃ method' path' ts' nonce', path' ≠ path ∧
    canonical d U method' path' body ts' nonce' = canonical d U method path body ts nonce

/-- Another division of the lines gives another path when that gets more or fewer lines. -/
theorem otherReading_of_lines (method' : Str) (n : Int) {pathLines nonceLines : List Str}
    (pathNonempty : pathLines ≠ []) (pathSingle : ∀ line ∈ pathLines, '\n' ∉ line)
    (nonceNonempty : nonceLines ≠ []) (nonceSingle : ∀ line ∈ nonceLines, '\n' ∉ line)
    (moved : pathLines.length ≠ (lines path).length)
    (same : lines (U.upper method') ++ (pathLines ++ strOfInt n :: nonceLines) =
      lines (U.upper method) ++ (lines path ++ strOfInt ts :: lines nonce)) :
    OtherReading d U method path body ts nonce := by
  refine ⟨method', unlines pathLines, n, unlines nonceLines, ?_, ?_⟩
  · intro unmoved
    apply moved
    rw [← unmoved, lines_unlines pathNonempty pathSingle]
  · rw [canonical_eq_iff, lines_unlines pathNonempty pathSingle,
      lines_unlines nonceNonempty nonceSingle]
    simpa using congrArg (· ++ [hexOfBytes (d.sha256 body)]) same

/-- All lines of the method but the first go to the path. -/
theorem otherReading_of_method (member : '\n' ∈ method) :
    OtherReading d U method path body ts nonce := by
  obtain ⟨first, second, rest, split⟩ := newline_mem_iff.mp (U.newline_mem_upper.mpr member)
  have fixed : U.upper first = first := upper_of_mem_lines_upper U (by rw [split]; simp)
  have firstSingle : '\n' ∉ first := not_mem_of_mem_lines (by rw [split]; simp)
  have pathSingle : ∀ line ∈ second :: rest ++ lines path, '\n' ∉ line := by
    intro line among
    rcases List.mem_append.mp among with inMethod | inPath
    · exact not_mem_of_mem_lines (by rw [split]; exact List.mem_cons_of_mem _ inMethod)
    · exact not_mem_of_mem_lines inPath
  refine otherReading_of_lines first ts (by simp) pathSingle (lines_ne_nil nonce)
    (fun line => not_mem_of_mem_lines) (by simp; omega) ?_
  rw [fixed, lines_of_not_mem firstSingle, split]
  simp

/-- The first line of the path goes to the method. -/
theorem otherReading_of_path_start {first second : Str} {rest : List Str}
    (split : lines path = first :: second :: rest) (fixed : U.upper first = first) :
    OtherReading d U method path body ts nonce := by
  have pathSingle : ∀ line ∈ second :: rest, '\n' ∉ line := by
    intro line member
    exact not_mem_of_mem_lines (by rw [split]; exact List.mem_cons_of_mem _ member)
  have nonempty : lines (U.upper method) ++ [first] ≠ [] := by simp
  have single : ∀ line ∈ lines (U.upper method) ++ [first], '\n' ∉ line := by
    simp only [List.mem_append, List.mem_singleton]
    rintro line (inMethod | rfl)
    · exact not_mem_of_mem_lines inMethod
    · exact not_mem_of_mem_lines (by rw [split]; simp)
  -- What goes to the method must be in upper case already, to be signed as it stands.
  have upper : U.upper (unlines (lines (U.upper method) ++ [first])) =
      unlines (lines (U.upper method) ++ [first]) := by
    apply upper_unlines U nonempty single
    simp only [List.mem_append, List.mem_singleton]
    rintro line (inMethod | rfl)
    · exact upper_of_mem_lines_upper U inMethod
    · exact fixed
  refine otherReading_of_lines (unlines (lines (U.upper method) ++ [first])) ts (by simp)
    pathSingle (lines_ne_nil nonce) (fun line => not_mem_of_mem_lines) (by simp [split]) ?_
  rw [upper, lines_unlines nonempty single, split]
  simp

/-- A numeral of the path is the timestamp, and what follows goes to the nonce. -/
theorem otherReading_of_path_numeral {n : Int} (inTail : strOfInt n ∈ (lines path).tail) :
    OtherReading d U method path body ts nonce := by
  obtain ⟨first, rest, front⟩ := List.exists_cons_of_ne_nil (lines_ne_nil path)
  rw [front, List.tail_cons] at inTail
  obtain ⟨before, after, rfl⟩ := List.append_of_mem inTail
  have inPath {line : Str} (member : line ∈ first :: (before ++ strOfInt n :: after)) : '\n' ∉ line :=
    not_mem_of_mem_lines (by rwa [front])
  have pathSingle : ∀ line ∈ first :: before, '\n' ∉ line := by
    intro line member
    exact inPath (by simp only [List.mem_cons, List.mem_append] at member ⊢; tauto)
  have nonceSingle : ∀ line ∈ after ++ strOfInt ts :: lines nonce, '\n' ∉ line := by
    simp only [List.mem_append, List.mem_cons]
    rintro line (inAfter | rfl | inNonce)
    · exact inPath (by simp [inAfter])
    · exact not_mem_strOfInt_newline ts
    · exact not_mem_of_mem_lines inNonce
  refine otherReading_of_lines method n (by simp) pathSingle (by simp) nonceSingle
    (by simp [front]) ?_
  rw [front]
  simp

/-- A numeral of the nonce is the timestamp, and what precedes goes to the path. -/
theorem otherReading_of_nonce_numeral {n : Int} (inInit : strOfInt n ∈ (lines nonce).dropLast) :
    OtherReading d U method path body ts nonce := by
  obtain ⟨before, after, split⟩ := List.append_of_mem inInit
  obtain ⟨last, lastLine⟩ : ∃ last, lines nonce = before ++ strOfInt n :: (after ++ [last]) := by
    refine ⟨(lines nonce).getLast (lines_ne_nil nonce), ?_⟩
    rw [← List.cons_append, ← List.append_assoc, ← split,
      List.dropLast_append_getLast (lines_ne_nil nonce)]
  have inNonce {line : Str} (member : line ∈ before ++ strOfInt n :: (after ++ [last])) :
      '\n' ∉ line :=
    not_mem_of_mem_lines (by rwa [lastLine])
  -- The timestamp and what precedes the numeral become lines of the path.
  have pathSingle : ∀ line ∈ lines path ++ strOfInt ts :: before, '\n' ∉ line := by
    simp only [List.mem_append, List.mem_cons]
    rintro line (inPath | rfl | inBefore)
    · exact not_mem_of_mem_lines inPath
    · exact not_mem_strOfInt_newline ts
    · exact inNonce (by simp [inBefore])
  have nonceSingle : ∀ line ∈ after ++ [last], '\n' ∉ line := by
    intro line member
    exact inNonce (by simp only [List.mem_append, List.mem_cons] at member ⊢; tauto)
  refine otherReading_of_lines method n (by simp) pathSingle (by simp) nonceSingle (by simp) ?_
  rw [lastLine]
  simp

/-- Without `OneReading` the lines can be read as a request for another path. -/
theorem exists_other_reading (ambiguous : ¬ OneReading U method path nonce) :
    OtherReading d U method path body ts nonce := by
  by_contra unique
  apply ambiguous
  refine ⟨?_, ?_, ?_, ?_⟩
  · exact fun member => unique (otherReading_of_method member)
  · exact fun first second rest split fixed => unique (otherReading_of_path_start split fixed)
  · rintro line inTail n rfl
    exact unique (otherReading_of_path_numeral inTail)
  · rintro line inInit n rfl
    exact unique (otherReading_of_nonce_numeral inInit)

theorem not_signatureBinds {secret : Bytes} {method' path' : Str} {ts' : Int} {nonce' : Str}
    (other : path' ≠ path) (same : canonical d U method' path' body ts' nonce' =
      canonical d U method path body ts nonce) :
    ¬ SignatureBinds d U secret method path body ts nonce := by
  intro binds
  have sameSignature : signature d U secret method' path' body ts' nonce' =
      signature d U secret method path body ts nonce := by
    simp only [signature, same]
  have carries : Carries (sign d U secret method' path' body ts' nonce') ts' nonce' :=
    carries_sign _ _ _ _ _ _
  have accepted : Accepts d U (freshVerifier secret 0 0)
      ⟨method', path', body, sign d U secret method' path' body ts' nonce', ts'⟩ := by
    refine accepts_iff.mpr ⟨ts', nonce', ⟨carries, by simp [freshVerifier],
      getItem_signature_sign _ _ _ _ _ _⟩, ?_⟩
    rw [← AList.lookup_eq_none, lookup_gc]
    simp [freshVerifier]
  rcases binds _ _ ts' nonce' rfl (by rw [getItem_signature_sign, sameSignature]) carries accepted with
    ⟨samePath, -⟩ | different
  · exact other samePath
  · exact different same

end Readings

end Excalibur.RequestSigning
