import Excalibur.Http.EarlyEnd

/-! # Which framing the header lines choose

The header lines are kept in a dictionary, so of several fields with one name only the
last is seen, and a transfer coding counts only when the whole value is `chunked`.
`fieldValues` lists what a reader would see that keeps all fields, and
`framing_unambiguous_iff` says for which header lines the two agree, in every order.
-/

namespace Excalibur.Http

open Excalibur.Library Excalibur.Python

/-! ## Fields -/

/-- The name and the value of a header line, as `http_get` stores them. -/
def fieldOf (line : Bytes) : Option (Str × Str) :=
  if occursIn [58] line then
    let (k, v) := partition [58] line
    some (lower (stripBy isSpace (decodeLatin1 k)), stripBy isSpace (decodeLatin1 v))
  else none

/-- The value of a line with this name. -/
def valueIn (name : Str) (line : Bytes) : Option Str :=
  ((fieldOf line).filter fun field => field.1 = name).map Prod.snd

/-- The values of all fields with this name, in order. -/
def fieldValues (name : Str) (lines : List Bytes) : List Str := lines.filterMap (valueIn name)

abbrev transferEncodings (lines : List Bytes) : List Str := fieldValues (lit "transfer-encoding") lines

abbrev contentLengths (lines : List Bytes) : List Str := fieldValues (lit "content-length") lines

/-- The codings of a value, without the empty elements that a list may have. -/
def codings (value : Str) : List Str :=
  ((value.splitOn ',').map fun part => lower (stripBy isSpace part)).filter fun coding => coding ≠ []

/-- The last coding of all fields together is `chunked`. -/
def EndsChunked (values : List Str) : Prop := (values.flatMap codings).getLast? = some (lit "chunked")

/-- The framing that these header lines choose. -/
def framingOf (lines : List Bytes) : Except PyError Framing := framing (lines.foldl addHeader ∅)

/-! ## What is asked for -/

/-- The same lines in another order, or some of them more or less often. -/
def Rearranged (lines others : List Bytes) : Prop := ∀ line, line ∈ lines ↔ line ∈ others

structure WellFramed (lines : List Bytes) : Prop where
  chunked : EndsChunked (transferEncodings lines) → framingOf lines = .ok .chunked
  lengthAlone : ∀ n, framingOf lines = .ok (.contentLength n) → transferEncodings lines = []
  agreed : ¬ EndsChunked (transferEncodings lines) →
    ∀ v ∈ contentLengths lines, ∀ w ∈ contentLengths lines, intOfStr v ≠ intOfStr w →
      ∃ e, framingOf lines = .error e

/-- However the lines are rearranged, they are well framed, and no two arrangements
    that are accepted cut the body at different places. -/
structure Unambiguous (lines : List Bytes) : Prop where
  wellFramed : ∀ others, Rearranged lines others → WellFramed others
  samePlace : ∀ first second, Rearranged lines first → Rearranged lines second →
    ∀ f g, framingOf first = .ok f → framingOf second = .ok g → f = g

/-- Only lengths, and they agree. -/
def LengthsOnly (lines : List Bytes) : Prop :=
  transferEncodings lines = [] ∧
    ∀ v ∈ contentLengths lines, ∀ w ∈ contentLengths lines, intOfStr v = intOfStr w

/-- Transfer codings, each value the single word `chunked`. -/
def ChunkedOnly (lines : List Bytes) : Prop :=
  transferEncodings lines ≠ [] ∧ ∀ v ∈ transferEncodings lines, lower v = lit "chunked"

/-- Transfer codings beside no length that is a number; `chunked` ends no longer value,
    and where it is a value by itself, no value is blank and there is a length after all. -/
structure NoLength (lines : List Bytes) : Prop where
  present : transferEncodings lines ≠ []
  noNumber : ∀ v ∈ contentLengths lines, ∀ n, intOfStr v ≠ .ok n
  single : ∀ v ∈ transferEncodings lines, (codings v).getLast? = some (lit "chunked") →
    lower v = lit "chunked"
  besides : (∃ v ∈ transferEncodings lines, lower v = lit "chunked") →
    contentLengths lines ≠ [] ∧ ∀ v ∈ transferEncodings lines, codings v ≠ []

/-! ## The dictionary keeps the last value -/

theorem addHeader_eq (headers : Dict Str Str) (line : Bytes) :
    addHeader headers line =
      match fieldOf line with
      | some (name, value) => headers.insert name value
      | none => headers := by
  unfold addHeader fieldOf
  split <;> rfl

theorem lookup_addHeader (headers : Dict Str Str) (line : Bytes) (name : Str) :
    (addHeader headers line).lookup name = (valueIn name line).or (headers.lookup name) := by
  rw [addHeader_eq, valueIn]
  cases fieldOf line with
  | none => rfl
  | some field =>
    obtain ⟨key, value⟩ := field
    by_cases same : key = name
    · subst same
      simp [Option.filter]
    · simp [Option.filter, same, AList.lookup_insert_ne (Ne.symm same)]

theorem fieldValues_append (name : Str) (lines more : List Bytes) :
    fieldValues name (lines ++ more) = fieldValues name lines ++ fieldValues name more :=
  List.filterMap_append

theorem lookup_headers (lines : List Bytes) (name : Str) :
    (lines.foldl addHeader ∅).lookup name = (fieldValues name lines).getLast? := by
  induction lines using List.reverseRecOn with
  | nil => rfl
  | append_singleton lines line ih =>
    rw [List.foldl_append, List.foldl_cons, List.foldl_nil, lookup_addHeader, ih, fieldValues_append,
      List.getLast?_append]
    congr 1
    cases found : valueIn name line with
    | none => simp [fieldValues, found]
    | some value => simp [fieldValues, found]

/-- The last transfer coding decides, then the last length. -/
theorem framingOf_eq (lines : List Bytes) :
    framingOf lines =
      if lower ((transferEncodings lines).getLast?.getD []) = lit "chunked" then .ok .chunked
      else
        (contentLengths lines).getLast?.elim (.ok .untilClose) fun text =>
          (intOfStr text).map .contentLength := by
  unfold framingOf framing
  rw [lookup_headers, lookup_headers]
  congr 1
  cases (contentLengths lines).getLast? with
  | none => rfl
  | some text =>
    simp only [Option.elim_some]
    cases intOfStr text with
    | ok n => rfl
    | error e => rfl

/-- `http_get` reads the body in the framing of its header lines. -/
theorem httpGet_framed (s : Socket) {first : Bytes} {lines : List Bytes}
    (split : splitAll crlf (by decide) (headOf (unread s)) = first :: lines) :
    httpGet s = (do
      let (status, reason) ← parseStatusLine first
      let f ← framingOf lines
      let body ← readBody (prefetched s) (behindHead s) f
      return ⟨status, reason, lines.foldl addHeader ∅, body⟩) := by
  rw [httpGet_eq, parseHead, split]
  dsimp only
  cases parseStatusLine first with
  | error e => rfl
  | ok status => rfl

/-- The three ways a framing is chosen. -/
theorem framingOf_cases (lines : List Bytes) :
    (∃ v, (transferEncodings lines).getLast? = some v ∧ lower v = lit "chunked" ∧
      framingOf lines = .ok .chunked) ∨
    (∀ v, (transferEncodings lines).getLast? = some v → lower v ≠ lit "chunked") ∧
      ((∃ w, (contentLengths lines).getLast? = some w ∧
          framingOf lines = (intOfStr w).map .contentLength) ∨
        contentLengths lines = [] ∧ framingOf lines = .ok .untilClose) := by
  rw [framingOf_eq]
  by_cases chunked : lower ((transferEncodings lines).getLast?.getD []) = lit "chunked"
  · left
    rw [if_pos chunked]
    cases last : (transferEncodings lines).getLast? with
    | none =>
      rw [last] at chunked
      -- Without the field the value is empty, which is not `chunked`.
      exact absurd chunked (by decide)
    | some v =>
      rw [last] at chunked
      exact ⟨v, rfl, chunked, rfl⟩
  · right
    rw [if_neg chunked]
    refine ⟨?_, ?_⟩
    · intro v last
      rw [last] at chunked
      exact chunked
    · cases last : (contentLengths lines).getLast? with
      | none => exact .inr ⟨List.getLast?_eq_none_iff.mp last, rfl⟩
      | some w => exact .inl ⟨w, rfl, rfl⟩

section Choice

variable {lines : List Bytes} {v w : Str}

theorem framingOf_chunked (last : (transferEncodings lines).getLast? = some v)
    (chunked : lower v = lit "chunked") : framingOf lines = .ok .chunked := by
  rw [framingOf_eq, last, Option.getD_some, if_pos chunked]

theorem framingOf_length (notChunked : lower ((transferEncodings lines).getLast?.getD []) ≠ lit "chunked")
    (last : (contentLengths lines).getLast? = some w) :
    framingOf lines = (intOfStr w).map .contentLength := by
  rw [framingOf_eq, if_neg notChunked, last, Option.elim_some]

theorem framingOf_ne_chunked
    (notChunked : lower ((transferEncodings lines).getLast?.getD []) ≠ lit "chunked") :
    framingOf lines ≠ .ok .chunked := by
  rw [framingOf_eq, if_neg notChunked]
  cases (contentLengths lines).getLast? with
  | none => simp
  | some w =>
    rw [Option.elim_some]
    cases intOfStr w with
    | ok n => simp [Except.map]
    | error e => simp [Except.map]

theorem framingOf_untilClose
    (notChunked : lower ((transferEncodings lines).getLast?.getD []) ≠ lit "chunked")
    (none : contentLengths lines = []) : framingOf lines = .ok .untilClose := by
  rw [framingOf_eq, if_neg notChunked, none]
  rfl

end Choice

/-! ## Rearranging -/

theorem mem_fieldValues {name value : Str} {lines : List Bytes} :
    value ∈ fieldValues name lines ↔ ∃ line ∈ lines, valueIn name line = some value :=
  List.mem_filterMap

theorem mem_of_rearranged {lines others : List Bytes} (same : Rearranged lines others)
    (name value : Str) : value ∈ fieldValues name lines ↔ value ∈ fieldValues name others := by
  simp only [mem_fieldValues, same _]

theorem eq_nil_of_rearranged {lines others : List Bytes} (same : Rearranged lines others)
    (name : Str) : fieldValues name lines = [] ↔ fieldValues name others = [] := by
  simp only [List.eq_nil_iff_forall_not_mem, mem_of_rearranged same]

theorem rearranged_append {lines more : List Bytes} (listed : ∀ line ∈ more, line ∈ lines) :
    Rearranged lines (lines ++ more) := by
  intro line
  rw [List.mem_append]
  constructor
  · exact .inl
  · rintro (old | again)
    · exact old
    · exact listed line again

/-- A line has one name. -/
theorem valueIn_other {name other value : Str} {line : Bytes} (different : name ≠ other)
    (found : valueIn name line = some value) : valueIn other line = none := by
  unfold valueIn at found ⊢
  cases field : fieldOf line with
  | none => rfl
  | some entry =>
    rw [field] at found
    by_cases same : entry.1 = name
    · have notOther : entry.1 ≠ other := fun isOther => different (same.symm.trans isOther)
      simp [Option.filter, notOther]
    · simp [Option.filter, same] at found

theorem getLast?_fieldValues_concat {name value : Str} {line : Bytes} (lines : List Bytes)
    (found : valueIn name line = some value) :
    (fieldValues name (lines ++ [line])).getLast? = some value := by
  simp [fieldValues, found]

theorem fieldValues_concat_other {name : Str} {line : Bytes} (lines : List Bytes)
    (absent : valueIn name line = none) :
    fieldValues name (lines ++ [line]) = fieldValues name lines := by
  simp [fieldValues, absent]

/-! ## Codings -/

theorem intOfStr_error {text : Str} {e : PyError} (failed : intOfStr text = .error e) :
    e = .valueError := by
  unfold intOfStr at failed
  split at failed
  · cases failed
  · cases failed
    rfl

theorem lower_space {c : Char} (space : isSpace c = true) : lowerLatin1 c = c := by
  simp only [isSpace, Bool.or_eq_true, Bool.and_eq_true, decide_eq_true_eq, beq_iff_eq] at space
  exact if_neg (by omega)

theorem codings_of_single {v : Str} (single : lower v = lit "chunked") :
    codings v = [lit "chunked"] := by
  have spelled : ∀ c ∈ v, lowerLatin1 c ∈ lit "chunked" := by
    intro c member
    rw [← single]
    exact List.mem_map_of_mem member
  have noComma : ',' ∉ v := by
    intro member
    have notLetter : lowerLatin1 ',' ∉ lit "chunked" := by decide +kernel
    exact notLetter (spelled ',' member)
  have noSpace : ∀ c ∈ v, isSpace c = false := by
    intro c member
    by_contra space
    have letter := spelled c member
    have isSpaceC : isSpace c = true := by simpa using space
    -- A blank is its own lower case, and `chunked` has none.
    rw [lower_space isSpaceC] at letter
    have letters : lit "chunked" = ['c', 'h', 'u', 'n', 'k', 'e', 'd'] := by decide
    have none : ∀ letter ∈ lit "chunked", isSpace letter = false := by simp [letters, isSpace]
    rw [none c letter] at isSpaceC
    cases isSpaceC
  have stripped : stripBy isSpace v = v :=
    stripBy_eq_self (fun c head => noSpace c (List.mem_of_mem_head? head))
      (fun c last => noSpace c (List.mem_of_mem_getLast? last))
  have whole : v.splitOn ',' = [v] := List.splitOn_eq_singleton noComma
  rw [codings, whole, List.map_singleton, stripped, single]
  decide

theorem endsChunked_concat (values : List Str) (v : Str) :
    EndsChunked (values ++ [v]) ↔ (codings v = [] ∧ EndsChunked values) ∨
      (codings v).getLast? = some (lit "chunked") := by
  unfold EndsChunked
  rw [List.flatMap_append, List.flatMap_singleton, List.getLast?_append]
  cases last : (codings v).getLast? with
  | none => simp [List.getLast?_eq_none_iff.mp last]
  | some coding =>
    have nonempty : codings v ≠ [] := by
      intro empty
      rw [empty] at last
      cases last
    simp [nonempty]

/-- Somewhere a value ends with `chunked`. -/
theorem exists_of_endsChunked {values : List Str} (ends : EndsChunked values) :
    ∃ v ∈ values, (codings v).getLast? = some (lit "chunked") := by
  induction values using List.reverseRecOn with
  | nil => simp [EndsChunked] at ends
  | append_singleton values v ih =>
    rcases (endsChunked_concat values v).mp ends with ⟨-, earlier⟩ | last
    · obtain ⟨u, member, found⟩ := ih earlier
      exact ⟨u, by simp [member], found⟩
    · exact ⟨v, by simp, last⟩

/-! ## What an unambiguous head must be -/

section Necessary

variable {lines : List Bytes}

theorem lengths_agree (unambiguous : Unambiguous lines) (none : transferEncodings lines = []) :
    ∀ v ∈ contentLengths lines, ∀ w ∈ contentLengths lines, intOfStr v = intOfStr w := by
  -- a length that can be read, put last, is used although another one differs
  have agree : ∀ v ∈ contentLengths lines, ∀ w ∈ contentLengths lines, ∀ n,
      intOfStr v = .ok n → intOfStr v = intOfStr w := by
    intro v isV w isW n reads
    by_contra differ
    obtain ⟨line, listed, found⟩ := mem_fieldValues.mp isV
    have same : Rearranged lines (lines ++ [line]) := rearranged_append (by simpa using listed)
    have noCoding : transferEncodings (lines ++ [line]) = [] :=
      (eq_nil_of_rearranged same _).mp none
    have chosen := framingOf_length (by rw [noCoding]; decide)
      (getLast?_fieldValues_concat lines found)
    rw [reads] at chosen
    obtain ⟨e, raised⟩ := (unambiguous.wellFramed _ same).agreed (by simp [noCoding, EndsChunked]) v
      ((mem_of_rearranged same _ _).mp isV) w ((mem_of_rearranged same _ _).mp isW) differ
    rw [chosen] at raised
    cases raised
  intro v isV w isW
  cases first : intOfStr v with
  | ok n => exact first.symm.trans (agree v isV w isW n first)
  | error e =>
    cases second : intOfStr w with
    | ok n => exact first.symm.trans ((agree w isW v isV n second).symm.trans second)
    | error e' => rw [intOfStr_error first, intOfStr_error second]

variable {line : Bytes} {v : Str}

theorem codingName_ne : lit "transfer-encoding" ≠ lit "content-length" := by decide

/-- With the line of another coding last, the lengths decide. -/
theorem notChunked_concat (found : valueIn (lit "transfer-encoding") line = some v)
    (other : lower v ≠ lit "chunked") :
    lower ((transferEncodings (lines ++ [line])).getLast?.getD []) ≠ lit "chunked" := by
  rw [getLast?_fieldValues_concat lines found]
  exact other

theorem noNumber_of_unambiguous (unambiguous : Unambiguous lines)
    (isV : v ∈ transferEncodings lines) (other : lower v ≠ lit "chunked") :
    ∀ w ∈ contentLengths lines, ∀ n, intOfStr w ≠ .ok n := by
  intro w isW n reads
  obtain ⟨line, listed, found⟩ := mem_fieldValues.mp isV
  obtain ⟨length, lengthListed, lengthFound⟩ := mem_fieldValues.mp isW
  have same : Rearranged lines (lines ++ [length] ++ [line]) := by
    rw [List.append_assoc]
    refine rearranged_append ?_
    simp [listed, lengthListed]
  have last : (contentLengths (lines ++ [length] ++ [line])).getLast? = some w := by
    rw [contentLengths, fieldValues_concat_other _ (valueIn_other codingName_ne found)]
    exact getLast?_fieldValues_concat lines lengthFound
  have chosen := framingOf_length (notChunked_concat found other) last
  rw [reads] at chosen
  have none := (unambiguous.wellFramed _ same).lengthAlone n chosen
  rw [← eq_nil_of_rearranged same] at none
  rw [transferEncodings, none] at isV
  cases isV

theorem single_of_unambiguous (unambiguous : Unambiguous lines) (isV : v ∈ transferEncodings lines)
    (ends : (codings v).getLast? = some (lit "chunked")) : lower v = lit "chunked" := by
  by_contra other
  obtain ⟨line, listed, found⟩ := mem_fieldValues.mp isV
  have same : Rearranged lines (lines ++ [line]) := rearranged_append (by simpa using listed)
  have endsToo : EndsChunked (transferEncodings (lines ++ [line])) := by
    have values : transferEncodings (lines ++ [line]) = transferEncodings lines ++ [v] := by
      simp [fieldValues, found]
    rw [values, endsChunked_concat]
    exact .inr ends
  exact framingOf_ne_chunked (notChunked_concat found other)
    ((unambiguous.wellFramed _ same).chunked endsToo)

/-- A value that is `chunked` by itself, beside another one. -/
theorem besides_of_unambiguous {u : Str} (unambiguous : Unambiguous lines)
    (isU : u ∈ transferEncodings lines) (isChunked : lower u = lit "chunked")
    (isV : v ∈ transferEncodings lines) (other : lower v ≠ lit "chunked") :
    contentLengths lines ≠ [] ∧ ∀ w ∈ transferEncodings lines, codings w ≠ [] := by
  obtain ⟨line, listed, found⟩ := mem_fieldValues.mp isU
  have chunkedLast : Rearranged lines (lines ++ [line]) :=
    rearranged_append (by simpa using listed)
  constructor
  · -- without a length the other value, put last, has the body read to the end
    intro none
    obtain ⟨otherLine, otherListed, otherFound⟩ := mem_fieldValues.mp isV
    have otherLast : Rearranged lines (lines ++ [otherLine]) :=
      rearranged_append (by simpa using otherListed)
    have first := framingOf_chunked (getLast?_fieldValues_concat lines found) isChunked
    have second := framingOf_untilClose (notChunked_concat otherFound other)
      ((eq_nil_of_rearranged otherLast _).mp none)
    have same := unambiguous.samePlace _ _ chunkedLast otherLast _ _ first second
    cases same
  · -- a blank value behind `chunked` hides it
    intro w isW blank
    obtain ⟨blankLine, blankListed, blankFound⟩ := mem_fieldValues.mp isW
    have blankLast : Rearranged lines (lines ++ [line] ++ [blankLine]) := by
      rw [List.append_assoc]
      refine rearranged_append ?_
      simp [listed, blankListed]
    have notSingle : lower w ≠ lit "chunked" := by
      intro single
      rw [codings_of_single single] at blank
      cases blank
    have ends : EndsChunked (transferEncodings (lines ++ [line] ++ [blankLine])) := by
      have values : transferEncodings (lines ++ [line] ++ [blankLine]) =
          transferEncodings lines ++ [u] ++ [w] := by
        simp [fieldValues, found, blankFound]
      rw [values, endsChunked_concat, endsChunked_concat, codings_of_single isChunked]
      exact .inl ⟨blank, .inr rfl⟩
    exact framingOf_ne_chunked (notChunked_concat blankFound notSingle)
      ((unambiguous.wellFramed _ blankLast).chunked ends)

end Necessary

/-! ## What is enough -/

section Sufficient

variable {lines others : List Bytes}

theorem wellFramed_of_lengthsOnly (only : LengthsOnly lines) (same : Rearranged lines others) :
    WellFramed others := by
  have none := (eq_nil_of_rearranged same _).mp only.1
  refine ⟨?_, fun _ _ => none, ?_⟩
  · intro ends
    rw [transferEncodings, none] at ends
    simp [EndsChunked] at ends
  · intro _ v isV w isW differ
    exact absurd (only.2 v ((mem_of_rearranged same _ _).mpr isV) w
      ((mem_of_rearranged same _ _).mpr isW)) differ

theorem framingOf_of_chunkedOnly (only : ChunkedOnly lines) (same : Rearranged lines others) :
    framingOf others = .ok .chunked := by
  have present := (eq_nil_of_rearranged same _).not.mp only.1
  obtain ⟨v, last⟩ := Option.ne_none_iff_exists'.mp (mt List.getLast?_eq_none_iff.mp present)
  have isV := (mem_of_rearranged same _ _).mpr (List.mem_of_getLast? last)
  exact framingOf_chunked last (only.2 v isV)

theorem wellFramed_of_chunkedOnly (only : ChunkedOnly lines) (same : Rearranged lines others) :
    WellFramed others := by
  have chosen := framingOf_of_chunkedOnly only same
  refine ⟨fun _ => chosen, ?_, ?_⟩
  · intro n length
    rw [chosen] at length
    cases length
  · intro notEnds
    have present := (eq_nil_of_rearranged same _).not.mp only.1
    obtain ⟨values, v, split⟩ := List.eq_nil_or_concat' _ |>.resolve_left present
    have isLast : v ∈ transferEncodings others := by
      rw [transferEncodings, split]
      simp
    have isV := (mem_of_rearranged same _ v).mpr isLast
    refine absurd ?_ notEnds
    rw [transferEncodings, split, endsChunked_concat, codings_of_single (only.2 v isV)]
    exact .inr rfl

theorem noLength_rearranged (noLength : NoLength lines) (same : Rearranged lines others) :
    NoLength others where
  present := (eq_nil_of_rearranged same _).not.mp noLength.present
  noNumber := fun w isW => noLength.noNumber w ((mem_of_rearranged same _ _).mpr isW)
  single := fun v isV => noLength.single v ((mem_of_rearranged same _ _).mpr isV)
  besides := by
    rintro ⟨u, isU, isChunked⟩
    obtain ⟨someLength, noBlank⟩ :=
      noLength.besides ⟨u, (mem_of_rearranged same _ _).mpr isU, isChunked⟩
    exact ⟨(eq_nil_of_rearranged same _).not.mp someLength,
      fun w isW => noBlank w ((mem_of_rearranged same _ _).mpr isW)⟩

/-- Without a number among the lengths the body is chunked or read to the end. -/
theorem NoLength.cases (noLength : NoLength lines) {f : Framing} (chosen : framingOf lines = .ok f) :
    (f = .chunked ∧ ∃ v ∈ transferEncodings lines, lower v = lit "chunked") ∨
      f = .untilClose ∧ contentLengths lines = [] := by
  rcases framingOf_cases lines with ⟨v, last, chunked, isChunked⟩ |
    ⟨-, ⟨w, last, isLength⟩ | ⟨none, isOpen⟩⟩
  · rw [isChunked] at chosen
    cases chosen
    exact .inl ⟨rfl, v, List.mem_of_getLast? last, chunked⟩
  · cases reads : intOfStr w with
    | ok n => exact absurd reads (noLength.noNumber w (List.mem_of_getLast? last) n)
    | error e =>
      rw [isLength, reads] at chosen
      cases chosen
  · rw [isOpen] at chosen
    cases chosen
    exact .inr ⟨rfl, none⟩

theorem wellFramed_of_noLength (noLength : NoLength lines) : WellFramed lines := by
  refine ⟨?_, ?_, ?_⟩
  · intro ends
    obtain ⟨values, v, split⟩ := List.eq_nil_or_concat' _ |>.resolve_left noLength.present
    have isV : v ∈ transferEncodings lines := by
      rw [split]
      simp
    have last : (transferEncodings lines).getLast? = some v := by
      rw [split]
      simp
    refine framingOf_chunked last ?_
    rw [split] at ends
    rcases (endsChunked_concat values v).mp ends with ⟨blank, earlier⟩ | endsLast
    · -- an earlier value is `chunked`, so the last one is not blank
      obtain ⟨u, isU, endsU⟩ := exists_of_endsChunked earlier
      have listed : u ∈ transferEncodings lines := by
        rw [split]
        simp [isU]
      exact absurd blank ((noLength.besides ⟨u, listed, noLength.single u listed endsU⟩).2 v isV)
    · exact noLength.single v isV endsLast
  · intro n chosen
    rcases noLength.cases chosen with ⟨isChunked, -⟩ | ⟨isOpen, -⟩
    · cases isChunked
    · cases isOpen
  · intro _ v isV w isW differ
    -- No value is a number, so any two raise the same error.
    cases first : intOfStr v with
    | ok n => exact absurd first (noLength.noNumber v isV n)
    | error e =>
      cases second : intOfStr w with
      | ok n => exact absurd second (noLength.noNumber w isW n)
      | error e' => exact absurd (by rw [first, second, intOfStr_error first, intOfStr_error second]) differ

theorem unambiguous_of_lengthsOnly (only : LengthsOnly lines) : Unambiguous lines := by
  refine ⟨fun others same => wellFramed_of_lengthsOnly only same, ?_⟩
  intro first second sameFirst sameSecond f g chosenFirst chosenSecond
  -- each arrangement uses one of the lengths, and they all read the same
  have choice : ∀ others, Rearranged lines others → ∀ f, framingOf others = .ok f →
      (contentLengths lines = [] ∧ f = .untilClose) ∨
      ∃ w ∈ contentLengths lines, (intOfStr w).map .contentLength = .ok f := by
    intro others same f chosen
    have none := (eq_nil_of_rearranged same _).mp only.1
    rcases framingOf_cases others with ⟨v, last, -⟩ | ⟨-, ⟨w, last, isLength⟩ | ⟨noLength, isOpen⟩⟩
    · rw [transferEncodings, none] at last
      cases last
    · refine .inr ⟨w, (mem_of_rearranged same _ _).mpr (List.mem_of_getLast? last), ?_⟩
      exact isLength.symm.trans chosen
    · rw [isOpen] at chosen
      cases chosen
      exact .inl ⟨(eq_nil_of_rearranged same _).mpr noLength, rfl⟩
  rcases choice first sameFirst f chosenFirst with ⟨none, rfl⟩ | ⟨v, isV, readsV⟩
  · rcases choice second sameSecond g chosenSecond with ⟨-, rfl⟩ | ⟨w, isW, -⟩
    · rfl
    · rw [none] at isW
      cases isW
  · rcases choice second sameSecond g chosenSecond with ⟨none, -⟩ | ⟨w, isW, readsW⟩
    · rw [none] at isV
      cases isV
    · rw [only.2 v isV w isW] at readsV
      exact Except.ok.inj (readsV.symm.trans readsW)

theorem unambiguous_of_chunkedOnly (only : ChunkedOnly lines) : Unambiguous lines := by
  refine ⟨fun others same => wellFramed_of_chunkedOnly only same, ?_⟩
  intro first second sameFirst sameSecond f g chosenFirst chosenSecond
  rw [framingOf_of_chunkedOnly only sameFirst] at chosenFirst
  rw [framingOf_of_chunkedOnly only sameSecond] at chosenSecond
  exact Except.ok.inj (chosenFirst.symm.trans chosenSecond)

theorem unambiguous_of_noLength (noLength : NoLength lines) : Unambiguous lines := by
  refine ⟨fun others same => wellFramed_of_noLength (noLength_rearranged noLength same), ?_⟩
  intro first second sameFirst sameSecond f g chosenFirst chosenSecond
  have atFirst := noLength_rearranged noLength sameFirst
  have atSecond := noLength_rearranged noLength sameSecond
  have across (name : Str) : fieldValues name first = [] ↔ fieldValues name second = [] :=
    (eq_nil_of_rearranged sameFirst name).symm.trans (eq_nil_of_rearranged sameSecond name)
  rcases atFirst.cases chosenFirst with ⟨rfl, single⟩ | ⟨rfl, none⟩
  · rcases atSecond.cases chosenSecond with ⟨rfl, -⟩ | ⟨-, noneSecond⟩
    · rfl
    · exact absurd ((across _).mpr noneSecond) (atFirst.besides single).1
  · rcases atSecond.cases chosenSecond with ⟨-, single⟩ | ⟨rfl, -⟩
    · exact absurd ((across _).mp none) (atSecond.besides single).1
    · rfl

end Sufficient

/-- `http_get` reads the body in the framing of its header lines, and these choose it
    unambiguously exactly when they have only lengths that agree, only transfer codings
    that are `chunked`, or other transfer codings that no length competes with. -/
theorem framing_unambiguous_iff (lines : List Bytes) :
    (∀ (s : Socket) (first : Bytes),
      splitAll crlf (by decide) (headOf (unread s)) = first :: lines →
      httpGet s = (do
        let (status, reason) ← parseStatusLine first
        let f ← framingOf lines
        let body ← readBody (prefetched s) (behindHead s) f
        return ⟨status, reason, lines.foldl addHeader ∅, body⟩)) ∧
    (Unambiguous lines ↔ LengthsOnly lines ∨ ChunkedOnly lines ∨ NoLength lines) := by
  refine ⟨fun s first split => httpGet_framed s split, ?_, ?_⟩
  · intro unambiguous
    by_cases none : transferEncodings lines = []
    · exact .inl ⟨none, lengths_agree unambiguous none⟩
    · by_cases all : ∀ v ∈ transferEncodings lines, lower v = lit "chunked"
      · exact .inr (.inl ⟨none, all⟩)
      -- A transfer coding that is not `chunked`: then there is no usable length beside it.
      · simp only [not_forall] at all
        obtain ⟨v, isV, other⟩ := all
        refine .inr (.inr ⟨none, noNumber_of_unambiguous unambiguous isV other,
          fun u isU ends => single_of_unambiguous unambiguous isU ends, ?_⟩)
        rintro ⟨u, isU, isChunked⟩
        exact besides_of_unambiguous unambiguous isU isChunked isV other
  · rintro (lengths | chunked | noLength)
    · exact unambiguous_of_lengthsOnly lengths
    · exact unambiguous_of_chunkedOnly chunked
    · exact unambiguous_of_noLength noLength

/-- The body is chunked and cut at five bytes instead. -/
def gzipChunked : List Bytes :=
  [bytesLit "Transfer-Encoding: gzip, chunked", bytesLit "Content-Length: 5"]

/-- The last of two lengths wins. -/
def twoLengths : List Bytes := [bytesLit "Content-Length: 5", bytesLit "Content-Length: 6"]

theorem framing_ambiguous :
    EndsChunked (transferEncodings gzipChunked) ∧ framingOf gzipChunked = .ok (.contentLength 5) ∧
    framingOf twoLengths = .ok (.contentLength 6) ∧
    framingOf twoLengths.reverse = .ok (.contentLength 5) ∧
    ¬ Unambiguous gzipChunked ∧ ¬ Unambiguous twoLengths := by
  have ends : EndsChunked (transferEncodings gzipChunked) := by
    unfold EndsChunked
    decide +kernel
  have chosen : framingOf gzipChunked = .ok (.contentLength 5) := by decide +kernel
  have forward : framingOf twoLengths = .ok (.contentLength 6) := by decide +kernel
  have backward : framingOf twoLengths.reverse = .ok (.contentLength 5) := by decide +kernel
  refine ⟨ends, chosen, forward, backward, ?_, ?_⟩
  · intro unambiguous
    have chunked := (unambiguous.wellFramed gzipChunked fun _ => Iff.rfl).chunked ends
    rw [chosen] at chunked
    cases chunked
  · intro unambiguous
    have same := unambiguous.samePlace twoLengths twoLengths.reverse (fun _ => Iff.rfl)
      (fun _ => List.mem_reverse.symm) _ _ forward backward
    cases same

end Excalibur.Http
