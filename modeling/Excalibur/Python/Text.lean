import Excalibur.Python.IntParse

/-! # Lines, words and tallies

`str.splitlines`, `str.split` and `str.strip` without arguments, `str.isdigit`, and the
dictionaries that programs count with.

What a program that reads tables sees of a text are its `rows`: the words of each line
that has any.  Blank lines, the spelling of the line breaks and white space at the ends of
the text or of a line do not show in them, and the rows of two texts that are joined at a
line boundary are those of the one and then those of the other.
-/

namespace Excalibur.Python

/-! ## Lines and words -/

def isLineBreak (c : Char) : Bool :=
  (10 ≤ c.toNat && c.toNat ≤ 13) || (28 ≤ c.toNat && c.toNat ≤ 30) || c.toNat == 133 ||
    c.toNat == 8232 || c.toNat == 8233

/-- `text.splitlines()`. -/
def splitLines : Str → List Str
  | [] => []
  | '\r' :: '\n' :: rest => [] :: splitLines rest
  | c :: rest =>
    if isLineBreak c then [] :: splitLines rest
    else
      match splitLines rest with
      | [] => [[c]]
      | line :: lines => (c :: line) :: lines

/-- `text.split()`. -/
def words (text : Str) : List Str := (text.splitOnP isSpace).filter fun word => word ≠ []

def strip (text : Str) : Str := stripBy isSpace text

/-- `text.rstrip(c)` -/
def rstrip (c : Char) (text : Str) : Str := (text.reverse.dropWhile fun d => d == c).reverse

/-- Code points that are digits to `isdigit` and not to `int`: superscripts, circled digits
    and the like. -/
def otherDigits : List (Nat × Nat) :=
  [(0xb2, 0xb3), (0xb9, 0xb9), (0x1369, 0x1371), (0x19da, 0x19da), (0x2070, 0x2070),
   (0x2074, 0x2079), (0x2080, 0x2089), (0x2460, 0x2468), (0x2474, 0x247c), (0x2488, 0x2490),
   (0x24ea, 0x24ea), (0x24f5, 0x24fd), (0x24ff, 0x24ff), (0x2776, 0x277e), (0x2780, 0x2788),
   (0x278a, 0x2792), (0x10a40, 0x10a43), (0x10e60, 0x10e68), (0x11052, 0x1105a),
   (0x1f100, 0x1f10a)]

def isDigitChar (c : Char) : Bool :=
  (decimalZeros.any fun first => first ≤ c.toNat && c.toNat < first + 10) ||
    otherDigits.any fun range => range.1 ≤ c.toNat && c.toNat ≤ range.2

/-- `text.isdigit()` -/
def isDigit (text : Str) : Bool := !text.isEmpty && text.all isDigitChar

theorem words_nil : words [] = [] := by
  rw [words, List.splitOnP_nil]
  rfl

theorem words_append_space {c : Char} (space : isSpace c = true) (before after : Str) :
    words (before ++ c :: after) = words before ++ words after := by
  rw [words, List.splitOnP_append_cons before after space, List.filter_append, words, words]

theorem words_cons_space {c : Char} (space : isSpace c = true) (text : Str) :
    words (c :: text) = words text :=
  words_append_space space [] text

theorem words_concat_space {c : Char} (space : isSpace c = true) (text : Str) :
    words (text ++ [c]) = words text := by
  rw [words_append_space space, words_nil, List.append_nil]

theorem stripBy_invariant {α β : Type} {space : α → Bool} {f : List α → β}
    (front : ∀ c items, space c = true → f (c :: items) = f items)
    (back : ∀ c items, space c = true → f (items ++ [c]) = f items) (items : List α) :
    f (stripBy space items) = f items := by
  have dropFront : ∀ items : List α, f (items.dropWhile space) = f items := by
    intro items
    induction items with
    | nil => rfl
    | cons c items ih =>
      by_cases isSpace : space c = true
      · rw [List.dropWhile_cons_of_pos isSpace, ih, front c items isSpace]
      · rw [List.dropWhile_cons_of_neg isSpace]
  have dropBack : ∀ items : List α, f (items.dropWhile space).reverse = f items.reverse := by
    intro items
    induction items with
    | nil => rfl
    | cons c items ih =>
      by_cases isSpace : space c = true
      · rw [List.dropWhile_cons_of_pos isSpace, ih, List.reverse_cons, back c _ isSpace]
      · rw [List.dropWhile_cons_of_neg isSpace]
  rw [stripBy, dropBack, List.reverse_reverse, dropFront]

/-! ## Rows -/

def nonblank (lines : List Str) : List (List Str) := (lines.map words).filter fun row => row ≠ []

def rows (text : Str) : List (List Str) := nonblank (splitLines text)

theorem nonblank_cons_of_blank {line : Str} (blank : words line = []) (lines : List Str) :
    nonblank (line :: lines) = nonblank lines := by
  simp [nonblank, blank]

theorem nonblank_cons_congr {line other : Str} (same : words line = words other)
    {lines others : List Str} (rest : nonblank lines = nonblank others) :
    nonblank (line :: lines) = nonblank (other :: others) := by
  unfold nonblank at rest ⊢
  rw [List.map_cons, List.map_cons, same, List.filter_cons, List.filter_cons, rest]

theorem nonblank_append (lines others : List Str) :
    nonblank (lines ++ others) = nonblank lines ++ nonblank others := by
  rw [nonblank, List.map_append, List.filter_append, nonblank, nonblank]

/-- Cut at every single break, the text has the same first line, and the same rows behind it. -/
def CutAlike (text : Str) : Prop :=
  ∃ line lines pieces, splitLines text = line :: lines ∧
    text.splitOnP isLineBreak = line :: pieces ∧ nonblank lines = nonblank pieces

theorem rows_of_cutAlike {text : Str} (alike : text ≠ [] → CutAlike text) :
    rows text = nonblank (text.splitOnP isLineBreak) := by
  by_cases empty : text = []
  · rw [empty, List.splitOnP_nil, nonblank_cons_of_blank words_nil]
    rfl
  · obtain ⟨line, lines, pieces, isLines, isPieces, same⟩ := alike empty
    rw [rows, isLines, isPieces]
    exact nonblank_cons_congr rfl same

theorem cutAlike {text : Str} (nonempty : text ≠ []) : CutAlike text := by
  induction text using splitLines.induct with
  | case1 => exact absurd rfl nonempty
  | case2 rest ih =>
    have second : ('\n' :: rest).splitOnP isLineBreak = [] :: rest.splitOnP isLineBreak :=
      List.splitOnP_append_cons [] rest (by decide)
    refine ⟨[], splitLines rest, [] :: rest.splitOnP isLineBreak, rfl, ?_, ?_⟩
    · rw [← second]
      exact List.splitOnP_append_cons [] ('\n' :: rest) (by decide)
    · rw [nonblank_cons_of_blank words_nil]
      exact rows_of_cutAlike ih
  | case3 c rest single lineBreak ih =>
    refine ⟨[], splitLines rest, rest.splitOnP isLineBreak, ?_, ?_, rows_of_cutAlike ih⟩
    · rw [splitLines, if_pos lineBreak]
      exact single
    · exact List.splitOnP_append_cons [] rest lineBreak
  | case4 c rest single inside ends ih =>
    -- the last line of a text that ends without a break
    obtain rfl : rest = [] := by
      by_contra more
      obtain ⟨line, lines, pieces, isLines, -, -⟩ := ih more
      rw [ends] at isLines
      cases isLines
    refine ⟨[c], [], [], ?_, ?_, rfl⟩
    · rw [splitLines, if_neg inside]
      · rfl
      · exact single
    · exact List.splitOnP_eq_singleton (by simpa using inside)
  | case5 c rest single inside line lines split ih =>
    have more : rest ≠ [] := by
      rintro rfl
      cases split
    obtain ⟨first, others, pieces, isLines, isPieces, same⟩ := ih more
    cases split.symm.trans isLines
    refine ⟨c :: line, lines, pieces, ?_, ?_, same⟩
    · rw [splitLines, if_neg inside, split]
      exact single
    · rw [List.splitOnP_cons_eq_if_modifyHead, if_neg inside, isPieces, List.modifyHead_cons]

theorem rows_eq (text : Str) : rows text = nonblank (text.splitOnP isLineBreak) :=
  rows_of_cutAlike cutAlike

/-! ### Joining and stripping -/

theorem rows_append_break {c : Char} (lineBreak : isLineBreak c = true) (before after : Str) :
    rows (before ++ c :: after) = rows before ++ rows after := by
  rw [rows_eq, List.splitOnP_append_cons before after lineBreak, nonblank_append, rows_eq, rows_eq]

/-- The place between two texts is one between two lines. -/
def LineBoundary (first second : Str) : Prop :=
  (∀ last ∈ first.getLast?, isLineBreak last = true) ∨ ∀ next ∈ second.head?, isLineBreak next = true

theorem rows_nil : rows [] = [] := rfl

theorem rows_append {first second : Str} (boundary : LineBoundary first second) :
    rows (first ++ second) = rows first ++ rows second := by
  rcases boundary with ends | starts
  · rcases List.eq_nil_or_concat' first with rfl | ⟨init, last, rfl⟩
    · rfl
    · have lineBreak := ends last (by simp)
      rw [List.append_assoc, List.singleton_append, rows_append_break lineBreak,
        rows_append_break lineBreak, rows_nil, List.append_nil]
  · cases second with
    | nil => rw [List.append_nil, rows_nil, List.append_nil]
    | cons next rest =>
      have lineBreak := starts next rfl
      have alone : rows (next :: rest) = rows rest := rows_append_break lineBreak [] rest
      rw [rows_append_break lineBreak, alone]

theorem rows_cons_space {c : Char} (space : isSpace c = true) (text : Str) :
    rows (c :: text) = rows text := by
  by_cases lineBreak : isLineBreak c = true
  · exact rows_append_break lineBreak [] text
  · obtain ⟨piece, pieces, split⟩ := List.exists_cons_of_ne_nil (List.splitOnP_ne_nil isLineBreak text)
    rw [rows_eq, rows_eq, List.splitOnP_cons_eq_if_modifyHead, if_neg lineBreak, split,
      List.modifyHead_cons]
    exact nonblank_cons_congr (words_cons_space space piece) rfl

/-- A character that is no break is added to the last piece. -/
theorem splitOnP_concat {c : Char} (inside : ¬ isLineBreak c = true) (text : Str) :
    ∃ pieces last, text.splitOnP isLineBreak = pieces ++ [last] ∧
      (text ++ [c]).splitOnP isLineBreak = pieces ++ [last ++ [c]] := by
  induction text with
  | nil =>
    refine ⟨[], [], rfl, ?_⟩
    exact List.splitOnP_eq_singleton (by simpa using inside)
  | cons d text ih =>
    obtain ⟨pieces, last, split, extended⟩ := ih
    rw [List.cons_append, List.splitOnP_cons_eq_if_modifyHead, List.splitOnP_cons_eq_if_modifyHead,
      split, extended]
    by_cases lineBreak : isLineBreak d = true
    · refine ⟨[] :: pieces, last, ?_, ?_⟩ <;> rw [if_pos lineBreak, List.cons_append]
    · rw [if_neg lineBreak, if_neg lineBreak]
      cases pieces with
      | nil => exact ⟨[], d :: last, rfl, rfl⟩
      | cons piece pieces => exact ⟨(d :: piece) :: pieces, last, rfl, rfl⟩

theorem rows_concat_space {c : Char} (space : isSpace c = true) (text : Str) :
    rows (text ++ [c]) = rows text := by
  by_cases lineBreak : isLineBreak c = true
  · rw [rows_append_break lineBreak, rows_nil, List.append_nil]
  · obtain ⟨pieces, last, split, extended⟩ := splitOnP_concat lineBreak text
    rw [rows_eq, rows_eq, split, extended, nonblank_append, nonblank_append]
    congr 1
    exact nonblank_cons_congr (words_concat_space space last) rfl

theorem rows_strip (text : Str) : rows (strip text) = rows text :=
  stripBy_invariant (fun _ items space => rows_cons_space space items)
    (fun _ items space => rows_concat_space space items) text

example : splitLines (lit "a\r\nb\n\nc\n") = [lit "a", lit "b", [], lit "c"] := by decide
example : words (lit " 0:\tA  B ") = [lit "0:", lit "A", lit "B"] := by decide
example : isDigit (lit "12²") = true ∧ isDigit [] = false := by decide +kernel

/-! ## Tallies

`d.get(key, default)`, `sum(d.values())`, and the loop body
`d[key] = d.get(key, 0) + amount`.  `Tallies` says what such loops count. -/

section Tallies

variable {κ : Type} [DecidableEq κ]

def getDefault {υ : Type} (d : Dict κ υ) (key : κ) (default : υ) : υ := (d.lookup key).getD default

def sumValues (d : Dict κ Nat) : Nat := (d.entries.map fun item => item.2).sum

def increase (d : Dict κ Nat) (key : κ) (amount : Nat) : Dict κ Nat :=
  d.insert key (getDefault d key 0 + amount)

/-- The items of one dictionary added to another. -/
def increaseAll (total d : Dict κ Nat) : Dict κ Nat :=
  d.entries.foldl (fun total item => increase total item.1 item.2) total

theorem getDefault_increase (d : Dict κ Nat) (key other : κ) (amount : Nat) :
    getDefault (increase d key amount) other 0 =
      getDefault d other 0 + if other = key then amount else 0 := by
  unfold increase getDefault
  by_cases same : other = key
  · rw [same, AList.lookup_insert, if_pos rfl, Option.getD_some]
  · rw [AList.lookup_insert_ne same, if_neg same, Nat.add_zero]

theorem sumValues_insert (d : Dict κ Nat) (key : κ) (count : Nat) :
    sumValues (d.insert key count) = count + sumValues (d.erase key) := by
  rw [sumValues, AList.entries_insert, List.map_cons, List.sum_cons]
  rfl

theorem sumValues_eq_erase (d : Dict κ Nat) (key : κ) :
    sumValues d = getDefault d key 0 + sumValues (d.erase key) := by
  by_cases present : key ∈ d
  · obtain ⟨count, before, after, -, split, erased⟩ :=
      List.exists_of_kerase (AList.mem_keys.mp present)
    have entries : (d.erase key).entries = before ++ after := erased
    have found : d.lookup key = some count := by
      rw [← mem_entries_iff, split]
      exact List.mem_append_right _ List.mem_cons_self
    rw [sumValues, sumValues, entries, split, getDefault, found, Option.getD_some]
    simp only [List.map_append, List.map_cons, List.sum_append, List.sum_cons]
    omega
  · have entries : (d.erase key).entries = d.entries := List.kerase_of_notMem_keys present
    rw [sumValues, sumValues, entries, getDefault, AList.lookup_eq_none.mpr present,
      Option.getD_none, Nat.zero_add]

theorem sumValues_increase (d : Dict κ Nat) (key : κ) (amount : Nat) :
    sumValues (increase d key amount) = sumValues d + amount := by
  rw [increase, sumValues_insert, sumValues_eq_erase d key]
  omega

theorem sumValues_increaseAll (total d : Dict κ Nat) :
    sumValues (increaseAll total d) = sumValues total + sumValues d := by
  unfold increaseAll
  rw [sumValues, sumValues, sumValues]
  generalize d.entries = entries
  induction entries generalizing total with
  | nil => rfl
  | cons item entries ih =>
    have step := sumValues_increase total item.1 item.2
    rw [sumValues, sumValues] at step
    rw [List.foldl_cons, ih, step, List.map_cons, List.sum_cons, Nat.add_assoc]

theorem getDefault_increaseAll (total d : Dict κ Nat) (key : κ) :
    getDefault (increaseAll total d) key 0 = getDefault total key 0 + getDefault d key 0 := by
  obtain ⟨entries, distinct⟩ := d
  change getDefault (entries.foldl _ total) key 0 = _ + (entries.dlookup key).getD 0
  induction entries generalizing total with
  | nil => rfl
  | cons item entries ih =>
    obtain ⟨fresh, rest⟩ := List.nodupKeys_cons.mp distinct
    rw [List.foldl_cons, ih (increase total item.1 item.2) rest, getDefault_increase]
    by_cases same : key = item.1
    · rw [if_pos same, same, List.dlookup_cons_eq, List.dlookup_eq_none.mpr fresh]
      simp
    · rw [if_neg same, List.dlookup_cons_ne _ _ same, Nat.add_zero]

/-- The dictionary counts the occurrences of its keys in a list, and nothing else. -/
structure Tallies (counts : Dict κ Nat) (names : List κ) : Prop where
  total : sumValues counts = names.length
  each : ∀ name, getDefault counts name 0 = names.countP fun other => other = name

theorem tallies_empty : Tallies (∅ : Dict κ Nat) [] := ⟨rfl, fun _ => rfl⟩

theorem Tallies.increase {counts : Dict κ Nat} {names : List κ} (tallies : Tallies counts names)
    (name : κ) : Tallies (increase counts name 1) (names ++ [name]) := by
  constructor
  · rw [sumValues_increase, tallies.total, List.length_append, List.length_singleton]
  · intro other
    rw [getDefault_increase, tallies.each, List.countP_append, List.countP_singleton]
    simp only [decide_eq_true_eq, eq_comm (a := other)]

theorem Tallies.increaseAll {counts more : Dict κ Nat} {names others : List κ}
    (tallies : Tallies counts names) (rest : Tallies more others) :
    Tallies (increaseAll counts more) (names ++ others) := by
  constructor
  · rw [sumValues_increaseAll, tallies.total, rest.total, List.length_append]
  · intro name
    rw [getDefault_increaseAll, tallies.each, rest.each, List.countP_append]

end Tallies

end Excalibur.Python
