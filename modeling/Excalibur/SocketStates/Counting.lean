import Excalibur.Python.Text

/-! # Counting sockets by state

`parse_states` looks at the first column of a line to tell the data rows from the header
and from lines that are none, and then takes the fourth column of what is left.  A row
that is cut off before its fourth column gets past the first look.

What the loop does to the lines of a text it does to the rows of the text, so joining and
stripping texts is a matter of their rows.  `countRows_whole` and `countRows_cutOff` are the
two ways the loop can end.
-/

namespace Excalibur.SocketStates

open Excalibur.Python

/-! ## The counter -/

/-- The state codes of the kernel and their names. -/
def tcpStates : List (Str × Str) :=
  [(lit "01", lit "ESTABLISHED"), (lit "02", lit "SYN_SENT"), (lit "03", lit "SYN_RECV"),
   (lit "04", lit "FIN_WAIT1"), (lit "05", lit "FIN_WAIT2"), (lit "06", lit "TIME_WAIT"),
   (lit "07", lit "CLOSE"), (lit "08", lit "CLOSE_WAIT"), (lit "09", lit "LAST_ACK"),
   (lit "0A", lit "LISTEN"), (lit "0B", lit "CLOSING"), (lit "0C", lit "NEW_SYN_RECV")]

def stateName (st : Str) : Str :=
  (tcpStates.lookup st).getD (lit "UNKNOWN(" ++ st ++ lit ")")

/-- The header and lines that are no rows. -/
def skipped : List Str → Bool
  | [] => true
  | first :: _ => first == lit "sl" || !isDigit (rstrip ':' first)

/-- The loop body of `parse_states` on `parts = line.split()`. -/
def countRow (U : UpperCase) (counts : Dict Str Nat) (parts : List Str) :
    Except PyError (Dict Str Nat) :=
  if skipped parts then .ok counts
  else
    match parts[3]? with
    | none => .error .indexError
    | some st => .ok (increase counts (stateName (U.upper st)) 1)

def parseStates (U : UpperCase) (text : Str) : Except PyError (Dict Str Nat) :=
  (splitLines (strip text)).foldlM (fun counts line => countRow U counts (words line)) ∅

/-- What a file of `/proc` gives.  `open` or `read` can raise an `OSError`; bytes that are no
    text raise a `UnicodeDecodeError`, which is a `ValueError`. -/
inductive ProcFile where
  | absent
  | unreadable
  | undecodable
  | body (text : Str)

/-- One round of the loop in `read_proc_states`, on `total` and `found`. -/
def addFile (U : UpperCase) (state : Dict Str Nat × Bool) :
    ProcFile → Except PyError (Dict Str Nat × Bool)
  | .absent => .ok state
  | .unreadable => .ok (state.1, true)
  | .undecodable => .error .valueError
  | .body text => (parseStates U text).map fun counts => (increaseAll state.1 counts, true)

/-- `read_proc_states()` where `/proc/net/tcp` and `/proc/net/tcp6` are `tcp` and `tcp6`. -/
def readProcStates (U : UpperCase) (tcp tcp6 : ProcFile) : Except PyError (Option (Dict Str Nat)) := do
  let (total, found) ← [tcp, tcp6].foldlM (addFile U) (∅, false)
  return if found then some total else none

/-! ## Data rows -/

/-- A row that gets past the first look and has no state column. -/
def CutOff (row : List Str) : Prop := skipped row = false ∧ row.length < 4

instance (row : List Str) : Decidable (CutOff row) := inferInstanceAs (Decidable (_ ∧ _))

def isDataRow (row : List Str) : Bool := !skipped row && decide (4 ≤ row.length)

def dataRows (text : Str) : List (List Str) := (rows text).filter isDataRow

/-- The names of the states in the rows. -/
def states (U : UpperCase) (rows : List (List Str)) : List Str :=
  rows.map fun row => stateName (U.upper (row.getD 3 []))

/-- No row of the text is cut off. -/
def Whole (text : Str) : Prop := ∀ row ∈ rows text, ¬ CutOff row

instance (text : Str) : Decidable (Whole text) :=
  inferInstanceAs (Decidable (∀ row ∈ rows text, ¬ CutOff row))

variable {U : UpperCase}

theorem countRow_skipped {row : List Str} (skip : skipped row = true) (counts : Dict Str Nat) :
    countRow U counts row = .ok counts := by
  rw [countRow, if_pos skip]

theorem countRow_cutOff {row : List Str} (cut : CutOff row) (counts : Dict Str Nat) :
    countRow U counts row = .error .indexError := by
  rw [countRow, cut.1, List.getElem?_eq_none (by have := cut.2; omega)]
  rfl

theorem countRow_dataRow {row : List Str} (isData : isDataRow row = true) (counts : Dict Str Nat) :
    countRow U counts row = .ok (increase counts (stateName (U.upper (row.getD 3 []))) 1) := by
  simp only [isDataRow, Bool.and_eq_true, Bool.not_eq_true', decide_eq_true_eq] at isData
  have column : row[3]? = some (row.getD 3 []) := by
    rw [List.getD_eq_getElem?_getD, List.getElem?_eq_getElem (by omega), Option.getD_some]
  rw [countRow, isData.1, column]
  rfl

/-- A row is skipped, counted or cut off. -/
theorem row_cases (row : List Str) :
    skipped row = true ∨ isDataRow row = true ∨ CutOff row := by
  cases skip : skipped row with
  | true => exact .inl rfl
  | false =>
    by_cases long : 4 ≤ row.length
    · exact .inr (.inl (by simp [isDataRow, skip, long]))
    · exact .inr (.inr ⟨skip, by omega⟩)

theorem isDataRow_of_skipped {row : List Str} (skip : skipped row = true) : isDataRow row = false := by
  simp [isDataRow, skip]

/-! ## The loop -/

def countRows (U : UpperCase) (counts : Dict Str Nat) (rows : List (List Str)) :
    Except PyError (Dict Str Nat) :=
  rows.foldlM (countRow U) counts

theorem parseStates_eq (text : Str) : parseStates U text = countRows U ∅ (rows text) := by
  rw [← rows_strip, parseStates, rows]
  generalize (∅ : Dict Str Nat) = counts
  induction splitLines (strip text) generalizing counts with
  | nil => rfl
  | cons line lines ih =>
    rw [List.foldlM_cons]
    by_cases blank : words line = []
    · rw [nonblank_cons_of_blank blank, countRow_skipped (by rw [blank]; rfl)]
      exact ih counts
    · have kept : nonblank (line :: lines) = words line :: nonblank lines := by
        simp [nonblank, blank]
      rw [kept, countRows, List.foldlM_cons]
      exact bind_congr ih

theorem countRows_whole {counts : Dict Str Nat} {names : List Str} (tallies : Tallies counts names)
    {rows : List (List Str)} (whole : ∀ row ∈ rows, ¬ CutOff row) :
    ∃ total, countRows U counts rows = .ok total ∧
      Tallies total (names ++ states U (rows.filter isDataRow)) := by
  induction rows generalizing counts names with
  | nil => exact ⟨counts, rfl, by simpa [states] using tallies⟩
  | cons row rows ih =>
    have rest : ∀ row ∈ rows, ¬ CutOff row := fun other member => whole other (List.mem_cons_of_mem _ member)
    rw [countRows, List.foldlM_cons]
    rcases row_cases row with skip | isData | cut
    · rw [countRow_skipped skip, List.filter_cons_of_neg (by simp [isDataRow_of_skipped skip])]
      exact ih tallies rest
    · obtain ⟨total, counted, result⟩ :=
        ih (tallies.increase (stateName (U.upper (row.getD 3 [])))) rest
      refine ⟨total, ?_, ?_⟩
      · rw [countRow_dataRow isData]
        exact counted
      · rw [List.filter_cons_of_pos isData]
        simpa [states] using result
    · exact absurd cut (whole row List.mem_cons_self)

theorem countRows_cutOff {rows : List (List Str)} {row : List Str} (member : row ∈ rows)
    (cut : CutOff row) (counts : Dict Str Nat) : countRows U counts rows = .error .indexError := by
  induction rows generalizing counts with
  | nil => cases member
  | cons first rows ih =>
    rw [countRows, List.foldlM_cons]
    rcases row_cases first with skip | isData | cutFirst
    · rcases List.mem_cons.mp member with rfl | later
      · exact absurd (skip.symm.trans cut.1) (by decide)
      · rw [countRow_skipped skip]
        exact ih later counts
    · rcases List.mem_cons.mp member with rfl | later
      · have short := cut.2
        simp only [isDataRow, Bool.and_eq_true, decide_eq_true_eq] at isData
        omega
      · rw [countRow_dataRow isData]
        exact ih later _
    · rw [countRow_cutOff cutFirst]
      rfl

theorem parseStates_whole {text : Str} (whole : Whole text) :
    ∃ counts, parseStates U text = .ok counts ∧ Tallies counts (states U (dataRows text)) := by
  rw [parseStates_eq]
  simpa [dataRows] using countRows_whole (U := U) tallies_empty whole

theorem parseStates_not_whole {text : Str} (broken : ¬ Whole text) :
    parseStates U text = .error .indexError := by
  simp only [Whole, not_forall, not_not] at broken
  obtain ⟨row, member, cut⟩ := broken
  rw [parseStates_eq]
  exact countRows_cutOff member cut ∅

theorem whole_of_parseStates {text : Str} {counts : Dict Str Nat}
    (parsed : parseStates U text = .ok counts) : Whole text := by
  by_contra broken
  rw [parseStates_not_whole broken] at parsed
  cases parsed

/-! ## Joined texts and both files -/

theorem whole_append {first second : Str} (boundary : LineBoundary first second) :
    Whole (first ++ second) ↔ Whole first ∧ Whole second := by
  simp only [Whole, rows_append boundary, List.mem_append, or_imp, forall_and]

theorem states_append (rows others : List (List Str)) :
    states U (rows ++ others) = states U rows ++ states U others := List.map_append

/-- The data rows of a file that was read. -/
def ProcFile.dataRows : ProcFile → List (List Str)
  | .body text => SocketStates.dataRows text
  | _ => []

/-- The file can be decoded, and none of its rows is cut off. -/
def ProcFile.Whole : ProcFile → Prop
  | .undecodable => False
  | .body text => SocketStates.Whole text
  | _ => True

def ProcFile.opened : ProcFile → Bool
  | .absent => false
  | _ => true

theorem addFile_whole {total : Dict Str Nat} {names : List Str} (tallies : Tallies total names)
    {file : ProcFile} (whole : file.Whole) (found : Bool) :
    ∃ next, addFile U (total, found) file = .ok (next, found || file.opened) ∧
      Tallies next (names ++ states U file.dataRows) := by
  cases file with
  | absent =>
    exact ⟨total, by simp [addFile, ProcFile.opened], by simpa [ProcFile.dataRows, states] using tallies⟩
  | unreadable =>
    exact ⟨total, by simp [addFile, ProcFile.opened], by simpa [ProcFile.dataRows, states] using tallies⟩
  | undecodable => exact absurd whole id
  | body text =>
    obtain ⟨counts, parsed, counted⟩ := parseStates_whole (U := U) whole
    refine ⟨increaseAll total counts, ?_, tallies.increaseAll counted⟩
    simp [addFile, parsed, ProcFile.opened, Except.map]

theorem whole_of_addFile {state next : Dict Str Nat × Bool} {file : ProcFile}
    (added : addFile U state file = .ok next) : file.Whole := by
  cases file with
  | absent => trivial
  | unreadable => trivial
  | undecodable => cases added
  | body text =>
    by_contra broken
    rw [addFile, parseStates_not_whole broken] at added
    cases added

theorem readProcStates_eq_ok {tcp tcp6 : ProcFile} {result : Option (Dict Str Nat)} :
    readProcStates U tcp tcp6 = .ok result ↔
      ∃ first second, addFile U (∅, false) tcp = .ok first ∧ addFile U first tcp6 = .ok second ∧
        result = if second.2 then some second.1 else none := by
  unfold readProcStates
  simp only [List.foldlM_cons, List.foldlM_nil, bind_eq_ok]
  constructor
  · rintro ⟨⟨total, found⟩, ⟨first, addedFirst, second, addedSecond, last⟩, rest⟩
    cases last
    cases rest
    exact ⟨first, _, addedFirst, addedSecond, rfl⟩
  · rintro ⟨first, second, addedFirst, addedSecond, rfl⟩
    exact ⟨second, ⟨first, addedFirst, second, addedSecond, rfl⟩, rfl⟩

/-- A text is counted, row by row and name by name, exactly if none of its rows is cut off;
    the counts of joined texts and of the two files are sums under the same condition. -/
theorem counts_conserved_iff (U : UpperCase) :
    (∀ text, (∃ counts, parseStates U text = .ok counts ∧
        sumValues counts = (dataRows text).length ∧
        ∀ name, getDefault counts name 0 = (states U (dataRows text)).countP fun other => other = name) ↔ Whole text) ∧
    (∀ first second, LineBoundary first second →
      ((∃ counts others joined, parseStates U first = .ok counts ∧
          parseStates U second = .ok others ∧ parseStates U (first ++ second) = .ok joined ∧
          ∀ name, getDefault joined name 0 = getDefault counts name 0 + getDefault others name 0) ↔
        Whole first ∧ Whole second)) ∧
    ∀ tcp tcp6 : ProcFile,
      (∃ total, readProcStates U tcp tcp6 =
            .ok (if tcp.opened || tcp6.opened then some total else none) ∧
          sumValues total = (tcp.dataRows ++ tcp6.dataRows).length ∧
          ∀ name, getDefault total name 0 = (states U (tcp.dataRows ++ tcp6.dataRows)).countP fun other => other = name) ↔
        tcp.Whole ∧ tcp6.Whole := by
  refine ⟨fun text => ⟨?_, ?_⟩, fun first second boundary => ⟨?_, ?_⟩, fun tcp tcp6 => ⟨?_, ?_⟩⟩
  · rintro ⟨counts, parsed, -⟩
    -- A row that is cut off raises, so a text that was counted has none.
    exact whole_of_parseStates parsed
  · intro whole
    obtain ⟨counts, parsed, tallies⟩ := parseStates_whole (U := U) whole
    exact ⟨counts, parsed, by rw [tallies.total, states, List.length_map], tallies.each⟩
  · rintro ⟨counts, others, joined, parsed, parsedOthers, -⟩
    exact ⟨whole_of_parseStates parsed, whole_of_parseStates parsedOthers⟩
  · rintro ⟨whole, wholeSecond⟩
    obtain ⟨counts, parsed, tallies⟩ := parseStates_whole (U := U) whole
    obtain ⟨others, parsedOthers, talliesOthers⟩ := parseStates_whole (U := U) wholeSecond
    obtain ⟨joined, parsedJoined, talliesJoined⟩ :=
      parseStates_whole (U := U) ((whole_append boundary).mpr ⟨whole, wholeSecond⟩)
    -- At a line end the rows of the joined text are the rows of both, in order.
    refine ⟨counts, others, joined, parsed, parsedOthers, parsedJoined, ?_⟩
    intro name
    rw [talliesJoined.each, tallies.each, talliesOthers.each, dataRows, rows_append boundary,
      List.filter_append, states_append, List.countP_append, dataRows, dataRows]
  · rintro ⟨total, read, -⟩
    obtain ⟨first, second, addedFirst, addedSecond, -⟩ := readProcStates_eq_ok.mp read
    exact ⟨whole_of_addFile addedFirst, whole_of_addFile addedSecond⟩
  · rintro ⟨whole, wholeSecond⟩
    -- The second file is counted on top of what the first one left in the dictionary.
    obtain ⟨first, addedFirst, tallies⟩ := addFile_whole (U := U) tallies_empty whole false
    obtain ⟨total, addedSecond, talliesTotal⟩ :=
      addFile_whole tallies wholeSecond (false || tcp.opened)
    rw [List.nil_append, ← states_append] at talliesTotal
    refine ⟨total, ?_, by rw [talliesTotal.total, states, List.length_map], talliesTotal.each⟩
    refine readProcStates_eq_ok.mpr ⟨_, _, addedFirst, addedSecond, ?_⟩
    rw [Bool.false_or]

/-- The last line of a text that ends in the middle of a row. -/
theorem cut_off_row_raises :
    parseStates .ascii (lit "  sl  local_address rem_address   st\n   0: 0100007F:1538 0000") =
        .error .indexError ∧
      readProcStates .ascii
          (.body (lit "  sl  local_address rem_address   st\n   0: 0100007F:1538 0000")) .absent =
        .error .indexError := by
  decide +kernel

theorem joined_at_a_line_end :
    ∃ counts others joined,
      parseStates .ascii (lit "0: a b 0A\n") = .ok counts ∧
        parseStates .ascii (lit "1: a b 06\n") = .ok others ∧
        parseStates .ascii (lit "0: a b 0A\n" ++ lit "1: a b 06\n") = .ok joined ∧
        ∀ name, getDefault joined name 0 = getDefault counts name 0 + getDefault others name 0 := by
  refine ((counts_conserved_iff .ascii).2.1 (lit "0: a b 0A\n") (lit "1: a b 06\n") ?_).mpr ⟨?_, ?_⟩
  · left
    intro last isLast
    obtain rfl : '\n' = last := Option.some_inj.mp isLast
    decide
  · decide +kernel
  · decide +kernel

end Excalibur.SocketStates
