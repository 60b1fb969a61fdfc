import Excalibur.Python.Hex
import Excalibur.SocketStates.Counting

/-! # Ephemeral ports in use

`ephemeral_ports_in_use` reads the table that `parse_states` reads, row by row, and keeps a
set of local ports and a tally of remote endpoints.  A row it cannot use is passed over, also
one that is cut off; it never raises.

On any text a port counts once and a connection each time, so the tally is the larger of the
two and the utilization cannot exceed the pool.  On the table of a list of sockets both
programs report what the list says (`ports_of_table`).
-/

namespace Excalibur.SocketStates

open Excalibur.Python

/-! ## The probe -/

structure Usage where
  usedPorts : Finset Int
  perRemote : Dict Str Nat

/-- `int(local.split(":")[1], 16)` -/
def localPort (address : Str) : Except PyError Int :=
  match (address.splitOn ':')[1]? with
  | some port => intOfHexStr port
  | none => .error .indexError

/-- The loop body of `ephemeral_ports_in_use` on `parts = line.split()`. -/
def addRow (U : UpperCase) (lo hi : Int) (usage : Usage) (parts : List Str) : Usage :=
  match parts with
  | first :: address :: remote :: st :: _ =>
    if !isDigit (rstrip ':' first) then usage
    -- Sockets that listen take no port of the pool.
    else if U.upper st = lit "0A" then usage
    else
      match localPort address with
      | .error _ => usage
      | .ok lport =>
        if lo ≤ lport ∧ lport ≤ hi then
          ⟨insert lport usage.usedPorts, increase usage.perRemote remote 1⟩
        else usage
  | _ => usage

def usageOf (U : UpperCase) (text : Str) (lo hi : Int) : Usage :=
  (splitLines (strip text)).foldl (fun usage line => addRow U lo hi usage (words line)) ⟨∅, ∅⟩

def ephemeralPortsInUse (U : UpperCase) (text : Str) (lo hi : Int) : Nat × Dict Str Nat :=
  let usage := usageOf U text lo hi
  (usage.usedPorts.card, usage.perRemote)

/-- `util` in `report`, as an exact quotient. -/
def utilization (U : UpperCase) (text : Str) (lo hi : Int) : ℚ :=
  let pool := hi - lo + 1
  if pool ≠ 0 then (ephemeralPortsInUse U text lo hi).1 / pool else 0

/-! ## Connections -/

/-- The local port and the remote endpoint of a row that takes a port of the pool. -/
def connection (U : UpperCase) (lo hi : Int) (parts : List Str) : Option (Int × Str) :=
  match parts with
  | first :: address :: remote :: st :: _ =>
    if isDigit (rstrip ':' first) ∧ U.upper st ≠ lit "0A" then
      (localPort address).toOption.bind fun lport =>
        if lo ≤ lport ∧ lport ≤ hi then some (lport, remote) else none
    else none
  | _ => none

def connections (U : UpperCase) (lo hi : Int) (rows : List (List Str)) : List (Int × Str) :=
  rows.filterMap (connection U lo hi)

section Probe

variable {U : UpperCase} {lo hi : Int}

theorem addRow_eq (usage : Usage) (parts : List Str) :
    addRow U lo hi usage parts =
      match connection U lo hi parts with
      | some (lport, remote) =>
        ⟨insert lport usage.usedPorts, increase usage.perRemote remote 1⟩
      | none => usage := by
  match parts with
  | [] | [_] | [_, _] | [_, _, _] => rfl
  | first :: address :: remote :: st :: rest =>
    simp only [addRow, connection]
    by_cases digits : isDigit (rstrip ':' first) = true
    · by_cases listens : U.upper st = lit "0A"
      · simp [digits, listens]
      · cases read : localPort address with
        | error e => simp [digits, listens, Except.toOption]
        | ok lport =>
          by_cases inside : lo ≤ lport ∧ lport ≤ hi
          · simp [digits, listens, Except.toOption, inside]
          · simp [digits, listens, Except.toOption, inside]
    · simp [digits]

/-- The connections so far: their ports as a set, their endpoints as a tally. -/
structure Collects (usage : Usage) (found : List (Int × Str)) : Prop where
  ports : usage.usedPorts = (found.map Prod.fst).toFinset
  remotes : Tallies usage.perRemote (found.map Prod.snd)

theorem collects_addRow {usage : Usage} {found : List (Int × Str)} (collects : Collects usage found)
    (parts : List Str) :
    Collects (addRow U lo hi usage parts) (found ++ (connection U lo hi parts).toList) := by
  rw [addRow_eq]
  cases connection U lo hi parts with
  | none => simpa using collects
  | some taken =>
    obtain ⟨lport, remote⟩ := taken
    constructor
    · rw [collects.ports]
      ext other
      simp
    · simpa using collects.remotes.increase remote

theorem connections_nonblank (lines : List Str) :
    connections U lo hi (nonblank lines) = connections U lo hi (lines.map words) := by
  rw [connections, nonblank, connections]
  induction lines.map words with
  | nil => rfl
  | cons row rows ih =>
    by_cases blank : row = []
    · rw [List.filter_cons_of_neg (by simp [blank]), ih, blank]
      rfl
    · rw [List.filter_cons_of_pos (by simp [blank]), List.filterMap_cons, List.filterMap_cons, ih]

theorem collects_usageOf (text : Str) :
    Collects (usageOf U text lo hi) (connections U lo hi (rows text)) := by
  rw [← rows_strip, rows, connections_nonblank, usageOf]
  induction splitLines (strip text) using List.reverseRecOn with
  | nil => exact ⟨rfl, tallies_empty⟩
  | append_singleton lines line ih =>
    have last : connections U lo hi ((lines ++ [line]).map words) =
        connections U lo hi (lines.map words) ++ (connection U lo hi (words line)).toList := by
      rw [List.map_append, connections, List.filterMap_append, connections]
      cases taken : connection U lo hi (words line) <;> simp [taken]
    rw [List.foldl_append, List.foldl_cons, List.foldl_nil, last]
    exact collects_addRow ih (words line)

/-! ## What the numbers mean -/

theorem mem_connections {row : List Str} {taken : Int × Str}
    (found : connection U lo hi row = some taken) :
    isDataRow row = true ∧ U.upper (row.getD 3 []) ≠ lit "0A" ∧ lo ≤ taken.1 ∧ taken.1 ≤ hi := by
  match row with
  | [] | [_] | [_, _] | [_, _, _] => cases found
  | first :: address :: remote :: st :: rest =>
    simp only [connection] at found
    split at found
    · rename_i selected
      obtain ⟨lport, -, inside⟩ := Option.bind_eq_some_iff.mp found
      split at inside
      · rename_i range
        cases inside
        have notHeader : first ≠ lit "sl" := by
          rintro rfl
          exact absurd selected.1 (by decide +kernel)
        refine ⟨?_, selected.2, range⟩
        simp [isDataRow, skipped, selected.1, notHeader]
      · cases inside
    · cases found

/-- A state is called `LISTEN` only if its code is. -/
theorem stateName_eq_listen {st : Str} (named : stateName st = lit "LISTEN") : st = lit "0A" := by
  have only : ∀ entry ∈ tcpStates, entry.2 = lit "LISTEN" → entry.1 = lit "0A" := by decide
  rw [stateName] at named
  cases found : tcpStates.lookup st with
  | none =>
    rw [found] at named
    simp [lit] at named
  | some name =>
    rw [found, Option.getD_some] at named
    obtain ⟨before, after, split, -⟩ := List.lookup_eq_some_iff.mp found
    exact only (st, name) (by simp [split]) named

theorem length_connections_le (text : Str) :
    (connections U lo hi (rows text)).length +
        (states U (dataRows text)).countP (fun name => name = lit "LISTEN") ≤
      (dataRows text).length := by
  have taken : (connections U lo hi (rows text)).length ≤
      (dataRows text).countP fun row => ¬ stateName (U.upper (row.getD 3 [])) = lit "LISTEN" := by
    rw [connections, List.length_filterMap_eq_countP, dataRows, List.countP_filter]
    refine List.countP_mono_left fun row _ isConnection => ?_
    obtain ⟨pair, found⟩ := Option.isSome_iff_exists.mp isConnection
    obtain ⟨isData, notListening, -⟩ := mem_connections found
    have other : ¬ stateName (U.upper (row.getD 3 [])) = lit "LISTEN" :=
      fun named => notListening (stateName_eq_listen named)
    simp only [Bool.and_eq_true, decide_eq_true_eq]
    exact ⟨other, isData⟩
  have listening : (states U (dataRows text)).countP (fun name => name = lit "LISTEN") =
      (dataRows text).countP fun row => stateName (U.upper (row.getD 3 [])) = lit "LISTEN" := by
    rw [states, List.countP_map]
    rfl
  have all := List.length_eq_countP_add_countP
    (fun row => decide (stateName (U.upper (row.getD 3 [])) = lit "LISTEN")) (l := dataRows text)
  simp only [decide_eq_true_eq] at all
  rw [listening]
  omega

theorem used_le_pool (text : Str) :
    ((ephemeralPortsInUse U text lo hi).1 : Int) ≤ max 0 (hi - lo + 1) := by
  have collected : Collects (usageOf U text lo hi) (connections U lo hi (rows text)) :=
    collects_usageOf text
  have inPool : (usageOf U text lo hi).usedPorts ⊆ Finset.Icc lo hi := by
    intro lport member
    rw [collected.ports, List.mem_toFinset] at member
    obtain ⟨pair, listed, rfl⟩ := List.mem_map.mp member
    obtain ⟨row, -, found⟩ := List.mem_filterMap.mp listed
    exact Finset.mem_Icc.mpr (mem_connections found).2.2
  have bound := Finset.card_le_card inPool
  rw [Int.card_Icc] at bound
  rw [ephemeralPortsInUse]
  omega

theorem utilization_le_one (text : Str) :
    0 ≤ utilization U text lo hi ∧ utilization U text lo hi ≤ 1 := by
  have bound : ((ephemeralPortsInUse U text lo hi).1 : Int) ≤ max 0 (hi - lo + 1) :=
    used_le_pool text
  rw [utilization]
  generalize (ephemeralPortsInUse U text lo hi).1 = used at bound
  by_cases pool : 0 < hi - lo + 1
  · have positive : (0 : ℚ) < ((hi - lo + 1 : Int) : ℚ) := by exact_mod_cast pool
    have within : (used : ℚ) ≤ ((hi - lo + 1 : Int) : ℚ) := by
      have small : (used : Int) ≤ hi - lo + 1 := by omega
      exact_mod_cast small
    rw [if_pos (by omega), div_le_one positive]
    exact ⟨by positivity, within⟩
  · -- an empty pool has no ports in use
    have none : used = 0 := by omega
    simp [none]

/-- Whatever the text says, the utilization is one at most, and no more ports are in use than
    there are connections; less exactly when connections share a port.  The connections and the
    sockets that listen are among those that the summary counts. -/
theorem ports_within_bounds (U : UpperCase) (lo hi : Int) (text : Str) :
    (0 ≤ utilization U text lo hi ∧ utilization U text lo hi ≤ 1) ∧
    (ephemeralPortsInUse U text lo hi).1 ≤ sumValues (ephemeralPortsInUse U text lo hi).2 ∧
    ((ephemeralPortsInUse U text lo hi).1 = sumValues (ephemeralPortsInUse U text lo hi).2 ↔
      ((connections U lo hi (rows text)).map Prod.fst).Nodup) ∧
    ∀ counts, parseStates U text = .ok counts →
      sumValues (ephemeralPortsInUse U text lo hi).2 + getDefault counts (lit "LISTEN") 0 ≤
        sumValues counts := by
  have collected : Collects (usageOf U text lo hi) (connections U lo hi (rows text)) :=
    collects_usageOf text
  obtain ⟨ports, remotes⟩ := collected
  have used : (ephemeralPortsInUse U text lo hi).1 =
      ((connections U lo hi (rows text)).map Prod.fst).toFinset.card := congrArg Finset.card ports
  have total : sumValues (ephemeralPortsInUse U text lo hi).2 =
      ((connections U lo hi (rows text)).map Prod.fst).length := by
    rw [List.length_map]
    exact remotes.total.trans (by rw [List.length_map])
  refine ⟨utilization_le_one text, ?_⟩
  rw [used, total]
  refine ⟨List.toFinset_card_le _, Multiset.toFinset_card_eq_card_iff_nodup, ?_⟩
  intro counts parsed
  obtain ⟨others, parsedToo, tallies⟩ := parseStates_whole (U := U) (whole_of_parseStates parsed)
  cases parsed.symm.trans parsedToo
  rw [tallies.total, tallies.each, List.length_map, states, List.length_map, ← states]
  exact length_connections_le text

end Probe

/-! ## Tables -/

/-- A word of a line. -/
structure Word where
  text : Str
  nonempty : text ≠ []
  unbroken : ∀ c ∈ text, isSpace c = false

/-- A socket in the table of the kernel. -/
structure Sock where
  localAddress : Word
  noColon : ':' ∉ localAddress.text
  port : Nat
  remote : Word
  state : Word
  more : List Word

/-- The row of a socket, as `/proc/net/tcp` has it. -/
def Sock.line (sock : Sock) (sl : Nat) : Str :=
  lit "   " ++ strOfInt sl ++ lit ": " ++ (sock.localAddress.text ++ lit ":" ++ paddedHex 4 sock.port) ++
    lit " " ++ sock.remote.text ++ lit " " ++ sock.state.text ++
    sock.more.flatMap fun word => ' ' :: word.text

def header : Str := lit "  sl  local_address rem_address   st tx_queue rx_queue"

/-- The table, its lines numbered from `sl`. -/
def tableFrom (sl : Nat) : List Sock → Str
  | [] => []
  | sock :: sockets => sock.line sl ++ '\n' :: tableFrom (sl + 1) sockets

def table (sockets : List Sock) : Str := header ++ '\n' :: tableFrom 0 sockets

def Sock.row (sock : Sock) (sl : Nat) : List Str :=
  (strOfInt sl ++ [':']) :: (sock.localAddress.text ++ lit ":" ++ paddedHex 4 sock.port) ::
    sock.remote.text :: sock.state.text :: sock.more.map Word.text

section Tables

variable {U : UpperCase} {lo hi : Int}

theorem words_unbroken {text : Str} (nonempty : text ≠ []) (unbroken : ∀ c ∈ text, isSpace c = false) :
    words text = [text] := by
  rw [words, List.splitOnP_eq_singleton (by simpa using unbroken), List.filter_cons_of_pos (by simpa using nonempty),
    List.filter_nil]

theorem words_word_space {text : Str} (nonempty : text ≠ []) (unbroken : ∀ c ∈ text, isSpace c = false)
    (rest : Str) : words (text ++ ' ' :: rest) = text :: words rest := by
  rw [words_append_space (by decide), words_unbroken nonempty unbroken, List.singleton_append]

theorem words_more (word : Word) (more : List Word) :
    words (word.text ++ more.flatMap fun word => ' ' :: word.text) =
      word.text :: more.map Word.text := by
  induction more generalizing word with
  | nil => simpa using words_unbroken word.nonempty word.unbroken
  | cons next more ih =>
    rw [List.flatMap_cons, List.cons_append, words_word_space word.nonempty word.unbroken, ih,
      List.map_cons]

theorem not_space_of_range {c : Char} (range : 48 ≤ c.toNat ∧ c.toNat ≤ 122) : isSpace c = false := by
  simp only [isSpace, Bool.or_eq_false_iff, Bool.and_eq_false_iff, decide_eq_false_iff_not,
    beq_eq_false_iff_ne]
  omega

theorem not_space_number (sl : Nat) : ∀ c ∈ strOfInt sl ++ [':'], isSpace c = false := by
  intro c member
  rcases List.mem_append.mp member with digit | colon
  · have range := digit_range digit
    exact not_space_of_range (by omega)
  · obtain rfl := List.mem_singleton.mp colon
    decide

theorem not_space_endpoint (sock : Sock) :
    ∀ c ∈ sock.localAddress.text ++ lit ":" ++ paddedHex 4 sock.port, isSpace c = false := by
  intro c member
  obtain ⟨digits, spelled, -⟩ := paddedHex_spells 4 sock.port
  rcases List.mem_append.mp member with front | digit
  · rcases List.mem_append.mp front with inside | colon
    · exact sock.localAddress.unbroken c inside
    · obtain rfl := List.mem_singleton.mp colon
      decide
  · have range := range_of_spells spelled digit
    exact not_space_of_range (by omega)

theorem Sock.line_eq (sock : Sock) (sl : Nat) :
    sock.line sl = ' ' :: ' ' :: ' ' :: ((strOfInt sl ++ [':']) ++ ' ' ::
      ((sock.localAddress.text ++ lit ":" ++ paddedHex 4 sock.port) ++ ' ' ::
        (sock.remote.text ++ ' ' :: (sock.state.text ++
          sock.more.flatMap fun word => ' ' :: word.text)))) := by
  have indent : lit "   " = [' ', ' ', ' '] := rfl
  have colon : lit ": " = [':', ' '] := rfl
  have blank : lit " " = [' '] := rfl
  unfold Sock.line
  rw [indent, colon, blank]
  generalize sock.localAddress.text ++ lit ":" ++ paddedHex 4 sock.port = endpoint
  simp only [List.append_assoc, List.cons_append, List.nil_append]

theorem words_line (sock : Sock) (sl : Nat) : words (sock.line sl) = sock.row sl := by
  have space : isSpace ' ' = true := by decide
  have numbered : strOfInt sl ++ [':'] ≠ [] := by simp
  have addressed : sock.localAddress.text ++ lit ":" ++ paddedHex 4 sock.port ≠ [] := by simp [lit]
  rw [Sock.line_eq, words_cons_space space, words_cons_space space, words_cons_space space,
    words_word_space numbered (not_space_number sl),
    words_word_space addressed (not_space_endpoint sock),
    words_word_space sock.remote.nonempty sock.remote.unbroken, words_more, Sock.row]

/-! ### Rows of a table -/

theorem not_lineBreak {c : Char} (unbroken : isSpace c = false) : isLineBreak c = false := by
  simp only [isSpace, Bool.or_eq_false_iff, Bool.and_eq_false_iff, decide_eq_false_iff_not,
    beq_eq_false_iff_ne] at unbroken
  simp only [isLineBreak, Bool.or_eq_false_iff, Bool.and_eq_false_iff, decide_eq_false_iff_not,
    beq_eq_false_iff_ne]
  omega

theorem line_unbroken (sock : Sock) (sl : Nat) : ∀ c ∈ sock.line sl, isLineBreak c = false := by
  have blank : isLineBreak ' ' = false := by decide
  have number := not_space_number sl
  have endpoint := not_space_endpoint sock
  intro c member
  rw [Sock.line_eq] at member
  generalize strOfInt sl ++ [':'] = first at member number
  generalize sock.localAddress.text ++ lit ":" ++ paddedHex 4 sock.port = second at member endpoint
  simp only [List.mem_cons, List.mem_append, List.mem_flatMap] at member
  rcases member with rfl | rfl | rfl | inFirst | rfl | inSecond | rfl | inRemote | rfl | inState |
    ⟨word, -, rfl | inWord⟩
  any_goals exact blank
  · exact not_lineBreak (number c inFirst)
  · exact not_lineBreak (endpoint c inSecond)
  · exact not_lineBreak (sock.remote.unbroken c inRemote)
  · exact not_lineBreak (sock.state.unbroken c inState)
  · exact not_lineBreak (word.unbroken c inWord)

theorem rows_line (sock : Sock) (sl : Nat) : rows (sock.line sl) = [sock.row sl] := by
  rw [rows_eq, List.splitOnP_eq_singleton (by simpa using line_unbroken sock sl)]
  simp [nonblank, words_line, Sock.row]

theorem rows_tableFrom (sl : Nat) (sockets : List Sock) :
    rows (tableFrom sl sockets) = (sockets.zipIdx sl).map fun entry => entry.1.row entry.2 := by
  induction sockets generalizing sl with
  | nil => rfl
  | cons sock sockets ih =>
    rw [tableFrom, rows_append_break (by decide), rows_line, ih, List.zipIdx_cons, List.map_cons,
      List.singleton_append]

/-- The sockets whose local port is in the pool and that do not listen. -/
def inUse (U : UpperCase) (lo hi : Int) (sockets : List Sock) : List Sock :=
  sockets.filter fun sock =>
    U.upper sock.state.text ≠ lit "0A" ∧ lo ≤ (sock.port : Int) ∧ (sock.port : Int) ≤ hi

theorem isDigit_number (sl : Nat) : isDigit (rstrip ':' (strOfInt sl ++ [':'])) = true := by
  have kept : rstrip ':' (strOfInt sl ++ [':']) = strOfInt sl := by
    have noColon : ∀ c ∈ (strOfInt sl).reverse.head?, (c == ':') = false := by
      intro c first
      have range := digit_range (List.mem_reverse.mp (List.mem_of_mem_head? first))
      rw [beq_eq_false_iff_ne]
      rintro rfl
      exact absurd range (by decide)
    rw [rstrip, List.reverse_append, List.reverse_singleton, List.singleton_append,
      List.dropWhile_cons_of_pos (by decide)]
    cases reversed : (strOfInt sl).reverse with
    | nil => rw [List.dropWhile_nil, ← reversed, List.reverse_reverse]
    | cons last rest =>
      rw [List.dropWhile_cons_of_neg (by simp [noColon last (by simp [reversed])]), ← reversed,
        List.reverse_reverse]
  have nonempty : strOfInt sl ≠ [] := Nat.toDigits_ne_nil
  have ascii : ∀ n < 58, 48 ≤ n → isDigitChar (Char.ofNat n) = true := by decide
  rw [kept, isDigit]
  simp only [Bool.and_eq_true, Bool.not_eq_true', List.isEmpty_eq_false_iff, List.all_eq_true]
  refine ⟨nonempty, fun c member => ?_⟩
  have range := digit_range member
  have digit := ascii c.toNat (by omega) range.1
  rwa [Char.ofNat_toNat] at digit

theorem localPort_endpoint (sock : Sock) :
    localPort (sock.localAddress.text ++ lit ":" ++ paddedHex 4 sock.port) = .ok (sock.port : Int) := by
  obtain ⟨digits, spelled, -⟩ := paddedHex_spells 4 sock.port
  have noColon : ':' ∉ paddedHex 4 sock.port := by
    intro member
    exact absurd (range_of_spells spelled member) (by decide)
  have split : (sock.localAddress.text ++ lit ":" ++ paddedHex 4 sock.port).splitOn ':' =
      [sock.localAddress.text, paddedHex 4 sock.port] := by
    have before : ∀ c ∈ sock.localAddress.text, (c == ':') = false := by
      intro c member
      rw [beq_eq_false_iff_ne]
      rintro rfl
      exact sock.noColon member
    have after : ∀ c ∈ paddedHex 4 sock.port, (c == ':') = false := by
      intro c member
      rw [beq_eq_false_iff_ne]
      rintro rfl
      exact noColon member
    rw [List.append_assoc, List.splitOn]
    change List.splitOnP _ (sock.localAddress.text ++ ':' :: paddedHex 4 sock.port) = _
    rw [List.splitOnP_append_cons _ _ (by decide), List.splitOnP_eq_singleton before,
      List.splitOnP_eq_singleton after, List.singleton_append]
  rw [localPort, split]
  exact intOfHexStr_paddedHex 4 sock.port

theorem connection_row (sock : Sock) (sl : Nat) :
    connection U lo hi (sock.row sl) =
      if U.upper sock.state.text ≠ lit "0A" ∧ lo ≤ (sock.port : Int) ∧ (sock.port : Int) ≤ hi then
        some ((sock.port : Int), sock.remote.text)
      else none := by
  simp only [connection, Sock.row, isDigit_number, localPort_endpoint, Except.toOption, true_and,
    Option.bind_some]
  by_cases listens : U.upper sock.state.text = lit "0A"
  · simp [listens]
  · simp [listens]

theorem isDataRow_row (sock : Sock) (sl : Nat) : isDataRow (sock.row sl) = true := by
  have notHeader : strOfInt sl ++ [':'] ≠ lit "sl" := by
    intro same
    have digits := isDigit_number sl
    rw [same] at digits
    exact absurd digits (by decide +kernel)
  simp [isDataRow, Sock.row, skipped, isDigit_number, notHeader]

theorem rows_table (sockets : List Sock) :
    rows (table sockets) = words header :: sockets.zipIdx.map fun entry => entry.1.row entry.2 := by
  have headerRow : rows header = [words header] := by decide
  rw [table, rows_append_break (by decide), headerRow, rows_tableFrom, List.singleton_append]

theorem words_header : words header =
    [lit "sl", lit "local_address", lit "rem_address", lit "st", lit "tx_queue", lit "rx_queue"] := by
  decide

theorem dataRows_table (sockets : List Sock) :
    dataRows (table sockets) = sockets.zipIdx.map fun entry => entry.1.row entry.2 := by
  have headerSkipped : isDataRow (words header) = false := by
    rw [words_header]
    exact isDataRow_of_skipped rfl
  rw [dataRows, rows_table, List.filter_cons_of_neg (by simp [headerSkipped]), List.filter_eq_self]
  intro row member
  obtain ⟨entry, -, rfl⟩ := List.mem_map.mp member
  exact isDataRow_row entry.1 entry.2

theorem whole_table (sockets : List Sock) : Whole (table sockets) := by
  intro row member cut
  rw [rows_table] at member
  rcases List.mem_cons.mp member with rfl | listed
  · rw [words_header] at cut
    exact absurd cut.2 (by decide)
  · obtain ⟨entry, -, rfl⟩ := List.mem_map.mp listed
    have isData := isDataRow_row entry.1 entry.2
    simp only [isDataRow, Bool.and_eq_true, decide_eq_true_eq] at isData
    exact absurd cut.2 (not_lt.mpr isData.2)

theorem connections_table (sockets : List Sock) :
    connections U lo hi (rows (table sockets)) =
      (inUse U lo hi sockets).map fun sock => ((sock.port : Int), sock.remote.text) := by
  have headerPassed : connection U lo hi (words header) = none := by
    have noNumber : isDigit (rstrip ':' (lit "sl")) = false := by decide +kernel
    simp [words_header, connection, noNumber]
  rw [connections, rows_table, List.filterMap_cons_none headerPassed, List.filterMap_map, inUse]
  generalize 0 = sl
  induction sockets generalizing sl with
  | nil => rfl
  | cons sock sockets ih =>
    rw [List.zipIdx_cons, List.filterMap_cons, Function.comp_apply, connection_row, ih]
    by_cases taken : U.upper sock.state.text ≠ lit "0A" ∧ lo ≤ (sock.port : Int) ∧ (sock.port : Int) ≤ hi
    · rw [if_pos taken, List.filter_cons_of_pos (by simpa using taken), List.map_cons]
    · rw [if_neg taken, List.filter_cons_of_neg (by simpa using taken)]

/-- On the table of any sockets `parse_states` counts their states, and the probe reports the
    distinct local ports in the pool of those that do not listen and how often each of their
    remote endpoints occurs. -/
theorem ports_of_table (U : UpperCase) (lo hi : Int) (sockets : List Sock) :
    (∃ counts, parseStates U (table sockets) = .ok counts ∧
      Tallies counts (sockets.map fun sock => stateName (U.upper sock.state.text))) ∧
    (ephemeralPortsInUse U (table sockets) lo hi).1 =
      ((inUse U lo hi sockets).map fun sock => (sock.port : Int)).toFinset.card ∧
    Tallies (ephemeralPortsInUse U (table sockets) lo hi).2
      ((inUse U lo hi sockets).map fun sock => sock.remote.text) := by
  have collected : Collects (usageOf U (table sockets) lo hi)
      (connections U lo hi (rows (table sockets))) := collects_usageOf _
  rw [connections_table] at collected
  obtain ⟨ports, remotes⟩ := collected
  rw [List.map_map] at ports remotes
  refine ⟨?_, congrArg Finset.card ports, remotes⟩
  obtain ⟨counts, parsed, tallies⟩ := parseStates_whole (U := U) (whole_table sockets)
  have names : states U (dataRows (table sockets)) =
      sockets.map fun sock => stateName (U.upper sock.state.text) := by
    rw [dataRows_table, states, List.map_map]
    conv_rhs => rw [← List.zipIdx_map_fst 0 sockets, List.map_map]
    rfl
  rw [names] at tallies
  exact ⟨counts, parsed, tallies⟩

end Tables

end Excalibur.SocketStates
