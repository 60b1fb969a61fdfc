import Excalibur.Python.Text

/-! # The retransmit monitor

`monitor` reads the counters again and again and reports, for every two reads that follow
each other, how much they grew.  A read that fails counts as one without counters, in the
round that it ends and in the round that it begins.

Everything follows from one equation: round `k` compares what reads `k` and `k + 1` left
behind (`monitor_eq`).  Rates are exact quotients here, and the pauses between the reads
are left out.
-/

namespace Excalibur.TcpRetrans

open Excalibur.Python

/-! ## The monitor -/

abbrev Counters := Dict Str Int

/-- The `Tcp:` counters in the body of `/proc/net/snmp`. -/
def parseSnmpTcp (text : Str) : Counters :=
  match (splitLines text).filter fun line => (lit "Tcp:").isPrefixOf line with
  | headers :: values :: _ =>
    (((words headers).drop 1).zip ((words values).drop 1)).foldl
      (fun out column =>
        match intOfStr column.2 with
        | .ok n => out.insert column.1 n
        | .error _ => out) ∅
  | _ => ∅

/-- The changes of `RetransSegs` and of `OutSegs`, and the rate. -/
def retransRate (prev cur : Counters) : Int × Int × ℚ :=
  let dOut := getDefault cur (lit "OutSegs") 0 - getDefault prev (lit "OutSegs") 0
  let dRe := getDefault cur (lit "RetransSegs") 0 - getDefault prev (lit "RetransSegs") 0
  let rate : ℚ := if dOut > 0 then dRe / dOut else 0
  (dRe, dOut, rate)

/-- `read_snmp()` on a body; there is none where `open` or `read` raise an `OSError`. -/
def readSnmp (body : Option Str) : Option Counters := body.map parseSnmpTcp

def warnRate : ℚ := 1 / 100

/-- A line of the report, with the two dictionaries it is computed from. -/
structure Round where
  prev : Counters
  cur : Counters
  dRe : Int
  dOut : Int
  rate : ℚ
  lossyPath : Bool

def report (prev cur : Counters) : Round :=
  let (dRe, dOut, rate) := retransRate prev cur
  { prev := prev, cur := cur, dRe := dRe, dOut := dOut, rate := rate
    lossyPath := decide (rate ≥ warnRate) }

/-- The loop of `monitor` over what the reads return. -/
def rounds (prev : Counters) : List (Option Counters) → List Round
  | [] => []
  | outcome :: outcomes =>
    let cur := outcome.getD ∅
    report prev cur :: rounds cur outcomes

/-- The report of `monitor(interval, count)`, where `reads k` is what the `k`-th call of
    `read_snmp` returns; `none` if the self-test runs instead. -/
def monitor (reads : Nat → Option Counters) (count : Int) : Option (List Round) :=
  match reads 0 with
  | none => none
  | some prev =>
    if len prev = 0 then none else some (rounds prev ((List.range' 1 count.toNat).map reads))

/-! ## Samples -/

/-- What the `k`-th read returns where it succeeds.  No counters are no sample. -/
def Sample (reads : Nat → Option Counters) (k : Nat) (counters : Counters) : Prop :=
  reads k = some counters ∧ counters ≠ ∅

def increaseOf (counter : Str) (prev cur : Counters) : Int :=
  getDefault cur counter 0 - getDefault prev counter 0

def Round.retransSegs (round : Round) : Int := increaseOf (lit "RetransSegs") round.prev round.cur

def Round.outSegs (round : Round) : Int := increaseOf (lit "OutSegs") round.prev round.cur

/-- Both dictionaries of the round are samples, one taken before the other. -/
def ComparesSamples (reads : Nat → Option Counters) (count : Int) (round : Round) : Prop :=
  ∃ i j : Nat, i < j ∧ j ≤ count ∧ Sample reads i round.prev ∧ Sample reads j round.cur

variable {reads : Nat → Option Counters} {count : Int}

/-- What a read leaves behind in the loop. -/
def left (reads : Nat → Option Counters) (k : Nat) : Counters := (reads k).getD ∅

theorem sample_iff {k : Nat} {counters : Counters} :
    Sample reads k counters ↔ left reads k = counters ∧ counters ≠ ∅ := by
  unfold Sample left
  cases reads k with
  | none =>
    constructor
    · rintro ⟨read, -⟩
      cases read
    · rintro ⟨rfl, nonempty⟩
      exact absurd rfl nonempty
  | some found => rw [Option.some_inj, Option.getD_some]

theorem exists_sample_iff {k : Nat} : (∃ counters, Sample reads k counters) ↔ left reads k ≠ ∅ := by
  simp only [sample_iff]
  constructor
  · rintro ⟨counters, rfl, nonempty⟩
    exact nonempty
  · intro nonempty
    exact ⟨_, rfl, nonempty⟩

theorem forall_samples_iff {i j : Nat} (earlier : left reads i ≠ ∅) (later : left reads j ≠ ∅)
    (P : Counters → Counters → Prop) :
    (∀ prev cur, Sample reads i prev → Sample reads j cur → P prev cur) ↔
      P (left reads i) (left reads j) := by
  simp only [sample_iff]
  constructor
  · intro all
    exact all _ _ ⟨rfl, earlier⟩ ⟨rfl, later⟩
  · rintro holds prev cur ⟨rfl, -⟩ ⟨rfl, -⟩
    exact holds

/-! ## The rounds -/

theorem rounds_eq (reads : Nat → Option Counters) (first rest : Nat) :
    rounds (left reads first) ((List.range' (first + 1) rest).map reads) =
      (List.range' first rest).map fun k => report (left reads k) (left reads (k + 1)) := by
  induction rest generalizing first with
  | zero => rfl
  | succ rest ih =>
    rw [List.range'_succ, List.range'_succ, List.map_cons, List.map_cons, rounds]
    congr 1
    exact ih (first + 1)

theorem monitor_eq {first : Counters} (start : Sample reads 0 first) (count : Int) :
    monitor reads count = some ((List.range count.toNat).map fun k =>
      report (left reads k) (left reads (k + 1))) := by
  obtain ⟨read, nonempty⟩ := start
  have isLeft : left reads 0 = first := by rw [left, read, Option.getD_some]
  have some_counter : len first ≠ 0 := by
    intro empty
    exact nonempty (AList.ext (List.length_eq_zero_iff.mp empty))
  rw [monitor, read]
  simp only [if_neg some_counter, Option.some_inj]
  rw [← isLeft, rounds_eq, List.range_eq_range']

theorem report_retransSegs (prev cur : Counters) :
    (report prev cur).retransSegs = increaseOf (lit "RetransSegs") prev cur := rfl

theorem report_outSegs (prev cur : Counters) :
    (report prev cur).outSegs = increaseOf (lit "OutSegs") prev cur := rfl

theorem report_dRe (prev cur : Counters) :
    (report prev cur).dRe = (report prev cur).retransSegs := rfl

theorem report_dOut (prev cur : Counters) :
    (report prev cur).dOut = (report prev cur).outSegs := rfl

theorem report_rate (prev cur : Counters) :
    (report prev cur).rate =
      if 0 < (report prev cur).outSegs then
        ((report prev cur).retransSegs : ℚ) / (report prev cur).outSegs
      else 0 := rfl

/-- A quotient is reported unless `OutSegs` falls and `RetransSegs` does not stay. -/
theorem report_rate_eq_quotient {prev cur : Counters} :
    (report prev cur).rate =
        ((report prev cur).retransSegs : ℚ) / (report prev cur).outSegs ↔
      ((report prev cur).outSegs < 0 → (report prev cur).retransSegs = 0) := by
  rw [report_rate]
  generalize (report prev cur).outSegs = dOut
  generalize (report prev cur).retransSegs = dRe
  rcases lt_trichotomy dOut 0 with falls | rfl | grows
  · rw [if_neg (by omega), eq_comm, div_eq_zero_iff]
    have nonzero : (dOut : ℚ) ≠ 0 := by exact_mod_cast falls.ne
    simp [falls, falls.ne]
  · simp
  · simp [grows, grows.le]

/-- The round of reads `k` and `k + 1` compares samples exactly if both are samples. -/
theorem comparesSamples_iff {k : Nat} (within : (k : Int) < count) :
    ComparesSamples reads count (report (left reads k) (left reads (k + 1))) ↔
      left reads k ≠ ∅ ∧ left reads (k + 1) ≠ ∅ := by
  constructor
  · rintro ⟨i, j, -, -, isPrev, isCur⟩
    exact ⟨isPrev.2, isCur.2⟩
  · rintro ⟨prevNonempty, curNonempty⟩
    exact ⟨k, k + 1, by omega, by omega, sample_iff.mpr ⟨rfl, prevNonempty⟩,
      sample_iff.mpr ⟨rfl, curNonempty⟩⟩

/-! ## Runs with and without failed reads -/

theorem increaseOf_from_nothing (counter : Str) (cur : Counters) :
    increaseOf counter ∅ cur = getDefault cur counter 0 := Int.sub_zero _

theorem increaseOf_to_nothing (counter : Str) (prev : Counters) :
    increaseOf counter prev ∅ = -getDefault prev counter 0 := Int.zero_sub _

theorem forall_round_iff {first : Counters} (start : Sample reads 0 first) {lines : List Round}
    (printed : monitor reads count = some lines) (P : Round → Prop) :
    (∀ round ∈ lines, P round) ↔
      ∀ k : Nat, k < count → P (report (left reads k) (left reads (k + 1))) := by
  rw [monitor_eq start] at printed
  cases printed
  simp only [List.forall_mem_map, List.mem_range, Int.lt_toNat]

theorem left_nonempty {first : Counters} (start : Sample reads 0 first)
    (succeed : ∀ k : Nat, k < count → ∃ counters, Sample reads (k + 1) counters) {k : Nat}
    (within : (k : Int) < count) : left reads k ≠ ∅ ∧ left reads (k + 1) ≠ ∅ := by
  refine ⟨?_, exists_sample_iff.mp (succeed k within)⟩
  cases k with
  | zero => exact exists_sample_iff.mp ⟨first, start⟩
  | succ k => exact exists_sample_iff.mp (succeed k (by omega))

theorem all_compare_samples_iff {first : Counters} (start : Sample reads 0 first) :
    (∀ k : Nat, k < count →
        ComparesSamples reads count (report (left reads k) (left reads (k + 1)))) ↔
      ∀ k : Nat, k < count → ∃ counters, Sample reads (k + 1) counters := by
  constructor
  · intro compared k within
    exact exists_sample_iff.mpr ((comparesSamples_iff within).mp (compared k within)).2
  · intro succeed k within
    exact (comparesSamples_iff within).mpr (left_nonempty start succeed within)

theorem monitor_around_failure {before after : Counters} (first : Sample reads 0 before)
    (fails : reads 1 = none) (last : Sample reads 2 after) :
    monitor reads 2 = some [report before ∅, report ∅ after] := by
  have range : List.range (2 : Int).toNat = [0, 1] := rfl
  have leftOne : left reads 1 = ∅ := by rw [left, fails, Option.getD_none]
  rw [monitor_eq first, range, List.map_cons, List.map_cons, List.map_nil, leftOne,
    (sample_iff.mp first).1, (sample_iff.mp last).1]

/-- The monitor compares samples only, exactly if every read after the first one gives a
    sample; every rate is then a quotient, exactly if `RetransSegs` stays wherever `OutSegs`
    falls from one sample to the next. -/
theorem rates_between_samples_iff (reads : Nat → Option Counters) (count : Int) {first : Counters}
    (start : Sample reads 0 first) :
    ∃ lines, monitor reads count = some lines ∧ lines.length = count.toNat ∧
      ((∀ round ∈ lines, ComparesSamples reads count round ∧
          round.dRe = round.retransSegs ∧ round.dOut = round.outSegs ∧
          round.rate =
            if 0 < round.outSegs then (round.retransSegs : ℚ) / round.outSegs else 0) ↔
        ∀ k : Nat, k < count → ∃ counters, Sample reads (k + 1) counters) ∧
      ((∀ round ∈ lines, ComparesSamples reads count round ∧
          round.rate = (round.retransSegs : ℚ) / round.outSegs) ↔
        (∀ k : Nat, k < count → ∃ counters, Sample reads (k + 1) counters) ∧
        ∀ k : Nat, k < count → ∀ prev cur, Sample reads k prev → Sample reads (k + 1) cur →
          increaseOf (lit "OutSegs") prev cur < 0 →
            increaseOf (lit "RetransSegs") prev cur = 0) := by
  refine ⟨_, monitor_eq start count, by simp, ?_, ?_⟩
  · rw [forall_round_iff start (monitor_eq start count), ← all_compare_samples_iff start]
    simp only [report_dRe, report_dOut, ← report_rate, and_true]
  · rw [forall_round_iff start (monitor_eq start count)]
    simp only [report_rate_eq_quotient, imp_and, forall_and, all_compare_samples_iff start]
    -- With every read a sample, the rounds are the pairs of successive samples.
    refine and_congr_right fun succeed => forall₂_congr fun k within => ?_
    obtain ⟨prevNonempty, curNonempty⟩ := left_nonempty start succeed within
    exact (forall_samples_iff prevNonempty curNonempty fun prev cur =>
      increaseOf (lit "OutSegs") prev cur < 0 → increaseOf (lit "RetransSegs") prev cur = 0).symm

/-! ## The samples of the self-test -/

/-- The columns of `SAMPLE_T0` that count segments. -/
def sampleT0 : Str :=
  lit "Tcp: InSegs OutSegs RetransSegs\n" ++ lit "Tcp: 9000000 8000000 8000\n"

/-- Those of `SAMPLE_T1`, five seconds later. -/
def sampleT1 : Str :=
  lit "Tcp: InSegs OutSegs RetransSegs\n" ++ lit "Tcp: 9400000 8500000 33000\n"

theorem parse_sampleT0 :
    getDefault (parseSnmpTcp sampleT0) (lit "OutSegs") 0 = 8000000 ∧
      getDefault (parseSnmpTcp sampleT0) (lit "RetransSegs") 0 = 8000 := by
  decide +kernel

theorem parse_sampleT1 :
    getDefault (parseSnmpTcp sampleT1) (lit "OutSegs") 0 = 8500000 ∧
      getDefault (parseSnmpTcp sampleT1) (lit "RetransSegs") 0 = 33000 := by
  decide +kernel

theorem self_test_increases :
    increaseOf (lit "OutSegs") (parseSnmpTcp sampleT0) (parseSnmpTcp sampleT1) = 500000 ∧
      increaseOf (lit "RetransSegs") (parseSnmpTcp sampleT0) (parseSnmpTcp sampleT1) = 25000 := by
  rw [increaseOf, increaseOf, parse_sampleT0.1, parse_sampleT0.2, parse_sampleT1.1, parse_sampleT1.2]
  decide

theorem nonempty_of_counted {counters : Counters} {counter : Str}
    (counted : getDefault counters counter 0 ≠ 0) : counters ≠ ∅ := by
  rintro rfl
  exact counted rfl

theorem sampleT0_nonempty : parseSnmpTcp sampleT0 ≠ ∅ :=
  nonempty_of_counted (by rw [parse_sampleT0.1]; decide)

theorem sampleT1_nonempty : parseSnmpTcp sampleT1 ≠ ∅ :=
  nonempty_of_counted (by rw [parse_sampleT1.1]; decide)

def selfTestReads : Nat → Option Counters
  | 0 => readSnmp (some sampleT0)
  | _ => readSnmp (some sampleT1)

theorem sample_selfTestReads_succ {k : Nat} {counters : Counters} :
    Sample selfTestReads (k + 1) counters ↔ counters = parseSnmpTcp sampleT1 := by
  constructor
  · rintro ⟨read, -⟩
    exact (Option.some_inj.mp read).symm
  · intro isT1
    rw [isT1]
    exact ⟨rfl, sampleT1_nonempty⟩

theorem five_percent_reported :
    ∃ lines, monitor selfTestReads 1 = some lines ∧
      ∀ round ∈ lines, round.rate = (round.retransSegs : ℚ) / round.outSegs := by
  have start : Sample selfTestReads 0 (parseSnmpTcp sampleT0) := ⟨rfl, sampleT0_nonempty⟩
  obtain ⟨lines, printed, -, -, quotients⟩ := rates_between_samples_iff selfTestReads 1 start
  refine ⟨lines, printed, fun round member => (quotients.mpr ⟨?_, ?_⟩ round member).2⟩
  · intro k within
    exact ⟨_, sample_selfTestReads_succ.mpr rfl⟩
  · intro k within prev cur isPrev isCur falls
    obtain rfl : k = 0 := by omega
    have isT0 : parseSnmpTcp sampleT0 = prev := Option.some_inj.mp isPrev.1
    rw [← isT0, sample_selfTestReads_succ.mp isCur, self_test_increases.1] at falls
    omega

/-- The second read fails: the first round takes the totals away and the second one reports
    the totals since the boot, a rate that no two samples have. -/
def interrupted : Nat → Option Counters
  | 0 => readSnmp (some sampleT0)
  | 2 => readSnmp (some sampleT1)
  | _ => readSnmp none

theorem sample_interrupted {k : Nat} {counters : Counters} (sample : Sample interrupted k counters) :
    k = 0 ∧ counters = parseSnmpTcp sampleT0 ∨ k = 2 ∧ counters = parseSnmpTcp sampleT1 := by
  match k, sample with
  | 0, ⟨read, _⟩ => exact .inl ⟨rfl, (Option.some_inj.mp read).symm⟩
  | 2, ⟨read, _⟩ => exact .inr ⟨rfl, (Option.some_inj.mp read).symm⟩
  | 1, ⟨read, _⟩ => cases read
  | _ + 3, ⟨read, _⟩ => cases read

theorem monitor_interrupted :
    monitor interrupted 2 =
      some [report (parseSnmpTcp sampleT0) ∅, report ∅ (parseSnmpTcp sampleT1)] :=
  monitor_around_failure ⟨rfl, sampleT0_nonempty⟩ rfl ⟨rfl, sampleT1_nonempty⟩

theorem totals_reported_after_failed_read :
    ∃ lines, monitor interrupted 2 = some lines ∧
      lines.map (fun round => (round.dRe, round.dOut, round.rate)) =
        [(-8000, -8000000, 0), (33000, 8500000, 33 / 8500)] ∧
      ∃ round ∈ lines, ∀ i j prev cur, i < j → Sample interrupted i prev →
        Sample interrupted j cur →
          round.rate ≠
            (increaseOf (lit "RetransSegs") prev cur : ℚ) / increaseOf (lit "OutSegs") prev cur := by
  have taken : (report (parseSnmpTcp sampleT0) ∅).retransSegs = -8000 ∧
      (report (parseSnmpTcp sampleT0) ∅).outSegs = -8000000 := by
    rw [report_retransSegs, report_outSegs, increaseOf_to_nothing, increaseOf_to_nothing,
      parse_sampleT0.1, parse_sampleT0.2]
    exact ⟨rfl, rfl⟩
  have totals : (report ∅ (parseSnmpTcp sampleT1)).retransSegs = 33000 ∧
      (report ∅ (parseSnmpTcp sampleT1)).outSegs = 8500000 := by
    rw [report_retransSegs, report_outSegs, increaseOf_from_nothing, increaseOf_from_nothing]
    exact ⟨parse_sampleT1.2, parse_sampleT1.1⟩
  refine ⟨_, monitor_interrupted, ?_, ?_⟩
  · simp only [List.map_cons, List.map_nil, report_dRe, report_dOut, report_rate, taken, totals]
    norm_num
  · refine ⟨_, List.mem_cons_of_mem _ List.mem_cons_self, ?_⟩
    intro i j prev cur earlier isPrev isCur
    -- The two samples are the only pair, and between them the counters moved by less.
    rcases sample_interrupted isPrev with ⟨first, isT0⟩ | ⟨last, -⟩
    · rcases sample_interrupted isCur with ⟨again, -⟩ | ⟨-, isT1⟩
      · omega
      · rw [report_rate, totals.1, totals.2, isT0, isT1, self_test_increases.1, self_test_increases.2]
        norm_num
    · rcases sample_interrupted isCur with ⟨early, -⟩ | ⟨again, -⟩ <;> omega

end Excalibur.TcpRetrans
