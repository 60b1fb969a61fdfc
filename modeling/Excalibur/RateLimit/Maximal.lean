import Excalibur.Library.Greedy
import Excalibur.RateLimit.SlidingWindow
import Excalibur.RateLimit.TokenBucket

/-! # Nothing is refused without need

A limiter that refused everything would keep its limit too.  Here the limit is stated about
the answers alone, over intervals of time, and whoever answers the same calls within the
limit has not admitted more of them than the limiter, at any point of the run.
-/

namespace Excalibur.RateLimit

open Excalibur.Library

/-! ## Token buckets with calls of equal cost -/

/-- In every closed interval, the admitted cost is at most the capacity and what is
    refilled meanwhile. -/
def WithinRate (rate capacity : ℚ) (entries : List (Call × Bool)) : Prop :=
  ∀ start finish, start ≤ finish →
    ((entries.filter fun entry => start ≤ entry.1.now ∧ entry.1.now ≤ finish).map
      admittedCost).sum ≤ capacity + rate * (finish - start)

section TokenBucket

variable {rate capacity start cost : ℚ}

theorem sum_admittedCost {entries : List (Call × Bool)}
    (equal : ∀ entry ∈ entries, entry.1.cost = cost) :
    (entries.map admittedCost).sum = admissions entries * cost := by
  induction entries with
  | nil => simp [admissions]
  | cons entry entries ih =>
    obtain ⟨call, answer⟩ := entry
    have first : call.cost = cost := equal (call, answer) List.mem_cons_self
    have rest := ih fun other member => equal other (List.mem_cons_of_mem _ member)
    have split := admissions_append [(call, answer)] entries
    rw [List.singleton_append, admissions_singleton] at split
    rw [List.map_cons, List.sum_cons, rest, split, admittedCost]
    cases answer
    · simp
    · rw [if_pos rfl, first, Bool.toNat_true]
      push_cast
      ring

theorem equal_of_prefix {calls : List Call} (equal : ∀ call ∈ calls, call.cost = cost)
    {entries : List (Call × Bool)} {call : Call}
    (isPrefix : entries.map Prod.fst ++ [call] <+: calls) :
    ∀ entry ∈ entries, entry.1.cost = cost := by
  intro entry member
  apply equal
  apply isPrefix.subset
  rw [List.mem_append]
  exact .inl (List.mem_map_of_mem member)

/-- With equal costs only the number of the recent admissions matters. -/
theorem admissionLaw_monotone (nonnegative : 0 ≤ cost) {calls : List Call}
    (equal : ∀ call ∈ calls, call.cost = cost) :
    MonotoneLaw calls (AdmissionLaw rate capacity start) := by
  intro more fewer call same isPrefix fewerAdmitted law
  have equalMore := equal_of_prefix equal isPrefix
  have equalFewer := equal_of_prefix equal (same ▸ isPrefix)
  have smaller (index : Nat) : ((fewer.drop index).map admittedCost).sum ≤
      ((more.drop index).map admittedCost).sum := by
    rw [sum_admittedCost fun entry member => equalFewer entry (List.mem_of_mem_drop member),
      sum_admittedCost fun entry member => equalMore entry (List.mem_of_mem_drop member)]
    have counts : (admissions (fewer.drop index) : ℚ) ≤ admissions (more.drop index) := by
      exact_mod_cast fewerAdmitted index
    exact mul_le_mul_of_nonneg_right counts nonnegative
  refine ⟨law.burst, ?_, ?_⟩
  · have whole := smaller 0
    have room := law.fromStart
    rw [List.drop_zero, List.drop_zero] at whole
    linarith
  · rintro before first rest rfl
    have here := smaller before.length
    rw [List.drop_left] at here
    -- The call at the same place of the other history.
    have length : more.length = (before ++ first :: rest).length := by
      simpa using congrArg List.length same
    have inside : before.length < more.length := by
      rw [length, List.length_append, List.length_cons]
      omega
    have sameFirst : more[before.length].1 = first.1 := by
      have atIndex := congrArg (·[before.length]?) same
      simpa [inside] using atIndex
    rw [List.drop_eq_getElem_cons inside] at here
    have room := law.fromCall (more.take before.length) more[before.length]
      (more.drop (before.length + 1)) (by rw [List.cons_getElem_drop_succ, List.take_append_drop])
    rw [sameFirst] at room
    linarith

theorem map_fst_history (allow : TokenBucket → Call → Bool × TokenBucket) (b : TokenBucket)
    (calls : List Call) : (history allow b calls).map Prod.fst = calls := by
  induction calls generalizing b with
  | nil => rfl
  | cons call calls ih => rw [history, List.map_cons, ih]

theorem admittedCost_nonneg {entries : List (Call × Bool)}
    (costs : ∀ entry ∈ entries, 0 ≤ entry.1.cost) :
    ∀ amount ∈ entries.map admittedCost, 0 ≤ amount := by
  intro amount member
  obtain ⟨entry, inside, rfl⟩ := List.mem_map.mp member
  unfold admittedCost
  split
  · exact costs entry inside
  · exact le_refl 0

/-- Calls that end with an admitted one stay within the rate of their interval. -/
theorem WithinRate.room {entries : List (Call × Bool)} (within : WithinRate rate capacity entries)
    (costs : ∀ entry ∈ entries, 0 ≤ entry.1.cost) {segment : List (Call × Bool)} {call : Call}
    (part : (segment ++ [(call, true)]).Sublist entries) {first : ℚ} (started : first ≤ call.now)
    (inside : ∀ entry ∈ segment, first ≤ entry.1.now ∧ entry.1.now ≤ call.now) :
    (segment.map admittedCost).sum + call.cost ≤ capacity + rate * (call.now - first) := by
  have kept : (segment ++ [(call, true)]).filter
      (fun entry => first ≤ entry.1.now ∧ entry.1.now ≤ call.now) = segment ++ [(call, true)] := by
    refine List.filter_eq_self.mpr fun entry member => decide_eq_true ?_
    rcases List.mem_append.mp member with earlier | last
    · exact inside entry earlier
    · rw [List.mem_singleton.mp last]
      exact ⟨started, le_refl _⟩
  have filtered := part.filter fun entry => first ≤ entry.1.now ∧ entry.1.now ≤ call.now
  rw [kept] at filtered
  have least := (filtered.map admittedCost).sum_le_sum
    (admittedCost_nonneg fun entry member => costs entry (List.mem_of_mem_filter member))
  rw [List.map_append, List.sum_append] at least
  simp only [List.map_singleton, List.sum_singleton, admittedCost, if_true] at least
  exact least.trans (within first call.now started)

/-- Answers within the rate obey the law of the bucket. -/
theorem WithinRate.law {entries before after : List (Call × Bool)} {call : Call}
    (within : WithinRate rate capacity entries) (costs : ∀ entry ∈ entries, 0 ≤ entry.1.cost)
    (ordered : (start :: entries.map fun entry => entry.1.now).Pairwise (· ≤ ·))
    (split : entries = before ++ (call, true) :: after) :
    AdmissionLaw rate capacity start before call := by
  obtain ⟨fromStart, sorted⟩ := List.pairwise_cons.mp ordered
  rw [split, List.map_append, List.map_cons, List.pairwise_append] at sorted
  obtain ⟨sortedBefore, -, upTo⟩ := sorted
  have last (entry : Call × Bool) (member : entry ∈ before) : entry.1.now ≤ call.now :=
    upTo _ (List.mem_map_of_mem member) call.now List.mem_cons_self
  have part (segment earlier : List (Call × Bool)) (tail : before = earlier ++ segment) :
      (segment ++ [(call, true)]).Sublist entries := by
    rw [split, tail, List.append_assoc]
    refine List.Sublist.trans ?_ (List.sublist_append_right _ _)
    simp
  refine ⟨?_, ?_, ?_⟩
  · have room := within.room costs (part [] before (by simp)) (le_refl call.now) (by simp)
    simpa using room
  · have first : start ≤ call.now := fromStart _ (by simp [split])
    refine within.room costs (part before [] rfl) first fun entry member => ⟨?_, last entry member⟩
    exact fromStart _ (List.mem_map_of_mem (by rw [split]; exact List.mem_append_left _ member))
  · rintro earlier first rest rfl
    refine within.room costs (part (first :: rest) earlier rfl) (last first (by simp)) ?_
    intro entry member
    refine ⟨?_, last entry (List.mem_append_right _ member)⟩
    rcases List.mem_cons.mp member with rfl | later
    · exact le_refl _
    · rw [List.map_append, List.pairwise_append] at sortedBefore
      exact (List.pairwise_cons.mp sortedBefore.2.1).1 _ (List.mem_map_of_mem later)

/-- Conversely, answers that obey the law of the bucket stay within the rate. -/
theorem withinRate_of_law {entries : List (Call × Bool)} (ratePositive : 0 ≤ rate)
    (capacityPositive : 0 ≤ capacity) (costs : ∀ entry ∈ entries, 0 ≤ entry.1.cost)
    (sorted : (entries.map fun entry => entry.1.now).Pairwise (· ≤ ·))
    (law : ∀ before call after, entries = before ++ (call, true) :: after →
      AdmissionLaw rate capacity start before call) : WithinRate rate capacity entries := by
  intro first last ordered
  have refilled : 0 ≤ rate * (last - first) := mul_nonneg ratePositive (by linarith)
  induction entries using List.reverseRecOn with
  | nil =>
    simp only [List.filter_nil, List.map_nil, List.sum_nil]
    linarith
  | append_singleton entries entry ih =>
    obtain ⟨call, answer⟩ := entry
    rw [List.map_append, List.pairwise_append] at sorted
    obtain ⟨sortedFront, -, upTo⟩ := sorted
    have front := ih (fun other member => costs other (List.mem_append_left _ member)) sortedFront
      fun before other after split => law before other (after ++ [(call, answer)]) (by simp [split])
    rw [List.filter_append, List.map_append, List.sum_append]
    by_cases counted : answer = true ∧ first ≤ call.now ∧ call.now ≤ last
    · obtain ⟨rfl, inside⟩ := counted
      have own := law entries call [] rfl
      have newest : ([(call, true)].filter fun entry =>
          first ≤ entry.1.now ∧ entry.1.now ≤ last) = [(call, true)] := by
        simp [inside]
      rw [newest, List.map_singleton, List.sum_singleton, admittedCost, if_pos rfl]
      -- The interval starts at its first call, which the law of the last one speaks of.
      cases kept : entries.filter fun entry => first ≤ entry.1.now ∧ entry.1.now ≤ last with
      | nil =>
        have burst := own.burst
        simp only [List.map_nil, List.sum_nil]
        linarith
      | cons oldest others =>
        obtain ⟨before, rest, rfl, -, oldestInside, rfl⟩ := List.filter_eq_cons_iff.mp kept
        have room := own.fromCall before oldest rest rfl
        have began : first ≤ oldest.1.now := (of_decide_eq_true oldestInside).1
        have fewer := ((List.filter_sublist (l := rest) (p := fun entry =>
          decide (first ≤ entry.1.now ∧ entry.1.now ≤ last))).map admittedCost).sum_le_sum
            (admittedCost_nonneg fun other member => costs other (by simp [member]))
        have longer : rate * (call.now - oldest.1.now) ≤ rate * (last - first) :=
          mul_le_mul_of_nonneg_left (by linarith [inside.2]) ratePositive
        rw [List.map_cons, List.sum_cons] at room ⊢
        linarith
    · have nothing : (([(call, answer)].filter fun entry =>
          first ≤ entry.1.now ∧ entry.1.now ≤ last).map admittedCost).sum = 0 := by
        by_cases inside : first ≤ call.now ∧ call.now ≤ last
        · have refused : answer = false := by simpa [inside] using counted
          simp [inside, refused, admittedCost]
        · simp [inside]
      rw [nothing, add_zero]
      exact front

/-- Both buckets stay within the rate in every interval, and any other answers to the same
    calls that do so have admitted at most as many of them at every point. -/
theorem token_buckets_are_maximal (ratePositive : 0 ≤ rate) (capacityPositive : 0 ≤ capacity)
    (nonnegative : 0 ≤ cost) (calls : List Call) (equal : ∀ call ∈ calls, call.cost = cost)
    (ordered : (start :: calls.map Call.now).Pairwise (· ≤ ·)) :
    WithinRate rate capacity (history Edge.allow (.init rate capacity start) calls) ∧
    WithinRate rate capacity (history Locked.allow (.init rate capacity start) calls) ∧
    ∀ other : List (Call × Bool), other.map Prod.fst = calls → WithinRate rate capacity other →
      ∀ n, admissions (other.take n) ≤
          admissions ((history Edge.allow (.init rate capacity start) calls).take n) ∧
        admissions (other.take n) ≤
          admissions ((history Locked.allow (.init rate capacity start) calls).take n) := by
  have costs (call : Call) (member : call ∈ calls) : 0 ≤ call.cost := by
    rw [equal call member]
    exact nonnegative
  have agree : history Edge.allow (.init rate capacity start) calls =
      history Locked.allow (.init rate capacity start) calls :=
    history_edge (le_refl capacity) costs ordered
  have answered := map_fst_history Locked.allow (.init rate capacity start) calls
  have full : (TokenBucket.init rate capacity start).reservoir =
      (Reservoir.full capacity (rate * start)).drawAll
        (([] : List (Call × Bool)).map (drawOf rate)) := rfl
  have own : WithinRate rate capacity (history Locked.allow (.init rate capacity start) calls) := by
    apply withinRate_of_law ratePositive capacityPositive
    · intro entry member
      apply costs
      rw [← answered]
      exact List.mem_map_of_mem member
    · have times := (List.pairwise_cons.mp ordered).2
      rw [← answered, List.map_map] at times
      exact times
    · intro before call after split
      exact (history_law rfl full split).mp rfl
  rw [agree]
  refine ⟨own, own, fun other others within n => ?_⟩
  have monotone : MonotoneLaw (other.map Prod.fst) (AdmissionLaw rate capacity start) :=
    admissionLaw_monotone nonnegative (others ▸ equal)
  have obeys (before : List (Call × Bool)) (call : Call) (after : List (Call × Bool))
      (split : other = before ++ (call, true) :: after) :
      AdmissionLaw rate capacity start before call := by
    refine within.law ?_ ?_ split
    · intro entry member
      apply costs
      rw [← others]
      exact List.mem_map_of_mem member
    · rw [← others, List.map_map] at ordered
      exact ordered
  have ahead := greedy_is_ahead monotone (answered.trans others.symm)
    (fun _ _ _ _ split allowed => (history_law rfl full split).mpr allowed) obeys n
  exact ⟨ahead, ahead⟩

/-- Answers to `burst` that refuse the first call and admit the other two that fit. -/
def hesitant : List (Call × Bool) := burst.zip [false, true, true, false]

theorem burst_is_answered_best :
    WithinRate 1 2 (history Edge.allow (.init 1 2 1) burst) ∧
    admissions (hesitant.take 2) ≤
      admissions ((history Edge.allow (.init 1 2 1) burst).take 2) := by
  have within : WithinRate 1 2 hesitant := by
    intro first last ordered
    have total : (hesitant.map admittedCost).sum = 2 := by decide +kernel
    have part := ((List.filter_sublist (l := hesitant) (p := fun entry =>
      decide (first ≤ entry.1.now ∧ entry.1.now ≤ last))).map admittedCost).sum_le_sum
        (admittedCost_nonneg (by decide +kernel))
    linarith
  have maximal := token_buckets_are_maximal (by norm_num : (0 : ℚ) ≤ 1) (by norm_num : (0 : ℚ) ≤ 2)
    (by norm_num : (0 : ℚ) ≤ 1) burst (by decide +kernel)
    (by decide +kernel : ((1 : ℚ) :: burst.map Call.now).Pairwise (· ≤ ·))
  exact ⟨maximal.1, (maximal.2.2 hesitant rfl within 2).1⟩

end TokenBucket

/-! ## The sliding-window log -/

section SlidingWindow

open SlidingWindowLog

variable {limit : ℕ} {window : ℚ}

/-- No window `(start, start + window]` holds more than `limit` admitted calls. -/
def WithinLimit (limit : ℕ) (window : ℚ) (entries : List (ℚ × Bool)) : Prop :=
  ∀ start, (within start (start + window) (admittedTimes entries)).length ≤ limit

/-- The admitted calls in a window that ends now are those from some point on, which
    depends on the times only. -/
theorem length_within_eq {entries : List (ℚ × Bool)} {now cutoff : ℚ}
    (sorted : (entries.map Prod.fst ++ [now]).Pairwise (· ≤ ·)) :
    (within cutoff now (admittedTimes entries)).length =
      admissions (entries.drop ((entries.map Prod.fst).takeWhile (· ≤ cutoff)).length) := by
  induction entries with
  | nil => rfl
  | cons entry entries ih =>
    obtain ⟨time, answer⟩ := entry
    rw [List.map_cons, List.cons_append] at sorted
    obtain ⟨upTo, later⟩ := List.pairwise_cons.mp sorted
    by_cases old : time ≤ cutoff
    · have dropped : within cutoff now (admittedTimes ((time, answer) :: entries)) =
          within cutoff now (admittedTimes entries) := by
        cases answer
        · rfl
        · exact List.filter_cons_of_neg (by simp [old])
      rw [dropped, ih later, List.map_cons, List.takeWhile_cons_of_pos (by simp [old]),
        List.length_cons, List.drop_succ_cons]
    -- From here on all are recent.
    · have recent : within cutoff now (admittedTimes ((time, answer) :: entries)) =
          admittedTimes ((time, answer) :: entries) := by
        refine List.filter_eq_self.mpr fun other member => decide_eq_true ?_
        obtain ⟨found, isAdmitted, rfl⟩ := List.mem_map.mp member
        rcases List.mem_cons.mp (List.mem_of_mem_filter isAdmitted) with rfl | behind
        · exact ⟨not_le.mp old, upTo now (by simp)⟩
        · have inTimes := List.mem_map_of_mem (f := Prod.fst) behind
          exact ⟨(not_le.mp old).trans_le (upTo _ (List.mem_append_left _ inTimes)),
            (List.pairwise_append.mp later).2.2 _ inTimes now (by simp)⟩
      rw [recent, List.map_cons, List.takeWhile_cons_of_neg (by simpa using old), List.length_nil,
        List.drop_zero, admittedTimes, List.length_map, admissions, List.countP_eq_length_filter]

theorem windowLaw_monotone {nows : List ℚ} (ordered : nows.Pairwise (· ≤ ·)) :
    MonotoneLaw nows fun earlier now =>
      (within (now - window) now (admittedTimes earlier)).length < limit := by
  intro more fewer now same isPrefix fewerAdmitted law
  have sorted := ordered.sublist isPrefix.sublist
  rw [length_within_eq sorted] at law
  rw [length_within_eq (same ▸ sorted), ← same]
  exact (fewerAdmitted _).trans_lt law

/-- A further admitted call lies in the window that ends at it. -/
theorem WithinLimit.law {entries before after : List (ℚ × Bool)} {now : ℚ}
    (within : WithinLimit limit window entries) (positive : 0 < window)
    (split : entries = before ++ (now, true) :: after) :
    (Library.within (now - window) now (admittedTimes before)).length < limit := by
  have bound := within (now - window)
  rw [sub_add_cancel, split, List.append_cons, admittedTimes_append, admittedTimes_append,
    admittedTimes_singleton, if_pos rfl, within_append, within_append, List.length_append,
    List.length_append] at bound
  have self : (Library.within (now - window) now [now]).length = 1 := by
    simp [Library.within, positive]
  omega

/-- The log stays within the limit in every window, and any other answers to the same calls
    that do so have admitted at most as many of them at every point. -/
theorem sliding_window_is_maximal (limit : ℕ) (positive : 0 < window) (nows : List ℚ)
    (ordered : nows.Pairwise (· ≤ ·)) :
    WithinLimit limit window ((init limit window).decisions nows) ∧
    ∀ other : List (ℚ × Bool), other.map Prod.fst = nows → WithinLimit limit window other →
      ∀ n, admissions (other.take n) ≤
        admissions (((init limit window).decisions nows).take n) := by
  have start := remembers_init limit window
  refine ⟨?_, fun other others within n => ?_⟩
  · intro first
    -- Times in the window are less than its length apart.
    refine length_le_of_close (pairwise_admittedTimes ordered (init limit window))
      (spread_admittedTimes limit window ordered) fun earlier later inEarlier inLater => ?_
    linarith [inEarlier.1, inLater.2]
  · have monotone : MonotoneLaw (other.map Prod.fst) fun earlier now =>
        (Library.within (now - window) now (admittedTimes earlier)).length < limit :=
      windowLaw_monotone (others ▸ ordered)
    refine greedy_is_ahead monotone ((map_fst_decisions _ nows).trans others.symm) ?_ ?_ n
    · intro before now answer after split
      exact (decisions_law start ordered (by simp) split).mpr
    · intro before now after split
      exact within.law positive split

/-- Answers to five calls that hold back at the start, against two a second. -/
def cautious : List (ℚ × Bool) := [(0, false), (0, true), (0, false), (1 / 2, true), (1, false)]

theorem two_a_second_is_maximal :
    WithinLimit 2 1 ((init 2 1).decisions [0, 0, 0, 1 / 2, 1]) ∧
    admissions (cautious.take 3) ≤ admissions (((init 2 1).decisions [0, 0, 0, 1 / 2, 1]).take 3) := by
  have within : WithinLimit 2 1 cautious := by
    intro first
    have total : (admittedTimes cautious).length = 2 := by decide +kernel
    exact (List.length_filter_le _ _).trans total.le
  have maximal := sliding_window_is_maximal 2 (by norm_num : (0 : ℚ) < 1) [0, 0, 0, 1 / 2, 1]
    (by decide +kernel)
  exact ⟨maximal.1, maximal.2 cautious rfl within 3⟩

end SlidingWindow

end Excalibur.RateLimit
