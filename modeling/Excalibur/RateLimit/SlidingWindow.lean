import Excalibur.Library.SlidingWindow

/-! # The sliding-window log

`SlidingWindowLog` keeps the times of the calls it admitted and evicts the old ones
from the front, but only when the next call comes.  `allow` reads the clock inside the
lock, so the calls of all threads form one sequence at non-decreasing times.  Numbers
are rationals.

`Remembers` is the invariant: whatever has been evicted, the log still answers for
every window that a later call can ask about.
-/

namespace Excalibur.RateLimit

open Excalibur.Library

structure SlidingWindowLog where
  limit : ℕ
  window : ℚ
  events : List ℚ
  deriving Repr, DecidableEq

namespace SlidingWindowLog

def init (limit : ℕ) (window : ℚ) : SlidingWindowLog :=
  { limit := limit, window := window, events := [] }

def evict (log : SlidingWindowLog) (cutoff : ℚ) : SlidingWindowLog :=
  { log with events := log.events.dropWhile (· ≤ cutoff) }

def allow (log : SlidingWindowLog) (now : ℚ) : Bool × SlidingWindowLog :=
  let cutoff := now - log.window
  let kept := log.evict cutoff
  if kept.events.length < kept.limit then
    (true, { kept with events := kept.events ++ [now] })
  else (false, kept)

/-- A run: the time of each call with the answer it gets. -/
def decisions : SlidingWindowLog → List ℚ → List (ℚ × Bool)
  | _, [] => []
  | log, now :: nows => (now, (log.allow now).1) :: decisions (log.allow now).2 nows

def final : SlidingWindowLog → List ℚ → SlidingWindowLog
  | log, [] => log
  | log, now :: nows => final (log.allow now).2 nows

end SlidingWindowLog

open SlidingWindowLog

/-- The times of the admitted calls. -/
def admittedTimes (entries : List (ℚ × Bool)) : List ℚ := (entries.filter Prod.snd).map Prod.fst

theorem admittedTimes_append (entries more : List (ℚ × Bool)) :
    admittedTimes (entries ++ more) = admittedTimes entries ++ admittedTimes more := by
  simp [admittedTimes]

theorem admittedTimes_singleton (now : ℚ) (answer : Bool) :
    admittedTimes [(now, answer)] = if answer then [now] else [] := by
  cases answer <;> rfl

theorem le_of_mem_admittedTimes {entries : List (ℚ × Bool)} {now time : ℚ}
    (past : ∀ entry ∈ entries, entry.1 ≤ now) (member : time ∈ admittedTimes entries) :
    time ≤ now := by
  obtain ⟨entry, kept, rfl⟩ := List.mem_map.mp member
  exact past entry (List.mem_of_mem_filter kept)

/-! ## What the log remembers -/

/-- The log after the calls `earlier`. -/
structure Remembers (log : SlidingWindowLog) (earlier : List (ℚ × Bool)) : Prop where
  short : log.events.length ≤ log.limit
  sorted : log.events.Pairwise (· ≤ ·)
  recent : ∀ now, (∀ entry ∈ earlier, entry.1 ≤ now) →
    since (now - log.window) log.events =
      within (now - log.window) now (admittedTimes earlier)

theorem remembers_init (limit : ℕ) (window : ℚ) : Remembers (.init limit window) [] :=
  { short := Nat.zero_le _
    sorted := List.Pairwise.nil
    recent := fun _ _ => rfl }

section Step

variable {log : SlidingWindowLog} {earlier : List (ℚ × Bool)} {now : ℚ}

theorem events_evict (remembers : Remembers log earlier)
    (past : ∀ entry ∈ earlier, entry.1 ≤ now) :
    (log.evict (now - log.window)).events =
      within (now - log.window) now (admittedTimes earlier) := by
  rw [← remembers.recent now past, evict, dropWhile_le remembers.sorted]

theorem allow_eq (log : SlidingWindowLog) (now : ℚ) :
    log.allow now =
      let kept := (log.evict (now - log.window)).events
      if kept.length < log.limit then (true, { log with events := kept ++ [now] })
      else (false, { log with events := kept }) := rfl

@[simp] theorem allow_limit (log : SlidingWindowLog) (now : ℚ) :
    (log.allow now).2.limit = log.limit := by
  rw [allow_eq]
  dsimp only
  split <;> rfl

@[simp] theorem allow_window (log : SlidingWindowLog) (now : ℚ) :
    (log.allow now).2.window = log.window := by
  rw [allow_eq]
  dsimp only
  split <;> rfl

/-- A call is admitted when the window that ends at it is not full. -/
theorem allow_iff_room (remembers : Remembers log earlier)
    (past : ∀ entry ∈ earlier, entry.1 ≤ now) :
    (log.allow now).1 = true ↔
      (within (now - log.window) now (admittedTimes earlier)).length < log.limit := by
  rw [allow_eq, ← events_evict remembers past]
  dsimp only
  split
  · rename_i room
    simp [room]
  · rename_i full
    simp [full]

/-- The events after a call: what was not evicted, and the call itself if admitted. -/
theorem events_allow (remembers : Remembers log earlier)
    (past : ∀ entry ∈ earlier, entry.1 ≤ now) :
    (log.allow now).2.events =
      within (now - log.window) now (admittedTimes earlier) ++
        admittedTimes [(now, (log.allow now).1)] := by
  rw [← events_evict remembers past, allow_eq, admittedTimes_singleton]
  dsimp only
  split <;> simp

theorem sorted_allow (remembers : Remembers log earlier)
    (past : ∀ entry ∈ earlier, entry.1 ≤ now) :
    (log.allow now).2.events.Pairwise (· ≤ ·) := by
  rw [events_allow remembers past, ← remembers.recent now past, List.pairwise_append]
  refine ⟨remembers.sorted.filter _, ?_, ?_⟩
  · cases (log.allow now).1 <;> simp [admittedTimes_singleton]
  · intro kept isKept newest isNewest
    rw [remembers.recent now past] at isKept
    have latest : newest = now := by
      rw [admittedTimes_singleton] at isNewest
      split at isNewest <;> simp_all
    have inWindow := (List.mem_filter.mp isKept).2
    simp only [decide_eq_true_eq] at inWindow
    rw [latest]
    exact inWindow.2

theorem short_allow (remembers : Remembers log earlier)
    (past : ∀ entry ∈ earlier, entry.1 ≤ now) :
    (log.allow now).2.events.length ≤ log.limit := by
  rw [events_allow remembers past, ← remembers.recent now past, List.length_append,
    admittedTimes_singleton]
  have trimmed : (since (now - log.window) log.events).length ≤ log.events.length :=
    List.length_filter_le _ _
  have wasShort := remembers.short
  by_cases admitted : (log.allow now).1 = true
  · have room := (allow_iff_room remembers past).mp admitted
    rw [← remembers.recent now past] at room
    simp only [admitted, if_true, List.length_singleton]
    omega
  · simp only [admitted, Bool.false_eq_true, if_false, List.length_nil]
    omega

theorem remembers_allow (remembers : Remembers log earlier)
    (past : ∀ entry ∈ earlier, entry.1 ≤ now) :
    Remembers (log.allow now).2 (earlier ++ [(now, (log.allow now).1)]) := by
  refine ⟨?_, sorted_allow remembers past, ?_⟩
  · rw [allow_limit]
    exact short_allow remembers past
  · intro later latest
    have notBefore : now ≤ later := latest (now, (log.allow now).1) (by simp)
    have pastToo : ∀ entry ∈ earlier, entry.1 ≤ later :=
      fun entry member => (past entry member).trans notBefore
    have newest : ∀ time ∈ admittedTimes [(now, (log.allow now).1)], time ≤ later :=
      fun time member => le_of_mem_admittedTimes (by simpa using notBefore) member
    have cutoffs : now - log.window ≤ later - log.window := by linarith
    -- evicting at `now` and again at `later` is evicting at `later`
    rw [allow_window, events_allow remembers past, ← remembers.recent now past, since_append,
      since_since cutoffs, remembers.recent later pastToo, since_eq_within newest,
      ← within_append, ← admittedTimes_append]

end Step

/-! ## Whole runs -/

theorem map_fst_decisions (log : SlidingWindowLog) (nows : List ℚ) :
    (log.decisions nows).map Prod.fst = nows := by
  induction nows generalizing log with
  | nil => rfl
  | cons now nows ih => rw [decisions, List.map_cons, ih]

theorem pairwise_admittedTimes {nows : List ℚ} (ordered : nows.Pairwise (· ≤ ·))
    (log : SlidingWindowLog) : (admittedTimes (log.decisions nows)).Pairwise (· ≤ ·) := by
  have kept : (admittedTimes (log.decisions nows)).Sublist nows := by
    have all := (List.filter_sublist (p := Prod.snd) (l := log.decisions nows)).map Prod.fst
    rw [map_fst_decisions] at all
    exact all
  exact ordered.sublist kept

/-- The next call comes after `earlier` and after the calls before it. -/
theorem past_of_ordered {earlier : List (ℚ × Bool)} {now : ℚ} {nows : List ℚ} {answer : Bool}
    (ordered : (now :: nows).Pairwise (· ≤ ·))
    (past : ∀ time ∈ now :: nows, ∀ entry ∈ earlier, entry.1 ≤ time) :
    ∀ time ∈ nows, ∀ entry ∈ earlier ++ [(now, answer)], entry.1 ≤ time := by
  intro time member entry listed
  rcases List.mem_append.mp listed with old | new
  · exact past time (List.mem_cons_of_mem now member) entry old
  · rw [List.mem_singleton.mp new]
    exact (List.pairwise_cons.mp ordered).1 time member

theorem remembers_final {log : SlidingWindowLog} {earlier : List (ℚ × Bool)} {nows : List ℚ}
    (remembers : Remembers log earlier) (ordered : nows.Pairwise (· ≤ ·))
    (past : ∀ time ∈ nows, ∀ entry ∈ earlier, entry.1 ≤ time) :
    Remembers (log.final nows) (earlier ++ log.decisions nows) ∧
      (log.final nows).limit = log.limit := by
  induction nows generalizing log earlier with
  | nil => simpa [final, decisions] using remembers
  | cons now nows ih =>
    have step := remembers_allow remembers (past now (by simp))
    have rest := ih step (List.pairwise_cons.mp ordered).2 (past_of_ordered ordered past)
    simpa [final, decisions] using rest

theorem decisions_law {log : SlidingWindowLog} {earlier : List (ℚ × Bool)} {nows : List ℚ}
    (remembers : Remembers log earlier) (ordered : nows.Pairwise (· ≤ ·))
    (past : ∀ time ∈ nows, ∀ entry ∈ earlier, entry.1 ≤ time)
    {before after : List (ℚ × Bool)} {entry : ℚ × Bool}
    (split : log.decisions nows = before ++ entry :: after) :
    entry.2 = true ↔
      (within (entry.1 - log.window) entry.1 (admittedTimes (earlier ++ before))).length <
        log.limit := by
  -- The calls made so far move to `earlier`, where the log remembers them.
  induction nows generalizing log earlier before with
  | nil => simp [decisions] at split
  | cons now nows ih =>
    rw [decisions] at split
    cases before with
    | nil =>
      obtain ⟨rfl, -⟩ := List.cons.inj split
      rw [List.append_nil]
      exact allow_iff_room remembers (past now (by simp))
    | cons first before =>
      obtain ⟨rfl, later⟩ := List.cons.inj split
      have step := remembers_allow remembers (past now (by simp))
      have rest := ih step (List.pairwise_cons.mp ordered).2 (past_of_ordered ordered past) later
      simpa using rest

/-- Each admitted time is the time of an entry, and the admitted times before it are
    those of the entries before that one. -/
theorem admittedTimes_eq_append {entries : List (ℚ × Bool)} {before after : List ℚ} {time : ℚ}
    (split : admittedTimes entries = before ++ time :: after) :
    ∃ front entry back, entries = front ++ entry :: back ∧ entry.2 = true ∧ entry.1 = time ∧
      admittedTimes front = before := by
  obtain ⟨first, second, filtered, rfl, rest⟩ := List.map_eq_append_iff.mp split
  obtain ⟨entry, later, rfl, rfl, -⟩ := List.map_eq_cons_iff.mp rest
  obtain ⟨front, tail, rfl, rfl, tailFiltered⟩ := List.filter_eq_append_iff.mp filtered
  obtain ⟨skipped, back, rfl, refused, admitted, -⟩ := List.filter_eq_cons_iff.mp tailFiltered
  refine ⟨front ++ skipped, entry, back, by simp, admitted, rfl, ?_⟩
  have none : skipped.filter Prod.snd = [] :=
    List.filter_eq_nil_iff.mpr fun other member => by simpa using refused other member
  rw [admittedTimes, List.filter_append, none, List.append_nil]

theorem spread_admittedTimes (limit : ℕ) (window : ℚ) {nows : List ℚ}
    (ordered : nows.Pairwise (· ≤ ·)) :
    Spread limit window (admittedTimes ((init limit window).decisions nows)) := by
  intro before time after split
  obtain ⟨front, entry, back, whole, admitted, rfl, rfl⟩ := admittedTimes_eq_append split
  have law := decisions_law (remembers_init limit window) ordered (by simp) whole
  exact law.mp admitted

/-- A call is admitted exactly when fewer than `limit` admitted calls lie in the window
    that ends at it; no half-open window, wherever it starts, holds more than `limit`;
    and the log stays sorted and within the limit. -/
theorem every_window_within_limit (limit : ℕ) (window : ℚ) (nows : List ℚ)
    (ordered : nows.Pairwise (· ≤ ·)) :
    (∀ before entry after, (init limit window).decisions nows = before ++ entry :: after →
      (entry.2 = true ↔
        (within (entry.1 - window) entry.1 (admittedTimes before)).length < limit)) ∧
    (∀ start, (within start (start + window)
      (admittedTimes ((init limit window).decisions nows))).length ≤ limit) ∧
    (∀ start, ((admittedTimes ((init limit window).decisions nows)).filter
      fun time => start ≤ time ∧ time < start + window).length ≤ limit) ∧
    ((init limit window).final nows).events.Pairwise (· ≤ ·) ∧
    ((init limit window).final nows).events.length ≤ limit := by
  have start := remembers_init limit window
  have spread := spread_admittedTimes limit window ordered
  have sorted := pairwise_admittedTimes ordered (init limit window)
  obtain ⟨remembers, sameLimit⟩ := remembers_final start ordered (by simp)
  refine ⟨?_, ?_, ?_, remembers.sorted, remembers.short.trans sameLimit.le⟩
  · intro before entry after split
    exact decisions_law start ordered (by simp) split
  · intro start
    -- Times in the window are less than its length apart, whichever of its ends is open.
    refine length_le_of_close sorted spread fun first second inFirst inSecond => ?_
    linarith [inFirst.1, inSecond.2]
  · intro start
    refine length_le_of_close sorted spread fun first second inFirst inSecond => ?_
    linarith [inFirst.1, inSecond.2]

/-- Two a second: the third call at one time is refused, and the window reopens when
    the first two have slid out of it. -/
theorem two_a_second_within_limit :
    (init 2 1).decisions [0, 0, 0, 1 / 2, 1, 1] =
      [(0, true), (0, true), (0, false), (1 / 2, false), (1, true), (1, true)] ∧
    ((init 2 1).final [0, 0, 0, 1 / 2, 1, 1]).events.length ≤ 2 :=
  ⟨by decide +kernel,
    (every_window_within_limit 2 1 [0, 0, 0, 1 / 2, 1, 1] (by decide +kernel)).2.2.2.2⟩

end Excalibur.RateLimit
