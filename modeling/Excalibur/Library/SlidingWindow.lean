import Mathlib

/-! # Events in a sliding window

Events on a totally ordered time line, oldest first, and what is left of them once
the old ones have been dropped from the front.

* `dropWhile_le` says that dropping from the front of a sorted log is a filter, so
  that dropping at two cutoffs is dropping at the later one.
* `length_le_of_close` is the bound on any window: if every event had fewer than
  `limit` others in the window that ends at it, then no set of times that fits in one
  window holds more than `limit` events, wherever the window starts.
-/

namespace Excalibur.Library

variable {α : Type*} [LinearOrder α]

/-- The events in `(after, upto]`. -/
def within (after upto : α) (events : List α) : List α :=
  events.filter fun event => after < event ∧ event ≤ upto

/-- The events after the cutoff. -/
def since (cutoff : α) (events : List α) : List α := events.filter (cutoff < ·)

theorem dropWhile_le {events : List α} (sorted : events.Pairwise (· ≤ ·)) (cutoff : α) :
    events.dropWhile (· ≤ cutoff) = since cutoff events := by
  induction events with
  | nil => rfl
  | cons event events ih =>
    obtain ⟨first, rest⟩ := List.pairwise_cons.mp sorted
    by_cases old : event ≤ cutoff
    · simp [since, old, ih rest]
    · -- the front event is recent, and so is everything behind it
      have recent : ∀ later ∈ event :: events, cutoff < later := by
        intro later member
        rcases List.mem_cons.mp member with rfl | behind
        · exact not_le.mp old
        · exact (not_le.mp old).trans_le (first later behind)
      have kept : since cutoff (event :: events) = event :: events :=
        List.filter_eq_self.mpr fun later member => by simpa using recent later member
      rw [kept, List.dropWhile_cons_of_neg (by simpa using old)]

theorem since_since {cutoff later : α} (ordered : cutoff ≤ later) (events : List α) :
    since later (since cutoff events) = since later events := by
  rw [since, since, List.filter_filter]
  refine List.filter_congr fun event _ => ?_
  by_cases recent : later < event
  · simp [recent, ordered.trans_lt recent]
  · simp [recent]

theorem since_append (cutoff : α) (events more : List α) :
    since cutoff (events ++ more) = since cutoff events ++ since cutoff more :=
  List.filter_append ..

theorem within_append (after upto : α) (events more : List α) :
    within after upto (events ++ more) = within after upto events ++ within after upto more :=
  List.filter_append ..

/-- Of events that are all past, the recent ones are those of the window that ends now. -/
theorem since_eq_within {after now : α} {events : List α} (past : ∀ event ∈ events, event ≤ now) :
    since after events = within after now events := by
  refine List.filter_congr fun event member => ?_
  simp [past event member]

/-! ## The bound on any window -/

section Spread

variable [AddCommGroup α]

/-- Every event has fewer than `limit` earlier ones in the window that ends at it. -/
def Spread (limit : ℕ) (window : α) (events : List α) : Prop :=
  ∀ before event after, events = before ++ event :: after →
    (within (event - window) event before).length < limit

theorem spread_of_append {limit : ℕ} {window : α} {events more : List α}
    (spread : Spread limit window (events ++ more)) : Spread limit window events := by
  intro before event after split
  exact spread before event (after ++ more) (by simp [split])

/-- Any set of times of which no two are a whole window apart. -/
theorem length_le_of_close {limit : ℕ} {window : α} {events : List α}
    (sorted : events.Pairwise (· ≤ ·)) (spread : Spread limit window events)
    {chosen : α → Prop} [DecidablePred chosen]
    (close : ∀ first second, chosen first → chosen second → second - window < first) :
    (events.filter fun event => chosen event).length ≤ limit := by
  induction events using List.reverseRecOn with
  | nil => simp
  | append_singleton events event ih =>
    obtain ⟨front, -, last⟩ := List.pairwise_append.mp sorted
    have earlier := ih front (spread_of_append spread)
    rw [List.filter_append, List.length_append]
    by_cases inside : chosen event
    · -- what was counted before `event` lies in the window that ends at it
      have counted : (events.filter fun other => chosen other).length ≤
          (within (event - window) event events).length := by
        rw [within, ← List.countP_eq_length_filter, ← List.countP_eq_length_filter]
        refine List.countP_mono_left fun other member holds => ?_
        have picked : chosen other := by simpa using holds
        simpa using ⟨close other event picked inside, last other member event (by simp)⟩
      have room := spread events event [] rfl
      simp only [inside, decide_true, List.filter_cons_of_pos, List.filter_nil,
        List.length_singleton]
      omega
    · simpa [inside] using earlier

end Spread

end Excalibur.Library
