import Mathlib

/-! # Recency order

A log of uses, the last one first.  The keys of the log in the order of their last uses
stand where a move-to-front list has them, and a key is at the position that counts the
different keys used after it.
-/

namespace Excalibur.Library

variable {κ : Type*} [DecidableEq κ]

/-- The keys of a log, each at its last use. -/
def recency : List κ → List κ
  | [] => []
  | key :: log => key :: (recency log).filter fun other => other ≠ key

theorem nodup_recency (log : List κ) : (recency log).Nodup := by
  induction log with
  | nil => exact List.nodup_nil
  | cons key log ih => exact List.nodup_cons.mpr ⟨by simp, ih.filter _⟩

@[simp] theorem mem_recency {log : List κ} {key : κ} : key ∈ recency log ↔ key ∈ log := by
  induction log with
  | nil => exact Iff.rfl
  | cons first log ih =>
    by_cases same : key = first
    · simp [recency, same]
    · simp [recency, same, ih]

theorem filter_ne_of_not_mem {keys : List κ} {key : κ} (absent : key ∉ keys) :
    (keys.filter fun other => other ≠ key) = keys := by
  refine List.filter_eq_self.mpr fun other member => ?_
  rw [decide_eq_true_eq]
  rintro rfl
  exact absent member

/-- What is beyond the first `n + 1` keys is not needed for the next `n + 1`. -/
theorem take_filter_ne {keys : List κ} (distinct : keys.Nodup) (key : κ) (n : Nat) :
    (keys.filter fun other => other ≠ key).take n =
      ((keys.take (n + 1)).filter fun other => other ≠ key).take n := by
  induction keys generalizing n with
  | nil => simp
  | cons first keys ih =>
    obtain ⟨outside, rest⟩ := List.nodup_cons.mp distinct
    by_cases same : first = key
    · subst same
      have fewer : first ∉ keys.take n := fun member => outside (List.mem_of_mem_take member)
      simp only [List.filter_cons, List.take_succ_cons, ne_eq, not_true_eq_false, decide_false,
        Bool.false_eq_true, if_false]
      rw [filter_ne_of_not_mem outside, filter_ne_of_not_mem fewer, List.take_take, min_self]
    · cases n with
      | zero => simp
      | succ n => simpa [same] using ih rest n

theorem take_recency_cons (key : κ) (log : List κ) (n : Nat) :
    (recency (key :: log)).take (n + 1) =
      key :: (((recency log).take (n + 1)).filter fun other => other ≠ key).take n := by
  rw [recency, List.take_succ_cons, take_filter_ne (nodup_recency log)]

theorem mem_take_iff_length_takeWhile {keys : List κ} {key : κ} (member : key ∈ keys) {n : Nat} :
    key ∈ keys.take n ↔ (keys.takeWhile fun other => other ≠ key).length < n := by
  induction keys generalizing n with
  | nil => cases member
  | cons first keys ih =>
    cases n with
    | zero => simp
    | succ n =>
      by_cases same : first = key
      · simp [same]
      · have later : key ∈ keys := (List.mem_cons.mp member).resolve_left (Ne.symm same)
        simpa [same, Ne.symm same] using ih later

theorem takeWhile_filter_ne {keys : List κ} {key first : κ} (different : first ≠ key) :
    (keys.filter fun other => other ≠ first).takeWhile (fun other => other ≠ key) =
      (keys.takeWhile fun other => other ≠ key).filter fun other => other ≠ first := by
  induction keys with
  | nil => rfl
  | cons item keys ih =>
    by_cases dropped : item = first
    · simpa [dropped, different] using ih
    · by_cases found : item = key
      · simp [found, different.symm]
      · simpa [dropped, found] using ih

/-- The keys that stand before a key are those used after it. -/
theorem takeWhile_recency (log : List κ) (key : κ) :
    ((recency log).takeWhile fun other => other ≠ key).toFinset =
      (log.takeWhile fun other => other ≠ key).toFinset := by
  induction log with
  | nil => rfl
  | cons first log ih =>
    by_cases same : first = key
    · simp [recency, same]
    · have ahead : (recency (first :: log)).takeWhile (fun other => other ≠ key) =
          first :: ((recency log).takeWhile fun other => other ≠ key).filter
            fun other => other ≠ first := by
        rw [recency, List.takeWhile_cons_of_pos (by simpa using same), takeWhile_filter_ne same]
      rw [ahead, List.takeWhile_cons_of_pos (by simpa using same), List.toFinset_cons,
        List.toFinset_cons, ← ih]
      ext other
      simp
      tauto

/-- A key is among the first ones when few other keys have been used since. -/
theorem mem_take_recency {log : List κ} {key : κ} {n : Nat} :
    key ∈ (recency log).take n ↔
      key ∈ log ∧ (log.takeWhile fun other => other ≠ key).toFinset.card < n := by
  have count : ((recency log).takeWhile fun other => other ≠ key).length =
      (log.takeWhile fun other => other ≠ key).toFinset.card := by
    have distinct := (nodup_recency log).sublist (List.takeWhile_sublist fun other => other ≠ key)
    rw [← List.toFinset_card_of_nodup distinct, takeWhile_recency]
  rw [← count]
  constructor
  · intro member
    have listed := List.mem_of_mem_take member
    exact ⟨mem_recency.mp listed, (mem_take_iff_length_takeWhile listed).mp member⟩
  · rintro ⟨used, few⟩
    exact (mem_take_iff_length_takeWhile (mem_recency.mpr used)).mpr few

end Excalibur.Library
