import Mathlib

/-! # Cutting a list at the first occurrence of a separator

`cut sep items` is what `find`, `partition`, `split` and the test `sep in items`
of a byte string or a text all start from: the part before the first occurrence
of `sep` and the part after it.

The facts a parser needs are that the two parts rebuild the input, that a cut
which is already there is not moved by appending more input, and that a part
free of the separator's first element is cut off whole.
-/

namespace Excalibur.Library

variable {α : Type*} [DecidableEq α]

/-- The parts before and after the first occurrence of `sep`, if there is one. -/
def cut (sep : List α) : List α → Option (List α × List α)
  | [] => if sep = [] then some ([], []) else none
  | item :: items =>
    if sep <+: item :: items then some ([], (item :: items).drop sep.length)
    else (cut sep items).map fun parts => (item :: parts.1, parts.2)

theorem cut_of_isPrefix {sep items : List α} (starts : sep <+: items) :
    cut sep items = some ([], items.drop sep.length) := by
  cases items with
  | nil =>
    have empty : sep = [] := List.prefix_nil.mp starts
    simp [cut, empty]
  | cons item items => simp only [cut, if_pos starts]

theorem cut_cons_of_not_isPrefix {sep items : List α} {item : α}
    (misses : ¬ sep <+: item :: items) :
    cut sep (item :: items) = (cut sep items).map fun parts => (item :: parts.1, parts.2) := by
  simp only [cut, if_neg misses]

/-- The parts and the separator between them rebuild the input. -/
theorem cut_eq_append {sep items before after : List α}
    (found : cut sep items = some (before, after)) : items = before ++ sep ++ after := by
  induction items generalizing before with
  | nil =>
    simp only [cut] at found
    split at found
    · rename_i empty
      cases found
      simp [empty]
    · contradiction
  | cons item items ih =>
    simp only [cut] at found
    split at found
    · rename_i starts
      cases found
      obtain ⟨rest, rebuilt⟩ := starts
      rw [← rebuilt]
      simp
    · simp only [Option.map_eq_some_iff, Prod.mk.injEq] at found
      obtain ⟨⟨first, second⟩, inner, rfl, rfl⟩ := found
      simp [ih inner]

/-- A nonempty separator makes what follows it strictly shorter than the input. -/
theorem length_after_lt {sep items before after : List α} (proper : sep ≠ [])
    (found : cut sep items = some (before, after)) : after.length < items.length := by
  have rebuilt := congrArg List.length (cut_eq_append found)
  have positive := List.length_pos_iff.mpr proper
  simp only [List.length_append] at rebuilt
  omega

/-- More input after a cut goes to the second part. -/
theorem cut_append {sep items before after : List α} (more : List α)
    (found : cut sep items = some (before, after)) :
    cut sep (items ++ more) = some (before, after ++ more) := by
  induction items generalizing before with
  | nil =>
    simp only [cut] at found
    split at found
    · rename_i empty
      cases found
      subst empty
      exact cut_of_isPrefix List.nil_prefix
    · contradiction
  | cons item items ih =>
    simp only [cut] at found
    split at found
    · rename_i starts
      cases found
      rw [cut_of_isPrefix (starts.trans (List.prefix_append _ _)),
        List.drop_append_of_le_length starts.length_le]
    · rename_i misses
      simp only [Option.map_eq_some_iff, Prod.mk.injEq] at found
      obtain ⟨⟨first, second⟩, inner, rfl, rfl⟩ := found
      -- The separator cannot start here either: it occurs later and wholly inside `items`.
      have misses' : ¬ sep <+: item :: (items ++ more) := by
        intro starts
        apply misses
        have fits : sep.length ≤ (item :: items).length := by
          have rebuilt := congrArg List.length (cut_eq_append inner)
          simp only [List.length_append, List.length_cons] at rebuilt ⊢
          omega
        exact List.prefix_of_prefix_length_le starts (List.prefix_append (item :: items) more) fits
      rw [List.cons_append, cut_cons_of_not_isPrefix misses', ih inner]
      rfl

/-- The first occurrence stays the first when nothing follows it. -/
theorem cut_first {sep items before after : List α}
    (found : cut sep items = some (before, after)) : cut sep (before ++ sep) = some (before, []) := by
  induction items generalizing before with
  | nil =>
    simp only [cut] at found
    split at found
    · rename_i empty
      cases found
      simp [empty, cut]
    · contradiction
  | cons item items ih =>
    simp only [cut] at found
    split at found
    · cases found
      rw [List.nil_append, cut_of_isPrefix (List.prefix_refl sep), List.drop_length]
    · rename_i misses
      simp only [Option.map_eq_some_iff, Prod.mk.injEq] at found
      obtain ⟨⟨first, second⟩, inner, rfl, rfl⟩ := found
      -- The separator does not start here either when the rest is left out.
      have misses' : ¬ sep <+: item :: (first ++ sep) := by
        intro starts
        apply misses
        rw [cut_eq_append inner]
        exact starts.trans (List.prefix_append (item :: (first ++ sep)) second)
      rw [List.cons_append, cut_cons_of_not_isPrefix misses', ih inner]
      rfl

theorem cut_replace {sep items before after : List α} (more : List α)
    (found : cut sep items = some (before, after)) :
    cut sep (before ++ sep ++ more) = some (before, more) := by
  rw [cut_append more (cut_first found), List.nil_append]

/-- A part that avoids the separator's first element is cut off whole. -/
theorem cut_append_of_not_mem {head : α} {tail before after : List α} (absent : head ∉ before) :
    cut (head :: tail) (before ++ (head :: tail) ++ after) = some (before, after) := by
  induction before with
  | nil =>
    rw [List.nil_append, cut_of_isPrefix (List.prefix_append _ _)]
    simp
  | cons item before ih =>
    simp only [List.mem_cons, not_or] at absent
    have misses : ¬ (head :: tail) <+: item :: (before ++ (head :: tail) ++ after) := by
      rintro ⟨rest, rebuilt⟩
      rw [List.cons_append, List.cons.injEq] at rebuilt
      exact absent.1 rebuilt.1
    rw [List.cons_append, List.cons_append, cut_cons_of_not_isPrefix misses, ih absent.2]
    rfl

theorem cut_of_not_mem {head : α} {tail items : List α} (absent : head ∉ items) :
    cut (head :: tail) items = none := by
  induction items with
  | nil => simp [cut]
  | cons item items ih =>
    simp only [List.mem_cons, not_or] at absent
    have misses : ¬ (head :: tail) <+: item :: items := by
      rintro ⟨rest, rebuilt⟩
      rw [List.cons_append, List.cons.injEq] at rebuilt
      exact absent.1 rebuilt.1
    rw [cut_cons_of_not_isPrefix misses, ih absent.2]
    rfl

def occursIn (sep items : List α) : Bool := (cut sep items).isSome

theorem occursIn_append {sep items : List α} (more : List α) (occurs : occursIn sep items = true) :
    occursIn sep (items ++ more) = true := by
  obtain ⟨⟨before, after⟩, found⟩ := Option.isSome_iff_exists.mp occurs
  exact Option.isSome_iff_exists.mpr ⟨_, cut_append more found⟩

/-- The separator does not occur before its first occurrence is complete. -/
theorem occursIn_of_short {sep items before after start : List α}
    (found : cut sep items = some (before, after)) (starts : start <+: before ++ sep)
    (short : start.length < (before ++ sep).length) : occursIn sep start = false := by
  obtain ⟨more, rebuilt⟩ := starts
  by_contra occurs
  obtain ⟨⟨front, back⟩, early⟩ := Option.isSome_iff_exists.mp (Bool.of_not_eq_false occurs)
  have whole := cut_append more early
  rw [rebuilt, cut_first found] at whole
  simp only [Option.some.injEq, Prod.mk.injEq, List.nil_eq, List.append_eq_nil_iff] at whole
  rw [← rebuilt, whole.2.2, List.append_nil] at short
  exact lt_irrefl _ short

/-- A part without the separator is cut off whole, when the separator cannot start again
    inside itself. -/
theorem cut_append_of_not_occurs {head : α} {tail before after : List α} (once : head ∉ tail)
    (absent : occursIn (head :: tail) before = false) :
    cut (head :: tail) (before ++ (head :: tail) ++ after) = some (before, after) := by
  rw [occursIn, Option.isSome_eq_false_iff, Option.isNone_iff_eq_none] at absent
  induction before with
  | nil =>
    rw [List.nil_append, cut_of_isPrefix (List.prefix_append _ _)]
    simp
  | cons item before ih =>
    have notHere : ¬ (head :: tail) <+: item :: before := by
      intro starts
      rw [cut_of_isPrefix starts] at absent
      cases absent
    rw [cut_cons_of_not_isPrefix notHere, Option.map_eq_none_iff] at absent
    -- The separator does not start here after joining either.
    have misses : ¬ (head :: tail) <+: item :: (before ++ (head :: tail) ++ after) := by
      intro starts
      rw [List.append_assoc, ← List.cons_append] at starts
      rcases List.prefix_or_prefix_of_prefix starts (List.prefix_append ..) with inside | covers
      · exact notHere inside
      · -- The separator would begin with the part and go on into its own start.
        obtain ⟨more, split⟩ := covers
        rw [← split, List.prefix_append_right_inj, split] at starts
        cases more with
        | nil =>
          rw [List.append_nil] at split
          exact notHere (split ▸ List.prefix_refl _)
        | cons next more =>
          obtain rfl : next = head := (List.cons_prefix_cons.mp starts).1
          rw [List.cons_append, List.cons.injEq] at split
          apply once
          rw [← split.2]
          simp
    rw [List.cons_append, List.cons_append, cut_cons_of_not_isPrefix misses, ih absent]
    rfl

/-- `items.partition(sep)` without its middle component: all of `items` and nothing
    when the separator does not occur. -/
def partition (sep items : List α) : List α × List α :=
  (cut sep items).getD (items, [])

theorem partition_of_not_mem {head : α} {tail items : List α} (absent : head ∉ items) :
    partition (head :: tail) items = (items, []) := by
  rw [partition, cut_of_not_mem absent, Option.getD_none]

theorem partition_append_of_not_mem {head : α} {tail before after : List α}
    (absent : head ∉ before) :
    partition (head :: tail) (before ++ (head :: tail) ++ after) = (before, after) := by
  rw [partition, cut_append_of_not_mem absent, Option.getD_some]

/-- `items.split(sep)` for a nonempty separator. -/
def splitAll (sep : List α) (proper : sep ≠ []) (items : List α) : List (List α) :=
  match _found : cut sep items with
  | none => [items]
  | some (before, after) => before :: splitAll sep proper after
termination_by items.length
decreasing_by exact length_after_lt proper _found

/-- Splitting undoes joining, when no part contains the separator. -/
theorem splitAll_intercalate {head : α} {tail : List α} (once : head ∉ tail) {parts : List (List α)}
    (nonempty : parts ≠ []) (each : ∀ part ∈ parts, occursIn (head :: tail) part = false) :
    splitAll (head :: tail) (List.cons_ne_nil _ _) ((head :: tail).intercalate parts) = parts := by
  induction parts with
  | nil => exact absurd rfl nonempty
  | cons part parts ih =>
    obtain ⟨absent, others⟩ := List.forall_mem_cons.mp each
    cases parts with
    | nil =>
      have none : cut (head :: tail) part = none := by
        rwa [occursIn, Option.isSome_eq_false_iff, Option.isNone_iff_eq_none] at absent
      have whole : (head :: tail).intercalate [part] = part := by simp [List.intercalate]
      rw [splitAll, whole, none]
    | cons next parts =>
      have joined : (head :: tail).intercalate (part :: next :: parts) =
          part ++ (head :: tail) ++ (head :: tail).intercalate (next :: parts) := by
        simp [List.intercalate]
      rw [splitAll, joined, cut_append_of_not_occurs once absent]
      exact congrArg (part :: ·) (ih (List.cons_ne_nil _ _) others)

def splitUpTo (sep : List α) : Nat → List α → List (List α)
  | 0, items => [items]
  | limit + 1, items =>
    match cut sep items with
    | none => [items]
    | some (before, after) => before :: splitUpTo sep limit after

end Excalibur.Library
