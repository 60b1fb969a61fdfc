import Excalibur.Library.Cut

/-! # Buffered reading from a segmented stream

A stream is delivered in nonempty segments.  A reader keeps the items that it has
received and not yet used in a buffer, and `fill enough` receives segments until
the buffer has enough or the stream has ended.

How the stream is cut shows in the buffer only: the buffer followed by what is
unread is the same before and after filling (`fill_content`).  So what is cut off
the buffer at a separator or at a length is cut off the stream (`fill_partition`,
`fill_take`, `fill_drop`).
-/

namespace Excalibur.Library

variable {α : Type*} {limit : Nat}

/-- What one receive call returns: at least one item and at most `limit`. -/
structure Segment (α : Type*) (limit : Nat) where
  items : List α
  nonempty : items ≠ []
  bounded : items.length ≤ limit

def unread (segments : List (Segment α limit)) : List α := segments.flatMap Segment.items

@[simp] theorem unread_nil : unread ([] : List (Segment α limit)) = [] := rfl

@[simp] theorem unread_cons (segment : Segment α limit) (segments : List (Segment α limit)) :
    unread (segment :: segments) = segment.items ++ unread segments := by
  simp [unread]

@[simp] theorem unread_append (first second : List (Segment α limit)) :
    unread (first ++ second) = unread first ++ unread second := by
  simp [unread]

/-- Receive into the buffer until it has enough or the stream has ended. -/
def fill (enough : List α → Bool) (buffer : List α) :
    List (Segment α limit) → List α × List (Segment α limit)
  | [] => (buffer, [])
  | segment :: segments =>
    -- No call to receive once there is enough.
    if enough buffer then (buffer, segment :: segments)
    else fill enough (buffer ++ segment.items) segments

section Rules

variable (enough : List α → Bool) (buffer : List α) (segments : List (Segment α limit))

/-- Filling moves items from the stream to the buffer. -/
theorem fill_content :
    (fill enough buffer segments).1 ++ unread (fill enough buffer segments).2 =
      buffer ++ unread segments := by
  induction segments generalizing buffer with
  | nil => rfl
  | cons segment segments ih =>
    rw [fill]
    split
    · rfl
    · rw [ih, unread_cons, List.append_assoc]

/-- Filling stops with enough, or with all of the stream in the buffer. -/
theorem fill_stops :
    enough (fill enough buffer segments).1 = true ∨ (fill enough buffer segments).2 = [] := by
  induction segments generalizing buffer with
  | nil => exact .inr rfl
  | cons segment segments ih =>
    rw [fill]
    split
    · rename_i holds
      exact .inl holds
    · exact ih _

theorem fill_all (ended : (fill enough buffer segments).2 = []) :
    (fill enough buffer segments).1 = buffer ++ unread segments := by
  have content := fill_content enough buffer segments
  rwa [ended, unread_nil, List.append_nil] at content

theorem fill_never : (fill (fun _ => false) buffer segments).1 = buffer ++ unread segments :=
  fill_all _ _ _ (by simpa using fill_stops (fun _ => false) buffer segments)

theorem fill_length :
    (fill enough buffer segments).1.length + (unread (fill enough buffer segments).2).length =
      buffer.length + (unread segments).length := by
  rw [← List.length_append, fill_content, List.length_append]

variable {enough buffer}

theorem fill_of_enough (holds : enough buffer = true) :
    fill enough buffer segments = (buffer, segments) := by
  cases segments with
  | nil => rfl
  | cons segment segments => rw [fill, if_pos holds]

/-- A buffer that had to be filled did not have enough before the last segment. -/
theorem fill_last (short : enough buffer = false)
    (holds : enough (fill enough buffer segments).1 = true) :
    ∃ earlier, ∃ segment ∈ segments,
      (fill enough buffer segments).1 = earlier ++ segment.items ∧ enough earlier = false := by
  induction segments generalizing buffer with
  | nil => simp [fill, short] at holds
  | cons segment segments ih =>
    rw [fill, if_neg (by simp [short])] at holds ⊢
    -- Either this segment makes it enough, or the last segment is a later one.
    by_cases next : enough (buffer ++ segment.items) = true
    · rw [fill_of_enough segments next]
      exact ⟨buffer, segment, by simp, rfl, short⟩
    · obtain ⟨earlier, other, member, split, before⟩ := ih (Bool.of_not_eq_true next) holds
      exact ⟨earlier, other, by simp [member], split, before⟩

theorem fill_append (early more : List (Segment α limit))
    (short : ∀ k < early.length, enough (buffer ++ unread (early.take k)) = false) :
    fill enough buffer (early ++ more) = fill enough (buffer ++ unread early) more := by
  induction early generalizing buffer with
  | nil => simp
  | cons segment early ih =>
    have first : enough buffer = false := by simpa using short 0 (by simp)
    rw [List.cons_append, fill, if_neg (by simp [first]), ih]
    · rw [unread_cons, List.append_assoc]
    · intro k bound
      have next := short (k + 1) (by simpa using bound)
      simpa [List.append_assoc] using next

end Rules

/-! ## What is cut off the buffer -/

/-- The buffer filled up to a separator is split where the stream is. -/
theorem fill_partition [DecidableEq α] (sep buffer : List α) (segments : List (Segment α limit)) :
    (partition sep (fill (occursIn sep) buffer segments).1).1 =
        (partition sep (buffer ++ unread segments)).1 ∧
      (partition sep (fill (occursIn sep) buffer segments).1).2 ++
          unread (fill (occursIn sep) buffer segments).2 =
        (partition sep (buffer ++ unread segments)).2 := by
  have content := fill_content (occursIn sep) buffer segments
  cases fill_stops (occursIn sep) buffer segments with
  | inl occurs =>
    obtain ⟨⟨before, after⟩, found⟩ := Option.isSome_iff_exists.mp occurs
    -- The separator is in the buffer already, and what is unread goes to the second part.
    have whole := cut_append (unread (fill (occursIn sep) buffer segments).2) found
    rw [content] at whole
    simp [partition, found, whole]
  | inr ended =>
    rw [fill_all _ _ _ ended, ended]
    simp

section Lengths

variable {enough : List α → Bool} {need : Nat} (buffer : List α)
  (segments : List (Segment α limit))

/-- The first items of a buffer filled up to a length are the first of the stream. -/
theorem fill_take (reaches : ∀ items, enough items = true → need ≤ items.length) {count : Nat}
    (within : count ≤ need) :
    (fill enough buffer segments).1.take count = (buffer ++ unread segments).take count := by
  have content := fill_content enough buffer segments
  cases fill_stops enough buffer segments with
  | inl holds => rw [← content, List.take_append_of_le_length (le_trans within (reaches _ holds))]
  | inr ended => rw [fill_all _ _ _ ended]

theorem fill_drop (reaches : ∀ items, enough items = true → need ≤ items.length) {count : Nat}
    (within : count ≤ need) :
    (fill enough buffer segments).1.drop count ++ unread (fill enough buffer segments).2 =
      (buffer ++ unread segments).drop count := by
  have content := fill_content enough buffer segments
  cases fill_stops enough buffer segments with
  | inl holds => rw [← content, List.drop_append_of_le_length (le_trans within (reaches _ holds))]
  | inr ended =>
    rw [fill_all _ _ _ ended, ended]
    simp

end Lengths

end Excalibur.Library
