import Mathlib

/-! # Sorted lists searched by bisection

A list that is sorted by construction, with the four operations a program needs
to keep one up to date: the two bisections, insertion at the right insertion
point and removal by index.

* `search` is the half-interval loop shared by both bisections, run on a
  predicate that holds on an initial part of the list and nowhere after it.
* `search_spec` says the loop returns the boundary of that part; everything
  about `bisectLeft` and `bisectRight` is read off it.
* `insort` and `removeAt` rebuild the structure, so sortedness is never an
  obligation of the caller.
-/

namespace Excalibur.Library

variable {α : Type*}

/-! ## The half-interval loop -/

/-- `while lo < hi`: probe the midpoint and keep the half that still contains
    the boundary of `below`.  Called with `fuel` at least `hi - lo`. -/
def search (below : α → Bool) (items : List α) : Nat → Nat → Nat → Nat
  | 0, lo, _ => lo
  | fuel + 1, lo, hi =>
    if lo < hi then
      match items[(lo + hi) / 2]? with
      | some item =>
        if below item then search below items fuel ((lo + hi) / 2 + 1) hi
        else search below items fuel lo ((lo + hi) / 2)
      | none => lo
    else lo

/-- `cut` is where `below` stops: it holds before the index `cut` and fails from
    there on. -/
structure Boundary (below : α → Bool) (items : List α) (cut : Nat) : Prop where
  le_length : cut ≤ items.length
  before : ∀ index (bound : index < items.length), index < cut → below items[index] = true
  after : ∀ index (bound : index < items.length), cut ≤ index → below items[index] = false

def Initial (below : α → Bool) (items : List α) : Prop :=
  items.Pairwise fun first second => below second = true → below first = true

theorem initial_getElem {below : α → Bool} {items : List α} (initial : Initial below items)
    {i j : Nat} (ordered : i ≤ j) (bound : j < items.length)
    (holds : below items[j] = true) : below items[i] = true := by
  rcases Nat.lt_or_eq_of_le ordered with strict | rfl
  · exact List.pairwise_iff_getElem.mp initial i j _ bound strict holds
  · exact holds

/-- The loop invariant: the boundary is never left outside `[lo, hi]`. -/
theorem search_spec {below : α → Bool} {items : List α} (initial : Initial below items) :
    ∀ (fuel lo hi : Nat), hi - lo ≤ fuel → lo ≤ hi → hi ≤ items.length →
      (∀ i (bound : i < items.length), i < lo → below items[i] = true) →
      (∀ i (bound : i < items.length), hi ≤ i → below items[i] = false) →
      Boundary below items (search below items fuel lo hi) := by
  intro fuel
  induction fuel with
  | zero =>
    intro lo hi enough ordered inside before after
    have closed : lo = hi := by omega
    subst closed
    exact ⟨inside, before, after⟩
  | succ fuel ih =>
    intro lo hi enough ordered inside before after
    simp only [search]
    split
    · rename_i nonempty
      have midBound : (lo + hi) / 2 < items.length := by omega
      rw [List.getElem?_eq_getElem midBound]
      dsimp only
      split
      · rename_i holds
        -- The boundary is behind the midpoint, and `below` holds up to it.
        refine ih _ _ (by omega) (by omega) inside ?_ after
        intro i bound below_mid
        exact initial_getElem initial (by omega) midBound holds
      · rename_i fails
        -- The boundary is at or before the midpoint, and `below` fails from it on.
        apply ih _ _ (by omega) (by omega) (by omega) before
        intro i bound above_mid
        by_contra contrary
        have holds : below items[i] = true := by simpa using contrary
        exact fails (initial_getElem initial above_mid bound holds)
    · have closed : lo = hi := by omega
      subst closed
      exact ⟨inside, before, after⟩

theorem Boundary.unique {below : α → Bool} {items : List α} {first second : Nat}
    (left : Boundary below items first) (right : Boundary below items second) :
    first = second := by
  have leftInside := left.le_length
  have rightInside := right.le_length
  rcases Nat.lt_trichotomy first second with less | equal | greater
  · have yes := right.before first (by omega) less
    rw [left.after first (by omega) (Nat.le_refl _)] at yes
    contradiction
  · exact equal
  · have yes := left.before second (by omega) greater
    rw [right.after second (by omega) (Nat.le_refl _)] at yes
    contradiction

/-! ## Sorted lists -/

/-- A list in non-decreasing order; repetitions are allowed. -/
structure SortedList (α : Type*) [LinearOrder α] where
  toList : List α
  sorted : toList.Pairwise (· ≤ ·)

namespace SortedList

variable [LinearOrder α]

def empty : SortedList α := ⟨[], List.Pairwise.nil⟩

@[simp] theorem empty_toList : (empty : SortedList α).toList = [] := rfl

instance : Membership α (SortedList α) := ⟨fun items item => item ∈ items.toList⟩

theorem mem_def {items : SortedList α} {item : α} : item ∈ items ↔ item ∈ items.toList := .rfl

instance (item : α) (items : SortedList α) : Decidable (item ∈ items) :=
  inferInstanceAs (Decidable (item ∈ items.toList))

/-- Index of the first element that is not less than `item`. -/
def bisectLeft (items : SortedList α) (item : α) : Nat :=
  search (fun other => decide (other < item)) items.toList items.toList.length 0
    items.toList.length

/-- Index just after the last element that is not greater than `item`. -/
def bisectRight (items : SortedList α) (item : α) : Nat :=
  search (fun other => decide (¬ item < other)) items.toList items.toList.length 0
    items.toList.length

theorem bisectLeft_boundary (items : SortedList α) (item : α) :
    Boundary (fun other => decide (other < item)) items.toList (items.bisectLeft item) := by
  refine search_spec ?_ _ _ _ (by omega) (by omega) (Nat.le_refl _) (by omega)
    (fun i bound outside => absurd bound (by omega))
  apply items.sorted.imp
  intro first second ordered holds
  simp only [decide_eq_true_eq] at holds ⊢
  exact lt_of_le_of_lt ordered holds

theorem bisectRight_boundary (items : SortedList α) (item : α) :
    Boundary (fun other => decide (¬ item < other)) items.toList (items.bisectRight item) := by
  refine search_spec ?_ _ _ _ (by omega) (by omega) (Nat.le_refl _) (by omega)
    (fun i bound outside => absurd bound (by omega))
  apply items.sorted.imp
  intro first second ordered holds
  simp only [decide_eq_true_eq, not_lt] at holds ⊢
  exact le_trans ordered holds

theorem bisectRight_le_length (items : SortedList α) (item : α) :
    items.bisectRight item ≤ items.toList.length :=
  (items.bisectRight_boundary item).le_length

theorem le_of_mem_take_bisectRight {items : SortedList α} {item other : α}
    (member : other ∈ items.toList.take (items.bisectRight item)) : other ≤ item := by
  obtain ⟨i, bound, rfl⟩ := List.mem_take_iff_getElem.mp member
  have holds := (items.bisectRight_boundary item).before i (by omega) (by omega)
  simpa using holds

theorem lt_of_mem_drop_bisectRight {items : SortedList α} {item other : α}
    (member : other ∈ items.toList.drop (items.bisectRight item)) : item < other := by
  obtain ⟨i, bound, rfl⟩ := List.mem_drop_iff_getElem.mp member
  have fails := (items.bisectRight_boundary item).after (items.bisectRight item + i)
    (by omega) (by omega)
  simpa using fails

/-! ## Insertion -/

def insort (items : SortedList α) (item : α) : SortedList α where
  toList := items.toList.take (items.bisectRight item) ++
    item :: items.toList.drop (items.bisectRight item)
  sorted := by
    rw [List.pairwise_append]
    refine ⟨items.sorted.sublist (List.take_sublist _ _), ?_, ?_⟩
    · refine List.Pairwise.cons (fun other member => ?_)
        (items.sorted.sublist (List.drop_sublist _ _))
      exact le_of_lt (lt_of_mem_drop_bisectRight member)
    · intro first firstMember second secondMember
      have firstLe := le_of_mem_take_bisectRight firstMember
      rcases List.mem_cons.mp secondMember with rfl | secondMember
      · exact firstLe
      · exact firstLe.trans (le_of_lt (lt_of_mem_drop_bisectRight secondMember))

theorem insort_perm (items : SortedList α) (item : α) :
    (items.insort item).toList.Perm (item :: items.toList) := by
  have split := List.take_append_drop (items.bisectRight item) items.toList
  simp only [insort]
  exact List.perm_middle.trans (by rw [split])

theorem count_insort (items : SortedList α) (item other : α) :
    (items.insort item).toList.count other =
      items.toList.count other + if item = other then 1 else 0 := by
  rw [(insort_perm items item).count_eq, List.count_cons]
  simp only [beq_iff_eq]

/-! ## Removal -/

def removeAt (items : SortedList α) (index : Nat) : SortedList α where
  toList := items.toList.eraseIdx index
  sorted := items.sorted.sublist (List.eraseIdx_sublist _ _)

/-- An element that occurs is found at its left insertion point. -/
theorem getElem?_bisectLeft {items : SortedList α} {item : α} (member : item ∈ items) :
    items.toList[items.bisectLeft item]? = some item := by
  have boundary := items.bisectLeft_boundary item
  obtain ⟨i, bound, found⟩ := List.mem_iff_getElem.mp (mem_def.mp member)
  have notBefore : items.bisectLeft item ≤ i := by
    by_contra early
    have holds := boundary.before i bound (by omega)
    simp [found] at holds
  have cutBound : items.bisectLeft item < items.toList.length := by omega
  rw [List.getElem?_eq_getElem cutBound]
  congr 1
  -- Nothing before the insertion point reaches `item`, so the entry there is not greater.
  apply le_antisymm
  · have ordered : items.toList[items.bisectLeft item] ≤ items.toList[i] := by
      cases Nat.lt_or_eq_of_le notBefore with
      | inl strict => exact List.pairwise_iff_getElem.mp items.sorted _ _ cutBound bound strict
      | inr equal => simp only [equal, le_refl]
    exact ordered.trans_eq found
  · have fails := boundary.after _ cutBound (Nat.le_refl _)
    simpa using fails

/-- Removing at the left insertion point of a member takes out one copy of it. -/
theorem count_removeAt_bisectLeft {items : SortedList α} {item : α} (member : item ∈ items)
    (other : α) :
    (items.removeAt (items.bisectLeft item)).toList.count other =
      items.toList.count other - if item = other then 1 else 0 := by
  have found := getElem?_bisectLeft member
  obtain ⟨bound, found⟩ := List.getElem?_eq_some_iff.mp found
  have perm := List.getElem_cons_eraseIdx_perm bound
  rw [found] at perm
  rw [← perm.count_eq, List.count_cons]
  simp only [removeAt, beq_iff_eq, Nat.add_sub_cancel]

theorem mem_iff_count_pos {items : SortedList α} {item : α} :
    item ∈ items ↔ 0 < items.toList.count item := by
  rw [mem_def, List.count_pos_iff]

end SortedList

end Excalibur.Library
