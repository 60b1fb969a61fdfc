import Mathlib

/-! # Doubly linked lists in a heap

A heap is a map from references to cells, each with a payload and two nullable
links.  `Linked h refs` says that the references `refs` are chained in this order
by both links.  The two splices of a doubly linked list are sequences of link
writes; `Linked.unlink` and `Linked.insertBetween` say what they do to the chain,
and the frame lemma `Linked.frame` is all their proofs need: a chain does not see
a write to a `next` link that it does not follow or to a `prev` link that it does
not follow back.  `follow` goes along one of the links, and visits a chain in order.
-/

namespace Excalibur.Library

abbrev Ref := Nat

structure Cell (α : Type*) where
  item : α
  prev : Option Ref
  next : Option Ref

/-- References below `fresh` are allocated. -/
structure Heap (α : Type*) where
  cell : Ref → Cell α
  fresh : Ref

namespace Heap

variable {α : Type*}

/-- The heap without allocated cells; `item` fills the cells that nobody reads. -/
def empty (item : α) : Heap α where
  cell _ := ⟨item, none, none⟩
  fresh := 0

def alloc (h : Heap α) (item : α) : Ref × Heap α :=
  (h.fresh, { cell := Function.update h.cell h.fresh ⟨item, none, none⟩, fresh := h.fresh + 1 })

def setPrev (h : Heap α) (r : Ref) (link : Option Ref) : Heap α :=
  { h with cell := Function.update h.cell r { h.cell r with prev := link } }

def setNext (h : Heap α) (r : Ref) (link : Option Ref) : Heap α :=
  { h with cell := Function.update h.cell r { h.cell r with next := link } }

def setItem (h : Heap α) (r : Ref) (item : α) : Heap α :=
  { h with cell := Function.update h.cell r { h.cell r with item := item } }

section Reads

variable (h : Heap α) (r s : Ref) (link : Option Ref) (item : α)

@[simp] theorem setPrev_fresh : (h.setPrev r link).fresh = h.fresh := rfl
@[simp] theorem setNext_fresh : (h.setNext r link).fresh = h.fresh := rfl
@[simp] theorem setItem_fresh : (h.setItem r item).fresh = h.fresh := rfl
@[simp] theorem alloc_ref : (h.alloc item).1 = h.fresh := rfl
@[simp] theorem alloc_fresh : (h.alloc item).2.fresh = h.fresh + 1 := rfl

@[simp] theorem setPrev_prev :
    ((h.setPrev r link).cell s).prev = if s = r then link else (h.cell s).prev := by
  by_cases same : s = r <;> simp [setPrev, same]

@[simp] theorem setPrev_next : ((h.setPrev r link).cell s).next = (h.cell s).next := by
  by_cases same : s = r <;> simp [setPrev, same]

@[simp] theorem setPrev_item : ((h.setPrev r link).cell s).item = (h.cell s).item := by
  by_cases same : s = r <;> simp [setPrev, same]

@[simp] theorem setNext_prev : ((h.setNext r link).cell s).prev = (h.cell s).prev := by
  by_cases same : s = r <;> simp [setNext, same]

@[simp] theorem setNext_next :
    ((h.setNext r link).cell s).next = if s = r then link else (h.cell s).next := by
  by_cases same : s = r <;> simp [setNext, same]

@[simp] theorem setNext_item : ((h.setNext r link).cell s).item = (h.cell s).item := by
  by_cases same : s = r <;> simp [setNext, same]

@[simp] theorem setItem_prev : ((h.setItem r item).cell s).prev = (h.cell s).prev := by
  by_cases same : s = r <;> simp [setItem, same]

@[simp] theorem setItem_next : ((h.setItem r item).cell s).next = (h.cell s).next := by
  by_cases same : s = r <;> simp [setItem, same]

@[simp] theorem setItem_item :
    ((h.setItem r item).cell s).item = if s = r then item else (h.cell s).item := by
  by_cases same : s = r <;> simp [setItem, same]

@[simp] theorem alloc_cell_fresh : (h.alloc item).2.cell h.fresh = ⟨item, none, none⟩ := by
  simp [alloc]

theorem alloc_cell_of_lt {s : Ref} (old : s < h.fresh) : (h.alloc item).2.cell s = h.cell s := by
  simp [alloc, Nat.ne_of_lt old]

end Reads

/-! ## Chains -/

/-- Neighbours: the first links forward to the second and the second back. -/
def Adjacent (h : Heap α) (a b : Ref) : Prop :=
  (h.cell a).next = some b ∧ (h.cell b).prev = some a

def Linked (h : Heap α) (refs : List Ref) : Prop := refs.IsChain h.Adjacent

variable {h h' : Heap α}

theorem linked_cons_cons {a b : Ref} {refs : List Ref} :
    h.Linked (a :: b :: refs) ↔ h.Adjacent a b ∧ h.Linked (b :: refs) :=
  List.isChain_cons_cons

theorem linked_split {before after : List Ref} {a : Ref} :
    h.Linked (before ++ a :: after) ↔ h.Linked (before ++ [a]) ∧ h.Linked (a :: after) :=
  List.isChain_split

/-- A chain only sees the links that it follows. -/
theorem Linked.frame {refs : List Ref} (linked : h.Linked refs)
    (forward : ∀ a ∈ refs.dropLast, (h'.cell a).next = (h.cell a).next)
    (back : ∀ b ∈ refs.tail, (h'.cell b).prev = (h.cell b).prev) : h'.Linked refs := by
  induction refs with
  | nil => exact List.isChain_nil
  | cons a refs ih =>
    cases refs with
    | nil => exact List.isChain_singleton a
    | cons b refs =>
      obtain ⟨⟨next, prev⟩, rest⟩ := linked_cons_cons.mp linked
      refine linked_cons_cons.mpr ⟨⟨?_, ?_⟩, ih rest ?_ ?_⟩
      · rw [forward a (by simp), next]
      · rw [back b (by simp), prev]
      · intro c member
        exact forward c (by simp [List.dropLast_cons_of_ne_nil, member])
      · intro c member
        exact back c (by simp [List.mem_of_mem_tail member])

/-! ## Following a link -/

/-- The references met on the way to `stop`, when it is reached in that many steps. -/
def follow (link : Ref → Option Ref) (stop : Ref) : Nat → Ref → Option (List Ref)
  | 0, _ => none
  | steps + 1, r =>
    match link r with
    | none => none
    | some next =>
      if next = stop then some [] else (follow link stop steps next).map fun refs => next :: refs

theorem follow_of_chain {link : Ref → Option Ref} {a b : Ref} {refs : List Ref}
    (chain : (a :: (refs ++ [b])).IsChain fun r s => link r = some s) (outside : b ∉ refs) :
    follow link b (refs.length + 1) a = some refs := by
  induction refs generalizing a with
  | nil =>
    have last := (List.isChain_cons_cons.mp chain).1
    simp [follow, last]
  | cons r refs ih =>
    obtain ⟨first, rest⟩ := List.isChain_cons_cons.mp chain
    simp only [List.mem_cons, not_or] at outside
    rw [follow, first]
    simp only [if_neg (Ne.symm outside.1), List.length_cons, ih rest outside.2, Option.map_some]

theorem Linked.follow_next {a b : Ref} {refs : List Ref} (linked : h.Linked (a :: (refs ++ [b])))
    (outside : b ∉ refs) :
    follow (fun r => (h.cell r).next) b (refs.length + 1) a = some refs :=
  follow_of_chain (linked.imp fun _ _ adjacent => adjacent.1) outside

theorem Linked.follow_prev {a b : Ref} {refs : List Ref} (linked : h.Linked (a :: (refs ++ [b])))
    (outside : a ∉ refs) :
    follow (fun r => (h.cell r).prev) a (refs.length + 1) b = some refs.reverse := by
  have whole : b :: (refs.reverse ++ [a]) = (a :: (refs ++ [b])).reverse := by simp
  rw [← List.length_reverse]
  refine follow_of_chain ?_ (by simpa using outside)
  rw [whole, List.isChain_reverse]
  exact linked.imp fun _ _ adjacent => adjacent.2

/-! ## The two splices -/

/-- Take the cells between `p` and `n` out of the chain. -/
def unlink (h : Heap α) (p n : Ref) : Heap α := (h.setNext p (some n)).setPrev n (some p)

/-- Put the cell `r` between the neighbours `a` and `b`. -/
def insertBetween (h : Heap α) (a r b : Ref) : Heap α :=
  (((h.setPrev r (some a)).setNext r (some b)).setPrev b (some r)).setNext a (some r)

@[simp] theorem unlink_item (p n s : Ref) : ((h.unlink p n).cell s).item = (h.cell s).item := by
  simp [unlink]

@[simp] theorem unlink_fresh (p n : Ref) : (h.unlink p n).fresh = h.fresh := rfl

@[simp] theorem insertBetween_item (a r b s : Ref) :
    ((h.insertBetween a r b).cell s).item = (h.cell s).item := by
  simp [insertBetween]

@[simp] theorem insertBetween_fresh (a r b : Ref) : (h.insertBetween a r b).fresh = h.fresh := rfl

theorem Linked.links {before after : List Ref} {p r n : Ref}
    (linked : h.Linked (before ++ p :: r :: n :: after)) :
    (h.cell r).prev = some p ∧ (h.cell r).next = some n := by
  obtain ⟨-, linked⟩ := linked_split.mp linked
  obtain ⟨first, linked⟩ := linked_cons_cons.mp linked
  obtain ⟨second, -⟩ := linked_cons_cons.mp linked
  exact ⟨first.2, second.1⟩

theorem Linked.last_prev {before : List Ref} {a b : Ref} (linked : h.Linked (before ++ [a, b])) :
    (h.cell b).prev = some a :=
  (linked_cons_cons.mp (linked_split.mp linked).2).1.2

theorem Linked.setItem {refs : List Ref} (linked : h.Linked refs) (r : Ref) (item : α) :
    (h.setItem r item).Linked refs :=
  linked.frame (by simp) (by simp)

theorem Linked.alloc {refs : List Ref} (linked : h.Linked refs)
    (allocated : ∀ r ∈ refs, r < h.fresh) (item : α) : (h.alloc item).2.Linked refs := by
  refine linked.frame (fun r member => ?_) (fun r member => ?_)
  · rw [alloc_cell_of_lt h item (allocated r (List.mem_of_mem_dropLast member))]
  · rw [alloc_cell_of_lt h item (allocated r (List.mem_of_mem_tail member))]

/-- Unlinking a cell closes the chain over it. -/
theorem Linked.unlink {before after : List Ref} {p r n : Ref}
    (linked : h.Linked (before ++ p :: r :: n :: after))
    (distinct : (before ++ p :: r :: n :: after).Nodup) :
    (h.unlink p n).Linked (before ++ p :: n :: after) := by
  -- The parts up to `p` and from `n` on are kept; only the link between them is new.
  obtain ⟨front, linked⟩ := linked_split.mp linked
  have back := (linked_cons_cons.mp (linked_cons_cons.mp linked).2).2
  simp only [List.nodup_append, List.nodup_cons, List.mem_cons, not_or] at distinct
  obtain ⟨-, ⟨⟨-, pOther, pAfter⟩, -, nAfter, -⟩, apart⟩ := distinct
  refine linked_split.mpr ⟨front.frame ?_ ?_, linked_cons_cons.mpr ⟨?_, back.frame ?_ ?_⟩⟩
  · intro a member
    have other : a ≠ p := apart a (by simpa using member) p (by simp)
    simp [Heap.unlink, other]
  · intro b member
    have other : b ≠ n := by
      intro same
      subst same
      have inFront := List.mem_of_mem_tail member
      simp only [List.mem_append, List.mem_singleton] at inFront
      rcases inFront with inBefore | rfl
      · exact apart b inBefore b (by simp) rfl
      · exact pOther rfl
    simp [Heap.unlink, other]
  · simp [Adjacent, Heap.unlink]
  · intro a member
    have other : a ≠ p := by
      intro same
      subst same
      have inBack := List.mem_of_mem_dropLast member
      rcases List.mem_cons.mp inBack with rfl | inAfter
      · exact pOther rfl
      · exact pAfter inAfter
    simp [Heap.unlink, other]
  · intro b member
    have other : b ≠ n := by
      intro same
      subst same
      exact nAfter (by simpa using member)
    simp [Heap.unlink, other]

/-- A cell between two ends has two neighbours, and unlinking between them takes
    exactly this cell out. -/
theorem Linked.exists_neighbours {first last r : Ref} {before after : List Ref}
    (linked : h.Linked (first :: (before ++ r :: after ++ [last])))
    (distinct : (first :: (before ++ r :: after ++ [last])).Nodup) :
    ∃ p n, (h.cell r).prev = some p ∧ (h.cell r).next = some n ∧ p ≠ r ∧
      (h.unlink p n).Linked (first :: (before ++ after ++ [last])) := by
  -- The two ends give every cell between them a neighbour on either side.
  obtain ⟨front, p, frontSplit⟩ : ∃ front p, first :: before = front ++ [p] := by
    simpa using List.eq_nil_or_concat (first :: before)
  obtain ⟨n, back, backSplit⟩ : ∃ n back, after ++ [last] = n :: back :=
    List.exists_cons_of_ne_nil (by simp)
  have whole : first :: (before ++ r :: after ++ [last]) = front ++ p :: r :: n :: back := by
    rw [List.append_assoc, List.cons_append, backSplit, ← List.cons_append, frontSplit]
    simp
  have closed : first :: (before ++ after ++ [last]) = front ++ p :: n :: back := by
    rw [List.append_assoc, backSplit, ← List.cons_append, frontSplit]
    simp
  rw [whole] at linked distinct
  obtain ⟨prev, next⟩ := linked.links
  refine ⟨p, n, prev, next, ?_, ?_⟩
  · intro same
    subst same
    have repeated := (List.nodup_append.mp distinct).2.1
    simp at repeated
  · rw [closed]
    exact linked.unlink distinct

theorem Linked.insertBetween {after : List Ref} {a r b : Ref}
    (linked : h.Linked (a :: b :: after)) (distinct : (a :: b :: after).Nodup)
    (outside : r ∉ a :: b :: after) :
    (h.insertBetween a r b).Linked (a :: r :: b :: after) := by
  -- Two new links at the front; from `b` on the chain does not see the writes.
  obtain ⟨-, back⟩ := linked_cons_cons.mp linked
  simp only [List.nodup_cons, List.mem_cons, not_or] at distinct outside
  obtain ⟨⟨aOther, aAfter⟩, bAfter, -⟩ := distinct
  obtain ⟨rOtherA, rOtherB, rAfter⟩ := outside
  refine linked_cons_cons.mpr ⟨?_, linked_cons_cons.mpr ⟨?_, back.frame ?_ ?_⟩⟩
  · simp [Adjacent, Heap.insertBetween, rOtherB]
  · simp [Adjacent, Heap.insertBetween, rOtherA]
  · intro c member
    have inBack := List.mem_of_mem_dropLast member
    have otherA : c ≠ a := by
      intro same
      subst same
      rcases List.mem_cons.mp inBack with rfl | inAfter
      · exact aOther rfl
      · exact aAfter inAfter
    have otherR : c ≠ r := by
      intro same
      subst same
      rcases List.mem_cons.mp inBack with rfl | inAfter
      · exact rOtherB rfl
      · exact rAfter inAfter
    simp [Heap.insertBetween, otherA, otherR]
  · intro c member
    rw [List.tail_cons] at member
    have otherB : c ≠ b := by
      intro same
      subst same
      exact bAfter member
    have otherR : c ≠ r := by
      intro same
      subst same
      exact rAfter member
    simp [Heap.insertBetween, otherB, otherR]

end Heap

end Excalibur.Library
