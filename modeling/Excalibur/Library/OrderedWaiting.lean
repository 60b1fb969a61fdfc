import Mathlib

/-! # Waiting in order

Parties hold resources, and each of them may want one more.  A party waits for whoever
holds what it wants.  When every party wants a resource that ranks above all it holds,
what is wanted rises along a chain of waiting parties: no chain comes back to where it
started, and among finitely many parties every chain ends with one that waits for nobody.

`Exclusive` ties the parties to the flags of their resources: a flag is set when a party
holds the resource, and then one party only.
-/

namespace Excalibur.Library

variable {ι κ ρ : Type*}

structure Waiting (ι κ : Type*) where
  holds : ι → κ → Prop
  wants : ι → Option κ

namespace Waiting

variable {w : Waiting ι κ} {i j : ι}

def WaitsFor (w : Waiting ι κ) (i j : ι) : Prop :=
  ∃ resource, w.wants i = some resource ∧ w.holds j resource

def Ordered [LT ρ] (rank : κ → ρ) (w : Waiting ι κ) : Prop :=
  ∀ i wanted held, w.wants i = some wanted → w.holds i held → rank held < rank wanted

/-- Whoever is waited for wants something higher, if anything. -/
theorem WaitsFor.rank_lt [LT ρ] {rank : κ → ρ} (ordered : w.Ordered rank)
    (waits : w.WaitsFor i j) {wanted next : κ} (wants : w.wants i = some wanted)
    (wantsNext : w.wants j = some next) : rank wanted < rank next := by
  obtain ⟨resource, wants', holds⟩ := waits
  rw [wants, Option.some.injEq] at wants'
  subst wants'
  exact ordered j next wanted wantsNext holds

theorem rank_lt_of_chain [Preorder ρ] {rank : κ → ρ} (ordered : w.Ordered rank)
    (chain : Relation.TransGen w.WaitsFor i j) {wanted next : κ} (wants : w.wants i = some wanted)
    (wantsNext : w.wants j = some next) : rank wanted < rank next := by
  induction chain generalizing next with
  | single waits => exact waits.rank_lt ordered wants wantsNext
  | tail _ waits ih =>
    obtain ⟨resource, wantsMiddle, _⟩ := id waits
    exact (ih wantsMiddle).trans (waits.rank_lt ordered wantsMiddle wantsNext)

theorem no_cycle [Preorder ρ] {rank : κ → ρ} (ordered : w.Ordered rank) (i : ι) :
    ¬ Relation.TransGen w.WaitsFor i i := by
  intro cycle
  obtain ⟨_, ⟨resource, wants, -⟩, -⟩ := Relation.TransGen.head'_iff.mp cycle
  exact lt_irrefl _ (rank_lt_of_chain ordered cycle wants wants)

/-- Following who waits for whom comes to a party that waits for nobody. -/
theorem exists_not_waiting [Finite ι] [Preorder ρ] {rank : κ → ρ} (ordered : w.Ordered rank)
    (i : ι) : ∃ j, Relation.ReflTransGen w.WaitsFor i j ∧ ∀ k, ¬ w.WaitsFor j k := by
  have irrefl : Std.Irrefl (Function.swap (Relation.TransGen w.WaitsFor)) := ⟨no_cycle ordered⟩
  have wellFounded : WellFounded (Function.swap (Relation.TransGen w.WaitsFor)) :=
    Finite.wellFounded_of_trans_of_irrefl _
  induction i using wellFounded.induction with
  | _ i ih =>
    by_cases waits : ∃ k, w.WaitsFor i k
    · obtain ⟨k, waits⟩ := waits
      obtain ⟨j, chain, free⟩ := ih k (.single waits)
      exact ⟨j, .head waits chain, free⟩
    · exact ⟨i, .refl, not_exists.mp waits⟩

/-- Whoever is reached is the first or holds something. -/
theorem holds_of_chain (chain : Relation.ReflTransGen w.WaitsFor i j) :
    j = i ∨ ∃ resource, w.holds j resource := by
  cases Relation.ReflTransGen.cases_tail chain with
  | inl same => exact .inl same
  | inr last =>
    obtain ⟨_, -, resource, -, holds⟩ := last
    exact .inr ⟨resource, holds⟩

end Waiting

/-! ## Flags -/

structure Exclusive (locked : κ → Bool) (holds : ι → κ → Prop) : Prop where
  locked_iff : ∀ resource, locked resource = true ↔ ∃ i, holds i resource
  single : ∀ i j resource, holds i resource → holds j resource → i = j

namespace Exclusive

variable {locked : κ → Bool} {holds after : ι → κ → Prop} {i : ι} {resource : κ}

theorem congr (exclusive : Exclusive locked holds)
    (same : ∀ j other, after j other ↔ holds j other) : Exclusive locked after := by
  refine ⟨?_, ?_⟩
  · intro other
    simp only [same]
    exact exclusive.locked_iff other
  · intro j k other
    rw [same, same]
    exact exclusive.single j k other

variable [DecidableEq κ]

/-- A party takes a resource whose flag is not set. -/
theorem take (exclusive : Exclusive locked holds) (free : locked resource = false)
    (taken : ∀ j other, after j other ↔ holds j other ∨ (j = i ∧ other = resource)) :
    Exclusive (Function.update locked resource true) after := by
  -- The flag is not set, so nobody holds the resource.
  have nobody : ∀ j, ¬ holds j resource := by
    intro j held
    have set := (exclusive.locked_iff resource).mpr ⟨j, held⟩
    rw [free] at set
    contradiction
  refine ⟨?_, ?_⟩
  · intro other
    simp only [taken]
    by_cases same : other = resource
    · subst same
      simp
    · rw [Function.update_of_ne same, exclusive.locked_iff]
      simp [same]
  · intro j k other heldJ heldK
    rw [taken] at heldJ heldK
    rcases heldJ with heldJ | ⟨rfl, rfl⟩
    · rcases heldK with heldK | ⟨rfl, rfl⟩
      · exact exclusive.single j k other heldJ heldK
      · exact absurd heldJ (nobody j)
    · rcases heldK with heldK | ⟨rfl, -⟩
      · exact absurd heldK (nobody k)
      · rfl

/-- A party gives a resource back. -/
theorem give (exclusive : Exclusive locked holds) (held : holds i resource)
    (given : ∀ j other, after j other ↔ holds j other ∧ ¬ (j = i ∧ other = resource)) :
    Exclusive (Function.update locked resource false) after := by
  refine ⟨?_, ?_⟩
  · intro other
    simp only [given]
    by_cases same : other = resource
    · subst same
      rw [Function.update_self]
      refine iff_of_false Bool.false_ne_true ?_
      rintro ⟨j, heldJ, notI⟩
      exact notI ⟨exclusive.single j i other heldJ held, rfl⟩
    · rw [Function.update_of_ne same, exclusive.locked_iff]
      simp [same]
  · intro j k other heldJ heldK
    exact exclusive.single j k other ((given j other).mp heldJ).1 ((given k other).mp heldK).1

end Exclusive

end Excalibur.Library
