import Excalibur.Library.Crew

/-! # The order in which a crew handles its messages

A member handles what it takes in the order in which it takes it, so its messages are
handled in that order, all but the one in its hands.  Members overtake one another, but
when a message is handled, each of the others holds at most one that was taken before it.
-/

namespace Excalibur.Library

open scoped List

namespace Crew

variable {μ : Type*}

/-- The message in the hands of member `i`. -/
def heldBy (c : Crew μ) (i : Nat) : Option μ := c.members[i]?.bind Member.held

structure InOrder (c : Crew μ) : Prop where
  inside : ∀ entry ∈ c.taken, entry.1 < c.members.length
  each : ∀ i, ∃ finished, c.takenBy i = finished ++ (c.heldBy i).toList ∧ finished <+ c.handled

theorem inOrder_assemble (size : Nat) : (assemble size : Crew μ).InOrder := by
  refine ⟨by simp [assemble], fun i => ⟨[], ?_, List.nil_sublist _⟩⟩
  simp only [assemble, takenBy, heldBy, List.getElem?_replicate]
  split
  · rfl
  · rfl

section Steps

variable {leaves : μ → Bool} {c next : Crew μ} {i j : Nat} {message : μ}

/-- What is in the hands of a member, after one member changed. -/
theorem held_set {old : Member μ} (found : c.members[i]? = some old) (new : Member μ) :
    (c.members.set i new)[j]?.bind Member.held = if j = i then new.held else c.heldBy j := by
  have inside : i < c.members.length := (List.getElem?_eq_some_iff.mp found).1
  by_cases same : j = i
  · rw [if_pos same, same, List.getElem?_set_self inside]
    rfl
  · rw [if_neg same, List.getElem?_set_ne (Ne.symm same)]
    rfl

theorem inOrder_take (inOrder : c.InOrder) (took : c.take i message = some next) :
    next.InOrder := by
  obtain ⟨idle, rfl⟩ := take_eq_some.mp took
  have inside : i < c.members.length := (List.getElem?_eq_some_iff.mp idle).1
  refine ⟨?_, ?_⟩
  · intro entry member
    rw [List.length_set]
    obtain before | now := List.mem_append.mp member
    · exact inOrder.inside entry before
    · rw [List.mem_singleton.mp now]
      exact inside
  · intro j
    obtain ⟨finished, mine, handled⟩ := inOrder.each j
    refine ⟨finished, ?_, handled⟩
    rw [heldBy, held_set idle]
    by_cases same : j = i
    · -- It had nothing in its hands before.
      have nothing : c.heldBy i = none := by simp [heldBy, idle, Member.held]
      rw [same, nothing, Option.toList_none, List.append_nil] at mine
      simp [same, takenBy, ← mine, Member.held]
    · rw [if_neg same, ← mine]
      simp [takenBy, Ne.symm same]

theorem inOrder_handle (inOrder : c.InOrder) (handles : c.handle i = some (message, next)) :
    next.InOrder := by
  obtain ⟨holding, rfl⟩ := handle_eq_some.mp handles
  refine ⟨?_, ?_⟩
  · intro entry member
    rw [List.length_set]
    exact inOrder.inside entry member
  · intro j
    obtain ⟨finished, mine, handled⟩ := inOrder.each j
    rw [heldBy, held_set holding]
    by_cases same : j = i
    · -- The message moves from its hands behind all that was handled.
      have held : c.heldBy i = some message := by simp [heldBy, holding, Member.held]
      rw [same, held] at mine
      refine ⟨finished ++ [message], ?_, handled.append (.refl _)⟩
      rw [if_pos same, same]
      show c.takenBy i = _
      simpa [Member.held] using mine
    · refine ⟨finished, ?_, handled.trans (List.sublist_append_left _ _)⟩
      rw [if_neg same]
      exact mine

theorem inOrder_finish (inOrder : c.InOrder) (finishes : c.finish leaves i = some next) :
    next.InOrder := by
  obtain ⟨message, finishing, rfl⟩ := finish_eq_some.mp finishes
  refine ⟨?_, ?_⟩
  · intro entry member
    rw [List.length_set]
    exact inOrder.inside entry member
  · intro j
    obtain ⟨finished, mine, handled⟩ := inOrder.each j
    refine ⟨finished, ?_, handled⟩
    rw [heldBy, held_set finishing]
    by_cases same : j = i
    · -- A member that has handled its message holds none, before and after.
      have before : c.heldBy i = none := by simp [heldBy, finishing, Member.held]
      have after : (if leaves message then Member.gone message else .idle).held = none := by
        split
        · rfl
        · rfl
      rw [if_pos same, after, ← before, ← same]
      exact mine
    · rw [if_neg same]
      exact mine

end Steps

/-! ## Overtaking -/

section Overtaking

variable {leaves : μ → Bool} {c : Crew μ} {i : Nat}

theorem takenBy_sublist (c : Crew μ) (i : Nat) : c.takenBy i <+ c.taken.map Prod.snd :=
  List.filter_sublist.map Prod.snd

/-- Of two elements, the one found first in a sublist is the first in the list. -/
theorem not_mem_front {ν : Type*} {front rest : List ν} {n x : ν}
    (once : (front ++ n :: rest).Nodup) (ordered : [n, x] <+ front ++ n :: rest) : x ∉ front := by
  intro early
  obtain ⟨-, -, apart⟩ := List.nodup_append.mp once
  have first : n ∉ front := fun member => apart n member n List.mem_cons_self rfl
  obtain ⟨left, right, split, inFront, later⟩ := List.sublist_append_iff.mp ordered
  cases left with
  | nil =>
    rw [List.nil_append] at split
    rw [← split] at later
    have inRest := List.singleton_sublist.mp (List.cons_sublist_cons.mp later)
    exact apart x early x (List.mem_cons_of_mem _ inRest) rfl
  | cons head tail =>
    obtain ⟨rfl, -⟩ := List.cons.inj split
    exact first (inFront.subset List.mem_cons_self)

section Values

variable {ν : Type*} {value : μ → Option ν} {front rest : List ν} {n x : ν}

theorem InOrder.exists_taker (inOrder : c.InOrder)
    (took : n ∈ (c.taken.map Prod.snd).filterMap value) :
    ∃ i < c.members.length, n ∈ (c.takenBy i).filterMap value := by
  obtain ⟨message, member, valued⟩ := List.mem_filterMap.mp took
  obtain ⟨⟨i, _⟩, entry, rfl⟩ := List.mem_map.mp member
  refine ⟨i, inOrder.inside _ entry, List.mem_filterMap.mpr ⟨_, ?_, valued⟩⟩
  exact List.mem_map.mpr ⟨_, List.mem_filter.mpr ⟨entry, by simp⟩, rfl⟩

/-- What a member holds was taken after everything that it has handled. -/
theorem InOrder.not_mem_front_of_held (inOrder : c.InOrder)
    (once : ((c.taken.map Prod.snd).filterMap value).Nodup)
    (split : (c.taken.map Prod.snd).filterMap value = front ++ n :: rest)
    (mine : n ∈ (c.takenBy i).filterMap value) {message : μ}
    (held : c.heldBy i = some message) (valued : value message = some x) (other : n ≠ x) :
    x ∉ front := by
  obtain ⟨finished, order, -⟩ := inOrder.each i
  have values : (c.takenBy i).filterMap value = finished.filterMap value ++ [x] := by
    simp [order, held, valued]
  have earlier : n ∈ finished.filterMap value := by
    rw [values] at mine
    exact (List.mem_append.mp mine).resolve_right fun same => other (List.mem_singleton.mp same)
  have ordered : [n, x] <+ front ++ n :: rest := by
    rw [← split]
    refine .trans ?_ ((takenBy_sublist c i).filterMap value)
    rw [values]
    exact (List.singleton_sublist.mpr earlier).append (.refl [x])
  exact not_mem_front (split ▸ once) ordered

/-- A message that is handled was overtaken by the messages in other hands at most. -/
theorem Accounts.overtaken_lt [DecidableEq ν] (accounts : c.Accounts leaves)
    (inOrder : c.InOrder) (once : ((c.taken.map Prod.snd).filterMap value).Nodup)
    (split : (c.taken.map Prod.snd).filterMap value = front ++ n :: rest)
    (done : n ∈ c.handled.filterMap value) :
    (front.filter (· ∉ c.handled.filterMap value)).length < c.members.length := by
  have kept := accounts.kept.filterMap value
  rw [List.filterMap_append] at kept
  have took : n ∈ (c.taken.map Prod.snd).filterMap value := by simp [split]
  obtain ⟨i, inside, mine⟩ := inOrder.exists_taker took
  have elsewhere : front.filter (· ∉ c.handled.filterMap value) ⊆
      ((c.members.eraseIdx i).filterMap Member.held).filterMap value := by
    intro x waiting
    obtain ⟨early, notDone⟩ := List.mem_filter.mp waiting
    have unhandled : x ∉ c.handled.filterMap value := of_decide_eq_true notDone
    have inHand : x ∈ c.inHand.filterMap value := by
      have listed : x ∈ (c.taken.map Prod.snd).filterMap value := by simp [split, early]
      exact (List.mem_append.mp (kept.mem_iff.mp listed)).resolve_left unhandled
    obtain ⟨message, held, valued⟩ := List.mem_filterMap.mp inHand
    obtain ⟨holder, inCrew, holds⟩ := List.mem_filterMap.mp held
    obtain ⟨j, within, rfl⟩ := List.getElem_of_mem inCrew
    have distinct : j ≠ i := by
      rintro rfl
      have own : c.heldBy j = some message := by
        rw [heldBy, List.getElem?_eq_getElem within]
        exact holds
      have other : n ≠ x := fun same => unhandled (same ▸ done)
      exact inOrder.not_mem_front_of_held once split mine own valued other early
    refine List.mem_filterMap.mpr ⟨message, List.mem_filterMap.mpr ⟨_, ?_, holds⟩, valued⟩
    exact List.mem_eraseIdx_iff_getElem.mpr ⟨j, within, distinct, rfl⟩
  have once : (front.filter (· ∉ c.handled.filterMap value)).Nodup := by
    rw [split] at once
    exact (List.nodup_append.mp once).1.filter _
  have bound := (once.subperm elsewhere).length_le
  have fewer := (List.length_filterMap_le value _).trans
    (List.length_filterMap_le Member.held (c.members.eraseIdx i))
  rw [List.length_eraseIdx_of_lt inside] at fewer
  omega

end Values

/-- The only member of a crew handles everything in the order in which it was taken. -/
theorem Accounts.taken_of_single (accounts : c.Accounts leaves) (inOrder : c.InOrder)
    (single : c.members.length = 1) : c.taken.map Prod.snd = c.handled ++ c.inHand := by
  obtain ⟨member, only⟩ := List.length_eq_one_iff.mp single
  have all : c.takenBy 0 = c.taken.map Prod.snd := by
    have zero : c.taken.filter (fun entry => entry.1 == 0) = c.taken := by
      refine List.filter_eq_self.mpr fun entry listed => ?_
      have small := inOrder.inside entry listed
      rw [single] at small
      simpa using small
    rw [takenBy, zero]
  have hand : (c.heldBy 0).toList = c.inHand := by
    rw [heldBy, inHand, only]
    cases held : member.held with
    | none => simp [held]
    | some message => simp [held]
  obtain ⟨finished, order, handled⟩ := inOrder.each 0
  rw [all, hand] at order
  have sizes := accounts.kept.length_eq
  rw [order, List.length_append, List.length_append] at sizes
  rw [order, handled.eq_of_length (by omega)]

end Overtaking

end Crew

end Excalibur.Library
