import Excalibur.Backends.Selection
import Excalibur.Library.Rotation

/-! # Round-robin under stable health

As long as the list of healthy members stays the same, `_select` takes turns on it,
whatever the index it starts from: an index left over from a longer list is reduced by
the first call like any other.  The health loop may probe as often as it likes.
-/

namespace Excalibur.Backends

open Excalibur.Library Excalibur.Python

/-- The healthy members are `healthy` before and after each of `events`. -/
def Stable (healthy : List Nat) (p : ReverseProxy) (events : List Event) : Prop :=
  ∀ before, before <+: events → (answers answer p before).2.healthyMembers = healthy

/-- How often member `i` is selected. -/
def timesChosen (p : ReverseProxy) (events : List Event) (i : Nat) : Nat :=
  (answers answer p events).1.count (some i)

section Window

variable {healthy : List Nat} {p : ReverseProxy} {event : Event} {events : List Event}

theorem Stable.here (stable : Stable healthy p events) : p.healthyMembers = healthy :=
  stable [] List.nil_prefix

theorem Stable.next (stable : Stable healthy p (event :: events)) :
    Stable healthy (answer p event).2 events := by
  intro before initial
  exact stable (event :: before) (List.cons_prefix_cons.mpr ⟨rfl, initial⟩)

theorem nodup_healthyMembers (p : ReverseProxy) : p.healthyMembers.Nodup := by
  have indices : (p.members.zipIdx.map Prod.snd).Nodup := by
    rw [List.zipIdx_map_snd]
    exact List.nodup_range'
  exact indices.sublist (List.filter_sublist.map Prod.snd)

/-- What the calls of a window answer, the probes left out: the members whose turn it is. -/
theorem chosen_eq_turns (strategy : p.strategy = lit "round_robin") (nonempty : healthy ≠ [])
    (stable : Stable healthy p events) :
    (answers answer p events).1.filter Option.isSome =
      (turns healthy.length p.rrIndex (events.count .select)).map fun turn => healthy[turn.toNat]? := by
  induction events generalizing p with
  | nil => rfl
  | cons event events ih =>
    cases event with
    | probe i ok =>
      have rest := ih (p := p.probe i ok) strategy stable.next
      rw [answers, answer, List.filter_cons_of_neg (by simp), rest, List.count_cons_of_ne (by simp)]
      rfl
    | select =>
      have selected := (p.select_of_healthy stable.here nonempty).trans
        (p.pick_roundRobin strategy healthy)
      have next := stable.next
      rw [answer, selected] at next
      have rest := ih (p := { p with rrIndex := (p.rrIndex + 1) % healthy.length }) strategy next
      -- the index is inside the list, so somebody is selected
      have positive : (0 : Int) < healthy.length := by
        exact_mod_cast List.length_pos_iff.mpr nonempty
      have inside : ((p.rrIndex + 1) % healthy.length).toNat < healthy.length := by
        have lower := Int.emod_nonneg (p.rrIndex + 1) positive.ne'
        have upper := Int.emod_lt_of_pos (p.rrIndex + 1) positive
        omega
      have isSome : (healthy[((p.rrIndex + 1) % healthy.length).toNat]?).isSome := by
        rw [List.getElem?_eq_getElem inside, Option.isSome_some]
      rw [answers, answer, selected, List.filter_cons_of_pos isSome, rest, List.count_cons_self,
        turns_succ, List.map_cons]

theorem timesChosen_eq (strategy : p.strategy = lit "round_robin") (nonempty : healthy ≠ [])
    (stable : Stable healthy p events) {place : Nat} (inside : place < healthy.length) :
    timesChosen p events healthy[place] =
      (turns healthy.length p.rrIndex (events.count .select)).count (place : Int) := by
  have distinct : healthy.Nodup := stable.here ▸ nodup_healthyMembers p
  have positive : (0 : Int) < healthy.length := by omega
  have kept : timesChosen p events healthy[place] =
      ((answers answer p events).1.filter Option.isSome).count (some healthy[place]) := by
    rw [List.count_filter (by simp), timesChosen]
  rw [kept, chosen_eq_turns strategy nonempty stable, List.count_eq_countP, List.countP_map,
    List.count_eq_countP]
  -- each member stands at one place of the list only
  refine List.countP_congr fun turn member => ?_
  obtain ⟨lower, upper⟩ := mem_turns positive member
  have within : turn.toNat < healthy.length := by omega
  simp only [Function.comp_apply, beq_iff_eq, List.getElem?_eq_getElem within, Option.some.injEq,
    distinct.getElem_inj_iff]
  omega

/-- While the healthy members stay the same, round-robin selects any two of them equally
    often, give or take one, and selects nobody else. -/
theorem round_robin_even (strategy : p.strategy = lit "round_robin") (nonempty : healthy ≠ [])
    (stable : Stable healthy p events) :
    (∀ i ∈ healthy, ∀ j ∈ healthy, timesChosen p events i ≤ timesChosen p events j + 1) ∧
    (∀ i, some i ∈ (answers answer p events).1 → i ∈ healthy) := by
  constructor
  · intro i first j second
    obtain ⟨place, inside, rfl⟩ := List.getElem_of_mem first
    obtain ⟨other, otherInside, rfl⟩ := List.getElem_of_mem second
    rw [timesChosen_eq strategy nonempty stable inside,
      timesChosen_eq strategy nonempty stable otherInside]
    apply count_turns_le <;> omega
  · intro i chosen
    have kept : some i ∈ (answers answer p events).1.filter Option.isSome :=
      List.mem_filter.mpr ⟨chosen, rfl⟩
    rw [chosen_eq_turns strategy nonempty stable] at kept
    obtain ⟨turn, -, found⟩ := List.mem_map.mp kept
    exact List.mem_of_getElem? found

end Window

/-- Members 0 and 2 of three are healthy, and the index is left over from a longer list. -/
def stale : ReverseProxy where
  members := [⟨true, 0⟩, ⟨false, 0⟩, ⟨true, 0⟩]
  strategy := lit "round_robin"
  rrIndex := 7

theorem stale_even :
    timesChosen stale [.select, .probe 1 false, .select, .select] 0 ≤
      timesChosen stale [.select, .probe 1 false, .select, .select] 2 + 1 := by
  have stable : Stable [0, 2] stale [.select, .probe 1 false, .select, .select] := by
    intro before initial
    have listed := (List.mem_inits before _).mpr initial
    have all : ∀ before ∈ [Event.select, .probe 1 false, .select, .select].inits,
        (answers answer stale before).2.healthyMembers = [0, 2] := by decide
    exact all before listed
  exact (round_robin_even rfl (by decide) stable).1 0 (by decide) 2 (by decide)

end Excalibur.Backends
