import Excalibur.SubnetCalculator.Subnet

/-! # Longest-prefix match

The routing table keeps the added routes in order and scans all of them, with a running
best that only a longer prefix replaces.  `LongestMatch` is what the scan keeps: the
first of the longest prefixes among the routes seen so far that contain the address.

Two routes of one length that contain an address are the same block, so without repeated
blocks there is one longest match, whatever the order.
-/

namespace Excalibur.SubnetCalculator

open Excalibur.Library Excalibur.Python

variable {η : Type}

/-! ## The program -/

structure Route (η : Type) where
  network : Int
  mask : Int
  prefixLength : Int
  nextHop : η

structure RoutingTable (η : Type) where
  routes : List (Route η)

namespace RoutingTable

def empty : RoutingTable η := ⟨[]⟩

def add (table : RoutingTable η) (cidr : Str) (nextHop : η) : Except PyError (RoutingTable η) := do
  let s ← Subnet.ofCidr cidr
  return ⟨table.routes ++ [⟨s.networkInt, s.mask, s.prefixLength, nextHop⟩]⟩

def addAll (table : RoutingTable η) : List (Str × η) → Except PyError (RoutingTable η)
  | [] => .ok table
  | (cidr, nextHop) :: adds => do
    let table ← table.add cidr nextHop
    table.addAll adds

/-- One turn of the scan, on `best` and `best_prefix`. -/
def consider (addr : Int) (best : Option η × Int) (route : Route η) : Option η × Int :=
  if addr.land route.mask = route.network ∧ best.2 < route.prefixLength then
    (some route.nextHop, route.prefixLength)
  else best

def lookup (table : RoutingTable η) (ip : Str) : Except PyError (Option η) := do
  let addr ← ipToInt ip
  return (table.routes.foldl (consider addr) (none, -1)).1

end RoutingTable

/-! ## Routes as blocks -/

/-- A call of `add` with a valid text. -/
structure ValidRoute (η : Type) where
  cidr : Str
  address : Nat
  prefixLength : Nat
  nextHop : η
  reads : ReadsCidr cidr address prefixLength

namespace ValidRoute

def call (route : ValidRoute η) : Str × η := (route.cidr, route.nextHop)

def Contains (route : ValidRoute η) (addr : Nat) : Prop :=
  blockStart (32 - route.prefixLength) route.address ≤ addr ∧
    addr ≤ blockEnd (32 - route.prefixLength) route.address

instance (route : ValidRoute η) (addr : Nat) : Decidable (route.Contains addr) :=
  inferInstanceAs (Decidable (_ ∧ _))

/-- Both routes denote one network and prefix. -/
def SameBlock (first second : ValidRoute η) : Prop :=
  first.prefixLength = second.prefixLength ∧
    blockStart (32 - first.prefixLength) first.address =
      blockStart (32 - second.prefixLength) second.address

/-- The route as the table stores it. -/
def stored (route : ValidRoute η) : Route η where
  network := blockStart (32 - route.prefixLength) route.address
  mask := (2 ^ 32 - 2 ^ (32 - route.prefixLength) : Nat)
  prefixLength := route.prefixLength
  nextHop := route.nextHop

theorem narrow (route : ValidRoute η) : route.prefixLength ≤ 32 := by
  cases route.reads with
  | slash _ _ _ narrow => exact narrow

theorem add_stored (table : RoutingTable η) (route : ValidRoute η) :
    table.add route.cidr route.nextHop = .ok ⟨table.routes ++ [route.stored]⟩ := by
  have bits : (32 : Int) - ((32 - route.prefixLength : Nat) : Int) = route.prefixLength := by
    have := route.narrow
    omega
  simp only [RoutingTable.add, Subnet.ofCidr_eq route.reads, bind, Except.bind, pure, Except.pure,
    Subnet.block, bits, stored]

theorem addAll_stored (table : RoutingTable η) (adds : List (ValidRoute η)) :
    table.addAll (adds.map call) = .ok ⟨table.routes ++ adds.map stored⟩ := by
  induction adds generalizing table with
  | nil => simp [RoutingTable.addAll]
  | cons route adds ih =>
    rw [List.map_cons, call]
    simp only [RoutingTable.addAll, add_stored, bind, Except.bind, ih]
    simp

theorem matches_iff (route : ValidRoute η) {addr : Nat} (isAddress : addr < 2 ^ 32) :
    (addr : Int).land route.stored.mask = route.stored.network ↔ route.Contains addr := by
  have masked : (addr : Int).land route.stored.mask =
      (blockStart (32 - route.prefixLength) addr : Nat) := by
    rw [← and_mask (Nat.sub_le 32 route.prefixLength) isAddress]
    rfl
  rw [masked, stored, Nat.cast_inj, blockStart_eq_iff, Contains, mem_block_iff]

/-- Of blocks of one size only one contains an address. -/
theorem sameBlock_of_contains {first second : ValidRoute η} {addr : Nat}
    (length : first.prefixLength = second.prefixLength) (inFirst : first.Contains addr)
    (inSecond : second.Contains addr) : first.SameBlock second := by
  refine ⟨length, ?_⟩
  rw [Contains, mem_block_iff] at inFirst inSecond
  rw [length] at inFirst ⊢
  rw [blockStart_eq_iff, ← inFirst, ← inSecond]

end ValidRoute

/-! ## What the scan keeps -/

/-- The first of the longest prefixes among the routes that contain the address. -/
structure LongestMatch (adds : List (ValidRoute η)) (addr : Nat) (route : ValidRoute η) : Prop where
  contains : route.Contains addr
  longest : ∀ other ∈ adds, other.Contains addr → other.prefixLength ≤ route.prefixLength
  earliest : ∃ before after, adds = before ++ route :: after ∧
    ∀ other ∈ before, other.Contains addr → other.prefixLength < route.prefixLength

theorem LongestMatch.mem {adds : List (ValidRoute η)} {addr : Nat} {route : ValidRoute η}
    (found : LongestMatch adds addr route) : route ∈ adds := by
  obtain ⟨before, after, rfl, -⟩ := found.earliest
  simp

/-- The running best of the routes seen. -/
inductive Best (seen : List (ValidRoute η)) (addr : Nat) : Option η × Int → Prop where
  | none (outside : ∀ route ∈ seen, ¬ route.Contains addr) : Best seen addr (none, -1)
  | some {route : ValidRoute η} (found : LongestMatch seen addr route) :
      Best seen addr (some route.nextHop, route.prefixLength)

section Scan

variable {seen : List (ValidRoute η)} {addr : Nat} {best : Option η × Int}

/-- A route that contains the address and is longer than all before it. -/
theorem LongestMatch.snoc {route : ValidRoute η} (contains : route.Contains addr)
    (longer : ∀ other ∈ seen, other.Contains addr → other.prefixLength < route.prefixLength) :
    LongestMatch (seen ++ [route]) addr route := by
  refine ⟨contains, ?_, seen, [], rfl, longer⟩
  intro other member inOther
  obtain old | new := List.mem_append.mp member
  · exact (longer other old inOther).le
  · rw [List.mem_singleton.mp new]

/-- A route that does not contain the address, or is no longer than the best. -/
theorem LongestMatch.keep {route found : ValidRoute η} (longest : LongestMatch seen addr found)
    (noLonger : route.Contains addr → route.prefixLength ≤ found.prefixLength) :
    LongestMatch (seen ++ [route]) addr found := by
  obtain ⟨before, after, rfl, earliest⟩ := longest.earliest
  refine ⟨longest.contains, ?_, before, after ++ [route], by simp, earliest⟩
  intro other member inOther
  obtain old | new := List.mem_append.mp member
  · exact longest.longest other old inOther
  · obtain rfl := List.mem_singleton.mp new
    exact noLonger inOther

theorem best_consider (holds : Best seen addr best) (isAddress : addr < 2 ^ 32)
    (route : ValidRoute η) :
    Best (seen ++ [route]) addr (RoutingTable.consider addr best route.stored) := by
  simp only [RoutingTable.consider, route.matches_iff isAddress]
  cases holds with
  | none outside =>
    by_cases contains : route.Contains addr
    -- With no match so far the best length is -1, so any match is longer.
    · have longer : (-1 : Int) < route.stored.prefixLength := by
        simp only [ValidRoute.stored]
        omega
      rw [if_pos ⟨contains, longer⟩]
      exact .some (.snoc contains fun other old inOther => absurd inOther (outside other old))
    · rw [if_neg fun both => contains both.1]
      refine .none ?_
      intro other member
      obtain old | new := List.mem_append.mp member
      · exact outside other old
      · rwa [List.mem_singleton.mp new]
  | @some found longest =>
    simp only [ValidRoute.stored, Nat.cast_lt]
    by_cases better : route.Contains addr ∧ found.prefixLength < route.prefixLength
    -- Only a strictly longer prefix replaces the match, so the earliest of equals stays.
    · rw [if_pos better]
      refine .some (.snoc better.1 ?_)
      intro other old inOther
      exact (longest.longest other old inOther).trans_lt better.2
    · rw [if_neg better]
      exact .some (longest.keep fun contains => not_lt.mp fun longer => better ⟨contains, longer⟩)

theorem best_scan (holds : Best seen addr best) (isAddress : addr < 2 ^ 32)
    (routes : List (ValidRoute η)) :
    Best (seen ++ routes) addr
      ((routes.map ValidRoute.stored).foldl (RoutingTable.consider addr) best) := by
  induction routes generalizing seen best with
  | nil => simpa using holds
  | cons route routes ih =>
    have next := ih (best_consider holds isAddress route)
    rwa [List.append_assoc] at next

end Scan

/-- What a lookup in the table of the added routes finds. -/
theorem lookup_eq (adds : List (ValidRoute η)) {ip : Str} {addr : Nat}
    (reads : ReadsAddress ip addr) :
    ∃ best, RoutingTable.lookup ⟨adds.map ValidRoute.stored⟩ ip = .ok best.1 ∧
      Best adds addr best := by
  have nothing : Best ([] : List (ValidRoute η)) addr (none, -1) := .none (by simp)
  refine ⟨_, ?_, best_scan nothing reads.lt adds⟩
  simp only [RoutingTable.lookup, reads.ipToInt_eq, bind, Except.bind, pure, Except.pure]

/-- Without repeated blocks the longest match does not depend on the order. -/
theorem LongestMatch.unique {adds permuted : List (ValidRoute η)} {addr : Nat}
    {first second : ValidRoute η} (distinct : adds.Pairwise fun r s => ¬ r.SameBlock s)
    (perm : permuted.Perm adds) (found : LongestMatch adds addr first)
    (found' : LongestMatch permuted addr second) : first = second := by
  have inAdds := perm.mem_iff.mp found'.mem
  have length : first.prefixLength = second.prefixLength :=
    le_antisymm (found'.longest first (perm.mem_iff.mpr found.mem) found.contains)
      (found.longest second inAdds found'.contains)
  by_contra different
  have symmetric : Std.Symm fun r s : ValidRoute η => ¬ r.SameBlock s :=
    ⟨fun r s apart same => apart ⟨same.1.symm, same.2.symm⟩⟩
  exact distinct.forall found.mem inAdds different
    (ValidRoute.sameBlock_of_contains length found.contains found'.contains)

/-- Adding valid routes builds a table whose lookups are longest-prefix matches, the
    earliest among equals, and without repeated blocks the order of adding is immaterial. -/
theorem lookup_is_longest_prefix_match (adds : List (ValidRoute η)) :
    ∃ table, RoutingTable.empty.addAll (adds.map ValidRoute.call) = .ok table ∧
      (∀ ip addr, ReadsAddress ip addr → ∃ answer, table.lookup ip = .ok answer ∧
        (answer = none ↔ ∀ route ∈ adds, ¬ route.Contains addr) ∧
        ∀ hop, answer = some hop → ∃ route, LongestMatch adds addr route ∧ route.nextHop = hop) ∧
      ((adds.Pairwise fun r s => ¬ r.SameBlock s) → ∀ permuted : List (ValidRoute η),
        permuted.Perm adds →
          ∃ table', RoutingTable.empty.addAll (permuted.map ValidRoute.call) = .ok table' ∧
            ∀ ip addr, ReadsAddress ip addr → table'.lookup ip = table.lookup ip) := by
  refine ⟨⟨adds.map ValidRoute.stored⟩, ValidRoute.addAll_stored .empty adds, ?_, ?_⟩
  · intro ip addr reads
    obtain ⟨best, answered, holds⟩ := lookup_eq adds reads
    refine ⟨best.1, answered, ?_⟩
    cases holds with
    | none outside => exact ⟨iff_of_true rfl outside, by simp⟩
    | @some route found =>
      refine ⟨iff_of_false (by simp) fun outside => outside route found.mem found.contains, ?_⟩
      intro hop isHop
      exact ⟨route, found, Option.some.inj isHop⟩
  · intro distinct permuted perm
    refine ⟨⟨permuted.map ValidRoute.stored⟩, ValidRoute.addAll_stored .empty permuted, ?_⟩
    intro ip addr reads
    -- Either table holds a longest match, and without repeated blocks there is only one.
    obtain ⟨best, answered, holds⟩ := lookup_eq adds reads
    obtain ⟨best', answered', holds'⟩ := lookup_eq permuted reads
    rw [answered, answered']
    cases holds with
    | none outside =>
      cases holds' with
      | none _ => rfl
      | @some route found => exact absurd found.contains (outside route (perm.mem_iff.mp found.mem))
    | @some route found =>
      cases holds' with
      | none outside => exact absurd found.contains (outside route (perm.mem_iff.mpr found.mem))
      | @some other found' => rw [found.unique distinct perm found']

end Excalibur.SubnetCalculator
