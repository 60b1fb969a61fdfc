import Excalibur.SubnetCalculator.RightSized
import Excalibur.SubnetCalculator.Split
import Excalibur.SubnetCalculator.RoutingTable

/-! # Routing a plan

A plan is installed in a routing table, one route for a subnet, under the subnet's network
and prefix as text.  When the routes that are there already reach the parent block only
through shorter prefixes, the addresses of a planned subnet go to it and every other
address goes where it went before.
-/

namespace Excalibur.SubnetCalculator

open Excalibur.Library Excalibur.Python

variable {ν : Type}

/-! ## The program -/

namespace Subnet

def network (s : Subnet) : Str := intToIp s.networkInt

def broadcast (s : Subnet) : Str := intToIp s.broadcastInt

def firstHost (s : Subnet) : Str :=
  if 31 ≤ s.prefixLength then s.network else intToIp (s.networkInt + 1)

def lastHost (s : Subnet) : Str :=
  if 31 ≤ s.prefixLength then s.broadcast else intToIp (s.broadcastInt - 1)

end Subnet

/-- The calls of `add` that route a plan, with the text that the demonstration prints. -/
def planRoutes (plan : List (ν × Subnet)) : List (Str × ν) :=
  plan.map fun entry => (cidrText entry.2.networkInt entry.2.prefixLength, entry.1)

/-! ## The blocks of a plan -/

/-- A block that starts where it is aligned. -/
inductive IsBlock : Subnet → Prop where
  | block {bits start : Nat} (narrow : bits ≤ 32) (aligned : blockStart bits start = start)
      (isAddress : start < 2 ^ 32) : IsBlock (Subnet.block bits start)

theorem isBlock_block {bits address : Nat} (narrow : bits ≤ 32) (isAddress : address < 2 ^ 32) :
    IsBlock (Subnet.block bits address) := by
  have aligned : blockStart bits (blockStart bits address) = blockStart bits address :=
    blockStart_of_dvd (dvd_blockStart bits address)
  have same : Subnet.block bits address = Subnet.block bits (blockStart bits address) := by
    have ends : blockEnd bits (blockStart bits address) = blockEnd bits address := by
      simp only [blockEnd, aligned]
    simp only [Subnet.block, aligned, ends]
  rw [same]
  exact .block narrow aligned ((blockStart_le bits address).trans_lt isAddress)

theorem allocateLoop_blocks {parent : Subnet} {reqs : List (ν × Nat)} {plan : List (ν × Subnet)}
    {cursor : Nat} (returned : allocateLoop parent cursor reqs = .ok plan) :
    ∀ entry ∈ plan, IsBlock entry.2 := by
  induction reqs generalizing cursor plan with
  | nil =>
    cases returned
    simp
  | cons req reqs ih =>
    obtain ⟨-, rest, rfl, continued⟩ := allocateLoop_cons_eq_ok.mp returned
    intro entry member
    obtain rfl | later := List.mem_cons.mp member
    · exact isBlock_block (blockBits_le req.2) (Nat.mod_lt cursor (Nat.two_pow_pos 32))
    · exact ih continued entry later

/-- The route of one entry of a plan. -/
structure RouteOf (entry : ν × Subnet) (route : ValidRoute ν) : Prop where
  call : route.call = (cidrText entry.2.networkInt entry.2.prefixLength, entry.1)
  length : (route.prefixLength : Int) = entry.2.prefixLength
  contains : ∀ addr : Nat, route.Contains addr ↔ entry.2.Contains addr

theorem RouteOf.nextHop {entry : ν × Subnet} {route : ValidRoute ν} (routeOf : RouteOf entry route) :
    route.nextHop = entry.1 :=
  (Prod.ext_iff.mp routeOf.call).2

theorem exists_routeOf {name : ν} {sub : Subnet} (isBlock : IsBlock sub) :
    ∃ route, RouteOf (name, sub) route := by
  cases isBlock with
  | @block bits start narrow aligned isAddress =>
    have printed := readsCidr_cidrText start (Nat.sub_le 32 bits)
    rw [Nat.mod_eq_of_lt isAddress] at printed
    have prefixLength : ((32 - bits : Nat) : Int) = 32 - bits := by omega
    refine ⟨⟨_, start, 32 - bits, name, printed⟩, ?_, prefixLength, ?_⟩
    · simp only [ValidRoute.call, Subnet.block_networkInt, Subnet.block_prefixLength, aligned,
        prefixLength]
    intro addr
    have size : 32 - (32 - bits) = bits := by omega
    simp only [ValidRoute.Contains, Subnet.Contains, size, Subnet.block_networkInt,
      Subnet.block_broadcastInt, Nat.cast_le]

theorem exists_routes {plan : List (ν × Subnet)} (blocks : ∀ entry ∈ plan, IsBlock entry.2) :
    ∃ routes, List.Forall₂ RouteOf plan routes := by
  induction plan with
  | nil => exact ⟨[], .nil⟩
  | cons entry plan ih =>
    obtain ⟨isBlock, rest⟩ := List.forall_mem_cons.mp blocks
    obtain ⟨route, routes⟩ : ∃ route, RouteOf entry route := exists_routeOf isBlock
    obtain ⟨others, follow⟩ := ih rest
    exact ⟨route :: others, .cons routes follow⟩

/-! ## Lookups -/

section Lookups

variable {existing routes : List (ValidRoute ν)} {plan : List (ν × Subnet)}

/-- Routes that do not contain the address leave the scan as it is. -/
theorem scan_outside {addr : Nat} (isAddress : addr < 2 ^ 32)
    (outside : ∀ route ∈ routes, ¬ route.Contains addr) (best : Option ν × Int) :
    (routes.map ValidRoute.stored).foldl (RoutingTable.consider addr) best = best := by
  induction routes with
  | nil => rfl
  | cons route routes ih =>
    obtain ⟨first, rest⟩ := List.forall_mem_cons.mp outside
    have kept : RoutingTable.consider addr best route.stored = best := by
      simp only [RoutingTable.consider, route.matches_iff isAddress]
      exact if_neg fun both => first both.1
    rw [List.map_cons, List.foldl_cons, kept, ih rest]

theorem lookup_outside {ip : Str} {addr : Nat} (reads : ReadsAddress ip addr)
    (outside : ∀ route ∈ routes, ¬ route.Contains addr) :
    RoutingTable.lookup ⟨(existing ++ routes).map ValidRoute.stored⟩ ip =
      RoutingTable.lookup ⟨existing.map ValidRoute.stored⟩ ip := by
  simp only [RoutingTable.lookup, reads.ipToInt_eq, bind, Except.bind, List.map_append,
    List.foldl_append, scan_outside reads.lt outside]

/-- A route that is longer than every other one to the address. -/
theorem lookup_longest {ip : Str} {addr : Nat} (reads : ReadsAddress ip addr)
    {route : ValidRoute ν} (member : route ∈ existing) (contains : route.Contains addr)
    (longer : ∀ other ∈ existing, other.Contains addr →
      other.nextHop = route.nextHop ∨ other.prefixLength < route.prefixLength) :
    RoutingTable.lookup ⟨existing.map ValidRoute.stored⟩ ip = .ok (some route.nextHop) := by
  obtain ⟨best, answered, holds⟩ := lookup_eq existing reads
  rw [answered]
  cases holds with
  | none outside => exact absurd contains (outside route member)
  | @some found longest =>
    have atLeast := longest.longest route member contains
    cases longer found longest.mem longest.contains with
    | inl same => rw [same]
    | inr shorter => omega

end Lookups

/-! ## Plans inside a parent -/

theorem SafePlan.eq_of_contains {parent : Subnet} {plan : List (ν × Subnet)}
    (safe : SafePlan parent plan) {first second : ν × Subnet} (inPlan : first ∈ plan)
    (inPlan' : second ∈ plan) {addr : Int} (inFirst : first.2.Contains addr)
    (inSecond : second.2.Contains addr) : first = second := by
  by_contra different
  have symmetric : Std.Symm fun x y : ν × Subnet => Apart x.2 y.2 := ⟨fun x y apart => apart.symm⟩
  have lower := inFirst.1
  have upper := inFirst.2
  have lower' := inSecond.1
  have upper' := inSecond.2
  cases safe.apart.forall inPlan inPlan' different with
  | inl before => omega
  | inr behind => omega

/-- A block inside the parent has no shorter prefix. -/
theorem IsBlock.prefixLength_le {sub : Subnet} (isBlock : IsBlock sub) {address prefixLength : Nat}
    (narrow : prefixLength ≤ 32)
    (starts : (Subnet.block (32 - prefixLength) address).networkInt ≤ sub.networkInt)
    (ends : sub.broadcastInt ≤ (Subnet.block (32 - prefixLength) address).broadcastInt) :
    (prefixLength : Int) ≤ sub.prefixLength := by
  cases isBlock with
  | @block bits start narrowBlock aligned isAddress =>
    simp only [Subnet.block_networkInt, Subnet.block_broadcastInt, Nat.cast_le] at starts ends
    have parentSize := blockEnd_add_one (32 - prefixLength) address
    have size := blockEnd_add_one bits start
    have fewer : bits ≤ 32 - prefixLength :=
      (Nat.pow_le_pow_iff_right (by decide : 1 < 2)).mp (by omega)
    rw [Subnet.block_prefixLength]
    omega

theorem IsBlock.hosts {sub : Subnet} (isBlock : IsBlock sub) :
    ∃ first last : Nat, ReadsAddress sub.firstHost first ∧ sub.Contains first ∧
      ReadsAddress sub.lastHost last ∧ sub.Contains last := by
  cases isBlock with
  | @block bits start narrow aligned isAddress =>
    have size := blockEnd_add_one bits start
    have top := blockEnd_lt isAddress narrow
    rw [aligned] at size
    have reads : ∀ address : Nat, address < 2 ^ 32 → ReadsAddress (intToIp address) address := by
      intro address isAddress
      have printed := readsAddress_intToIp address
      rwa [Nat.mod_eq_of_lt isAddress] at printed
    have positive := Nat.two_pow_pos bits
    have inside : ∀ addr : Nat, start ≤ addr → addr ≤ blockEnd bits start →
        (Subnet.block bits start).Contains addr := by
      intro addr after before
      rw [Subnet.Contains, Subnet.block_networkInt, Subnet.block_broadcastInt, aligned]
      omega
    by_cases small : bits ≤ 1
    · have pointToPoint : (31 : Int) ≤ 32 - bits := by omega
      have first : (Subnet.block bits start).firstHost = intToIp start := by
        rw [Subnet.firstHost, Subnet.block_prefixLength, if_pos pointToPoint, Subnet.network,
          Subnet.block_networkInt, aligned]
      have last : (Subnet.block bits start).lastHost = intToIp (blockEnd bits start) := by
        rw [Subnet.lastHost, Subnet.block_prefixLength, if_pos pointToPoint, Subnet.broadcast,
          Subnet.block_broadcastInt]
      rw [first, last]
      exact ⟨start, blockEnd bits start, reads _ isAddress, inside _ le_rfl (by omega),
        reads _ top, inside _ (by omega) le_rfl⟩
    · have reserved : ¬ (31 : Int) ≤ 32 - bits := by omega
      have atLeast : 2 ^ 2 ≤ 2 ^ bits := Nat.pow_le_pow_right (by decide) (by omega)
      have first : (Subnet.block bits start).firstHost = intToIp (start + 1 : Nat) := by
        rw [Subnet.firstHost, Subnet.block_prefixLength, if_neg reserved, Subnet.block_networkInt,
          aligned]
        rfl
      have last : (Subnet.block bits start).lastHost = intToIp (blockEnd bits start - 1 : Nat) := by
        rw [Subnet.lastHost, Subnet.block_prefixLength, if_neg reserved, Subnet.block_broadcastInt,
          Nat.cast_sub (by omega), Nat.cast_one]
      rw [first, last]
      exact ⟨start + 1, blockEnd bits start - 1, reads _ (by omega), inside _ (by omega) (by omega),
        reads _ (by omega), inside _ (by omega) (by omega)⟩

/-- Installing a plan for which the parent has room: the hosts of each subnet, the first and
    the last of them included, are routed to its name, and all addresses outside the subnets
    as before. -/
theorem planned_subnets_are_routed {cidr : Str} {address prefixLength : Nat}
    (reads : ReadsCidr cidr address prefixLength) {reqs : List (ν × Nat)}
    (fits : (reqs.map fun req => blockSize req.2).sum ≤ 2 ^ (32 - prefixLength))
    (existing : List (ValidRoute ν))
    (shorter : ∀ route ∈ existing, ∀ addr : Nat,
      (Subnet.block (32 - prefixLength) address).Contains addr → route.Contains addr →
        route.prefixLength < prefixLength) :
    ∃ plan before after, vlsmAllocate cidr reqs = .ok plan ∧
      RoutingTable.empty.addAll (existing.map ValidRoute.call) = .ok before ∧
      before.addAll (planRoutes plan) = .ok after ∧
      (∀ entry ∈ plan, after.lookup entry.2.firstHost = .ok (some entry.1) ∧
        after.lookup entry.2.lastHost = .ok (some entry.1)) ∧
      ∀ ip addr, ReadsAddress ip addr →
        (∀ entry ∈ plan, entry.2.Contains addr → after.lookup ip = .ok (some entry.1)) ∧
        ((∀ entry ∈ plan, ¬ entry.2.Contains addr) → after.lookup ip = before.lookup ip) := by
  obtain ⟨plan, returned, laid⟩ := packs reads fits
  have safe := safe_of_endToEnd reads returned laid
  have narrow : prefixLength ≤ 32 := by
    cases reads with
    | slash _ _ _ narrow => exact narrow
  have blocks : ∀ entry ∈ plan, IsBlock entry.2 := by
    rw [vlsmAllocate_eq reads] at returned
    exact allocateLoop_blocks returned
  obtain ⟨routes, routed⟩ := exists_routes blocks
  have calls : planRoutes plan = routes.map ValidRoute.call := by
    have same := routed.imp fun entry route routeOf => routeOf.call.symm
    rw [← List.forall₂_eq_eq_eq, planRoutes, List.forall₂_map_left_iff, List.forall₂_map_right_iff]
    exact same
  have installed : RoutingTable.addAll ⟨existing.map ValidRoute.stored⟩ (planRoutes plan) =
      .ok ⟨(existing ++ routes).map ValidRoute.stored⟩ := by
    rw [calls, ValidRoute.addAll_stored, List.map_append]
  have hits : ∀ entry ∈ plan, ∀ ip addr, ReadsAddress ip addr → entry.2.Contains addr →
      RoutingTable.lookup ⟨(existing ++ routes).map ValidRoute.stored⟩ ip =
        .ok (some entry.1) := by
    intro entry member ip addr readsIp contains
    obtain ⟨route, inRoutes, routeOf⟩ := exists_partner routed member
    obtain ⟨starts, ends⟩ := safe.inside entry member
    rw [← routeOf.nextHop]
    apply lookup_longest readsIp (List.mem_append_right existing inRoutes)
      ((routeOf.contains addr).mpr contains)
    intro other inTable reaches
    obtain old | planned := List.mem_append.mp inTable
    · have parentContains : (Subnet.block (32 - prefixLength) address).Contains addr :=
        ⟨starts.trans contains.1, contains.2.trans ends⟩
      have less := shorter other old addr parentContains reaches
      have atLeast := (blocks entry member).prefixLength_le narrow starts ends
      have length := routeOf.length
      exact .inr (by omega)
    -- No other subnet of the plan contains the address.
    · obtain ⟨entry', member', routeOf'⟩ := exists_partner routed.flip planned
      have same := safe.eq_of_contains member' member ((routeOf'.contains addr).mp reaches) contains
      rw [routeOf.nextHop, routeOf'.nextHop, same]
      exact .inl rfl
  refine ⟨plan, _, _, returned, ValidRoute.addAll_stored .empty existing, installed, ?_, ?_⟩
  · intro entry member
    obtain ⟨first, last, readsFirst, inFirst, readsLast, inLast⟩ := (blocks entry member).hosts
    exact ⟨hits entry member _ _ readsFirst inFirst, hits entry member _ _ readsLast inLast⟩
  · intro ip addr readsIp
    refine ⟨fun entry member => hits entry member ip addr readsIp, ?_⟩
    intro outside
    apply lookup_outside readsIp
    intro route member contains
    obtain ⟨entry, inPlan, routeOf⟩ := exists_partner routed.flip member
    exact outside entry inPlan ((routeOf.contains addr).mp contains)

/-- A table with a default route only. -/
def defaultRoute : ValidRoute Str where
  cidr := cidrText (0 : Nat) (0 : Nat)
  address := 0
  prefixLength := 0
  nextHop := lit "default-gw"
  reads := readsCidr_cidrText 0 (by decide)

theorem sampleReqs_are_routed :
    ∃ plan before after, vlsmAllocate (lit "172.16.0.0/24") sampleReqs = .ok plan ∧
      RoutingTable.empty.addAll ([defaultRoute].map ValidRoute.call) = .ok before ∧
      before.addAll (planRoutes plan) = .ok after ∧
      (∀ entry ∈ plan, after.lookup entry.2.firstHost = .ok (some entry.1) ∧
        after.lookup entry.2.lastHost = .ok (some entry.1)) ∧
      ∀ ip addr, ReadsAddress ip addr →
        (∀ entry ∈ plan, entry.2.Contains addr → after.lookup ip = .ok (some entry.1)) ∧
        ((∀ entry ∈ plan, ¬ entry.2.Contains addr) → after.lookup ip = before.lookup ip) := by
  apply planned_subnets_are_routed readsCidr_sample (by decide)
  intro route member _ _ _
  rw [List.mem_singleton.mp member]
  decide

end Excalibur.SubnetCalculator
