import Excalibur.SubnetCalculator.RoutingTable

/-! # Texts that are taken for addresses

`ip_to_int` leaves each part to `int`, which reads signs, blanks, underscores and digits of
other scripts, and sets the bits of the four numbers over each other whatever their size.
A text whose parts are all read is an address to the program, so it is faithful exactly on
the texts that are no addresses to `int` either or are dotted quads.
-/

namespace Excalibur.SubnetCalculator

open Excalibur.Library Excalibur.Python

/-- One or more decimal digits that make a number below 256. -/
def Octet (part : Str) (n : Nat) : Prop :=
  part ≠ [] ∧ (∀ c ∈ part, '0' ≤ c ∧ c ≤ '9') ∧ ofDigits 10 (part.map decimalValue) = n ∧ n < 256

instance (part : Str) (n : Nat) : Decidable (Octet part n) :=
  inferInstanceAs (Decidable (_ ∧ _ ∧ _ ∧ _))

structure DottedQuad (ip : Str) (a b c d : Nat) : Prop where
  split : ∃ first second third fourth, ip.splitOn '.' = [first, second, third, fourth] ∧
    Octet first a ∧ Octet second b ∧ Octet third c ∧ Octet fourth d

/-- The number of four octets. -/
def quadValue (a b c d : Nat) : Nat := ((a * 256 + b) * 256 + c) * 256 + d

/-- Only dotted quads are read, as the number of their octets, and a lookup routes them
    as the address that is printed for that number. -/
structure Faithful (ip : Str) : Prop where
  accepted : ∀ v, ipToInt ip = .ok v → ∃ a b c d, DottedQuad ip a b c d ∧
    v = quadValue a b c d ∧ v < 2 ^ 32 ∧ DottedQuad (intToIp v) a b c d
  routed : ∀ (η : Type) (table : RoutingTable η) answer, table.lookup ip = .ok answer →
    ∃ a b c d, DottedQuad ip a b c d ∧ table.lookup (intToIp (quadValue a b c d)) = .ok answer

/-- Four parts that `int` reads, one of them no octet. -/
structure LooseQuad (ip : Str) : Prop where
  four : (ip.splitOn '.').length = 4
  read : ∀ part ∈ ip.splitOn '.', ∃ n, intOfStr part = .ok n
  loose : ∃ part ∈ ip.splitOn '.', ∀ n, ¬ Octet part n

/-! ## Octets -/

/-- An octet that is read at all is read as its value; more than 4300 digits are not. -/
theorem Octet.read {part : Str} {n : Nat} (octet : Octet part n) {value : Int}
    (read : intOfStr part = .ok value) : value = n := by
  obtain ⟨nonempty, digits, rfl, -⟩ := octet
  rw [intOfStr_of_digits nonempty digits] at read
  split at read
  · exact (Except.ok.inj read).symm
  · cases read

theorem octet_strOfInt {n : Nat} (small : n < 256) : Octet (strOfInt n) n := by
  have read := intOfStr_octet small
  have digits : ∀ c ∈ strOfInt n, '0' ≤ c ∧ c ≤ '9' := by
    intro c member
    have digit := isDigit_of_mem_toDigits member
    rw [Char.isDigit, Bool.and_eq_true, decide_eq_true_eq, decide_eq_true_eq] at digit
    exact digit
  have nonempty : strOfInt n ≠ [] := by
    intro empty
    rw [empty] at read
    cases read
  refine ⟨nonempty, digits, ?_, small⟩
  rw [intOfStr_of_digits nonempty digits] at read
  split at read
  · exact Nat.cast_inj.mp (Except.ok.inj read)
  · cases read

theorem mapM_intOfStr {parts : List Str} {values : List Int} (read : parts.mapM intOfStr = .ok values) :
    List.Forall₂ (fun part value => intOfStr part = .ok value) parts values := by
  induction parts generalizing values with
  | nil =>
    cases read
    exact .nil
  | cons part parts ih =>
    rw [List.mapM_cons] at read
    obtain ⟨value, first, read⟩ := bind_eq_ok.mp read
    obtain ⟨rest, others, read⟩ := bind_eq_ok.mp read
    cases read
    exact .cons first (ih others)

/-- What is accepted has four parts that are all read. -/
theorem ipToInt_eq_ok {ip : Str} {v : Int} (read : ipToInt ip = .ok v) :
    ∃ first second third fourth a b c d, ip.splitOn '.' = [first, second, third, fourth] ∧
      intOfStr first = .ok a ∧ intOfStr second = .ok b ∧ intOfStr third = .ok c ∧
      intOfStr fourth = .ok d := by
  obtain ⟨values, parts, joined⟩ := bind_eq_ok.mp read
  have each := mapM_intOfStr parts
  split at joined
  · rename_i a b c d
    generalize ip.splitOn '.' = texts at each ⊢
    simp only [List.forall₂_cons_right_iff, List.forall₂_nil_right_iff] at each
    obtain ⟨first, _, readFirst, ⟨second, _, readSecond, ⟨third, _, readThird, ⟨fourth, _,
      readFourth, rfl, rfl⟩, rfl⟩, rfl⟩, rfl⟩ := each
    exact ⟨first, second, third, fourth, a, b, c, d, rfl, readFirst, readSecond, readThird, readFourth⟩
  · cases joined

theorem DottedQuad.readsAddress {ip : Str} {a b c d : Nat} (quad : DottedQuad ip a b c d) {v : Int}
    (read : ipToInt ip = .ok v) : ReadsAddress ip (quadValue a b c d) := by
  obtain ⟨first, second, third, fourth, split, octetA, octetB, octetC, octetD⟩ := quad.split
  obtain ⟨_, _, _, _, a', b', c', d', split', readA, readB, readC, readD⟩ := ipToInt_eq_ok read
  rw [split] at split'
  cases split'
  rw [octetA.read readA] at readA
  rw [octetB.read readB] at readB
  rw [octetC.read readC] at readC
  rw [octetD.read readD] at readD
  exact .quad split readA readB readC readD
    ⟨octetA.2.2.2, octetB.2.2.2, octetC.2.2.2, octetD.2.2.2⟩

/-- The printed number has the octets that it was joined from. -/
theorem dottedQuad_intToIp {a b c d : Nat} (small : a < 256 ∧ b < 256 ∧ c < 256 ∧ d < 256) :
    DottedQuad (intToIp (quadValue a b c d)) a b c d := by
  have partA : quadValue a b c d / 2 ^ 24 % 256 = a := by
    rw [quadValue]
    omega
  have partB : quadValue a b c d / 2 ^ 16 % 256 = b := by
    rw [quadValue]
    omega
  have partC : quadValue a b c d / 2 ^ 8 % 256 = c := by
    rw [quadValue]
    omega
  have partD : quadValue a b c d % 256 = d := by
    rw [quadValue]
    omega
  have split := splitOn_intToIp (quadValue a b c d)
  rw [partA, partB, partC, partD] at split
  exact ⟨_, _, _, _, split, octet_strOfInt small.1, octet_strOfInt small.2.1,
    octet_strOfInt small.2.2.1, octet_strOfInt small.2.2.2⟩

theorem DottedQuad.small {ip : Str} {a b c d : Nat} (quad : DottedQuad ip a b c d) :
    a < 256 ∧ b < 256 ∧ c < 256 ∧ d < 256 := by
  obtain ⟨_, _, _, _, -, octetA, octetB, octetC, octetD⟩ := quad.split
  exact ⟨octetA.2.2.2, octetB.2.2.2, octetC.2.2.2, octetD.2.2.2⟩

theorem DottedQuad.octets {ip : Str} {a b c d : Nat} (quad : DottedQuad ip a b c d) :
    ∀ part ∈ ip.splitOn '.', ∃ n, Octet part n := by
  obtain ⟨first, second, third, fourth, split, octetA, octetB, octetC, octetD⟩ := quad.split
  rw [split]
  simp only [List.forall_mem_cons, List.not_mem_nil, false_implies, implies_true, and_true]
  exact ⟨⟨a, octetA⟩, ⟨b, octetB⟩, ⟨c, octetC⟩, d, octetD⟩

/-- A text that is read and has octets only is a dotted quad. -/
theorem dottedQuad_of_read {ip : Str} {v : Int} (read : ipToInt ip = .ok v)
    (octets : ∀ part ∈ ip.splitOn '.', ∃ n, Octet part n) : ∃ a b c d, DottedQuad ip a b c d := by
  obtain ⟨first, second, third, fourth, _, _, _, _, split, -⟩ := ipToInt_eq_ok read
  rw [split] at octets
  simp only [List.forall_mem_cons, List.not_mem_nil, false_implies, implies_true, and_true] at octets
  obtain ⟨⟨a, octetA⟩, ⟨b, octetB⟩, ⟨c, octetC⟩, d, octetD⟩ := octets
  exact ⟨a, b, c, d, first, second, third, fourth, split, octetA, octetB, octetC, octetD⟩

/-- Four parts that are read make a number, whatever their size and sign. -/
theorem LooseQuad.accepted {ip : Str} (loose : LooseQuad ip) : ∃ v, ipToInt ip = .ok v := by
  obtain ⟨four, read, -⟩ := loose
  rw [ipToInt]
  obtain ⟨first, second, third, fourth, split⟩ := List.length_eq_four.mp four
  rw [split] at read ⊢
  obtain ⟨a, readA⟩ := read first (by simp)
  obtain ⟨b, readB⟩ := read second (by simp)
  obtain ⟨c, readC⟩ := read third (by simp)
  obtain ⟨d, readD⟩ := read fourth (by simp)
  simp only [List.mapM_cons, List.mapM_nil, readA, readB, readC, readD, bind, Except.bind, pure,
    Except.pure, Except.ok.injEq, exists_eq']

theorem octets_of_strict {ip : Str} (strict : ¬ LooseQuad ip) {v : Int}
    (read : ipToInt ip = .ok v) : ∀ part ∈ ip.splitOn '.', ∃ n, Octet part n := by
  obtain ⟨first, second, third, fourth, a, b, c, d, split, readA, readB, readC, readD⟩ :=
    ipToInt_eq_ok read
  by_contra notAll
  simp only [not_forall, not_exists] at notAll
  obtain ⟨part, member, notOctet⟩ := notAll
  refine strict ⟨by rw [split]; rfl, ?_, part, member, notOctet⟩
  rw [split]
  simp only [List.forall_mem_cons, List.not_mem_nil, false_implies, implies_true, and_true]
  exact ⟨⟨a, readA⟩, ⟨b, readB⟩, ⟨c, readC⟩, d, readD⟩

/-- The calculator is faithful to a text exactly when `int` does not read four parts of it
    of which one is no octet. -/
theorem faithful_iff (ip : Str) : Faithful ip ↔ ¬ LooseQuad ip := by
  constructor
  · intro faithful loose
    obtain ⟨v, read⟩ := loose.accepted
    obtain ⟨a, b, c, d, quad, -⟩ := faithful.accepted v read
    obtain ⟨part, member, notOctet⟩ := loose.loose
    obtain ⟨n, octet⟩ := quad.octets part member
    exact notOctet n octet
  · intro strict
    have accepted : ∀ v, ipToInt ip = .ok v → ∃ a b c d, DottedQuad ip a b c d ∧
        v = quadValue a b c d ∧ v < 2 ^ 32 ∧ DottedQuad (intToIp v) a b c d := by
      intro v read
      -- Four numbers were read, and each is an octet, for the text is not loose.
      obtain ⟨a, b, c, d, quad⟩ := dottedQuad_of_read read (octets_of_strict strict read)
      have reads := quad.readsAddress read
      have value := reads.ipToInt_eq
      rw [read, Except.ok.injEq] at value
      subst value
      exact ⟨a, b, c, d, quad, rfl, by exact_mod_cast reads.lt, dottedQuad_intToIp quad.small⟩
    refine ⟨accepted, ?_⟩
    intro η table answer answered
    obtain ⟨v, read, found⟩ := bind_eq_ok.mp answered
    obtain ⟨a, b, c, d, quad, rfl, -, printed⟩ := accepted v read
    -- The address printed and read again is the same, so the lookup is the same too.
    have again := (readsAddress_intToIp (quadValue a b c d)).ipToInt_eq
    rw [Nat.mod_eq_of_lt (quad.readsAddress read).lt] at again
    refine ⟨a, b, c, d, quad, ?_⟩
    rw [RoutingTable.lookup, again]
    exact found

/-- A route for `1.2.3.0/24`. -/
def sampleTable : RoutingTable Str := ⟨[⟨16909056, 4294967040, 24, lit "gateway"⟩]⟩

/-- The fourth number is out of range, and its ninth bit falls on one that the third has
    set: the text is routed as `1.2.3.0`. -/
theorem out_of_range_octet_accepted :
    ipToInt (lit "1.2.3.256") = .ok 16909056 ∧ intToIp 16909056 = lit "1.2.3.0" ∧
      RoutingTable.empty.add (lit "1.2.3.0/24") (lit "gateway") = .ok sampleTable ∧
      sampleTable.lookup (lit "1.2.3.256") = .ok (some (lit "gateway")) ∧
      ¬ Faithful (lit "1.2.3.256") := by
  have opened : Subnet.ofCidr (lit "1.2.3.0/24") = .ok ⟨24, 4294967040, 16909056, 16909311⟩ := by
    decide +kernel
  have added : RoutingTable.empty.add (lit "1.2.3.0/24") (lit "gateway") = .ok sampleTable := by
    rw [RoutingTable.add, opened]
    rfl
  refine ⟨by decide +kernel, by decide, added, by decide +kernel, ?_⟩
  intro faithful
  have read : ipToInt (lit "1.2.3.256") = .ok 16909056 := by decide +kernel
  obtain ⟨a, b, c, d, quad, -⟩ := faithful.accepted _ read
  obtain ⟨n, octet⟩ := quad.octets (lit "256") (by decide)
  obtain ⟨-, -, value, small⟩ := octet
  have large : ofDigits 10 ((lit "256").map decimalValue) = 256 := by decide
  omega

end Excalibur.SubnetCalculator
