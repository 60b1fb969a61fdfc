import Excalibur.Python.IntBytes

/-! # RSA keys

`_is_prime`, `_gen_prime` and `generate_rsa`, with the outcomes of the random draws as
arguments.  The two loops are cut off where their draws end; `none` says that they were
still going.

`RsaKey.Valid` relates the numbers of a key, and `key_of_primes` says that a pair of
primes that passes the tests always gives a valid one.
-/

namespace Excalibur.TlsInspect

open Excalibur.Library Excalibur.Python

/-! ## Primes -/

/-- `d` and `r` with `n - 1 = d * 2 ** r`, from `n - 1` and 0. -/
def oddPart (d r : Nat) : Nat × Nat :=
  if d ≠ 0 ∧ d % 2 = 0 then oddPart (d / 2) (r + 1) else (d, r)

/-- The inner loop of a round: one of the next squares is `n - 1`. -/
def squaresToMinusOne (n : Nat) : Nat → Nat → Bool
  | 0, _ => false
  | count + 1, x =>
    let square := powMod x 2 n
    square == n - 1 || squaresToMinusOne n count square

def smallPrimes : List Nat := [2, 3, 5, 7, 11, 13, 17, 19, 23, 29, 31, 37]

/-- `randbelow` says what is drawn in each round. -/
def isPrime (n rounds : Nat) (randbelow : Nat → Nat) : Bool :=
  if n < 2 then false
  else
    match smallPrimes.find? fun p => n % p == 0 with
    | some p => n == p
    | none =>
      let split := oddPart (n - 1) 0
      (List.range rounds).all fun i =>
        let a := randbelow i % (n - 3) + 2
        let x := powMod a split.1 n
        x == 1 || x == n - 1 || squaresToMinusOne n (split.2 - 1) x

/-- What one turn of `_gen_prime` draws. -/
structure Draw where
  randbits : Nat
  randbelow : Nat → Nat

def candidate (bits randbits : Nat) : Except PyError Nat :=
  -- A shift by -1 raises.
  if bits = 0 then .error .valueError
  else .ok (randbits % 2 ^ bits ||| 1 <<< (bits - 1) ||| 1)

def genPrime (bits : Nat) : List Draw → Except PyError (Option Nat)
  | [] => .ok none
  | draw :: draws => do
    let cand ← candidate bits draw.randbits
    if isPrime cand 20 draw.randbelow then return some cand else genPrime bits draws

theorem candidate_odd {bits randbits cand : Nat} (drawn : candidate bits randbits = .ok cand) :
    cand % 2 = 1 := by
  unfold candidate at drawn
  split at drawn
  · cases drawn
  · cases drawn
    simp

theorem genPrime_odd {bits p : Nat} {draws : List Draw} (drew : genPrime bits draws = .ok (some p)) :
    p % 2 = 1 := by
  induction draws with
  | nil => cases drew
  | cons draw draws ih =>
    obtain ⟨cand, drawn, rest⟩ := bind_eq_ok.mp drew
    split at rest
    · cases rest
      exact candidate_odd drawn
    · exact ih rest

/-! ## Keys -/

structure RsaKey where
  n : Nat
  e : Nat
  d : Nat
  p : Nat
  q : Nat
  dp : Nat
  dq : Nat
  qinv : Nat
  deriving Repr, DecidableEq

/-- One turn of the loop of `generate_rsa`; `none` is `continue`. -/
def keyOf (p q : Nat) : Except PyError (Option RsaKey) :=
  let e := 65537
  let phi := (p - 1) * (q - 1)
  if p = q then .ok none
  else if phi % e = 0 then .ok none
  else do
    let d ← modInverse e phi
    let qinv ← modInverse q p
    return some ⟨p * q, e, d, p, q, d % (p - 1), d % (q - 1), qinv⟩

def generateRsa (bits : Nat) : List (List Draw × List Draw) → Except PyError (Option RsaKey)
  | [] => .ok none
  | (forP, forQ) :: turns => do
    match ← genPrime (bits / 2) forP, ← genPrime (bits / 2) forQ with
    | some p, some q =>
      match ← keyOf p q with
      | some k => return some k
      | none => generateRsa bits turns
    | _, _ => return none

/-- The relations between the numbers of a key. -/
structure RsaKey.Valid (k : RsaKey) : Prop where
  pPrime : k.p.Prime
  qPrime : k.q.Prime
  distinct : k.p ≠ k.q
  odd : k.p % 2 = 1 ∧ k.q % 2 = 1
  modulus : k.n = k.p * k.q
  inverse : k.e * k.d ≡ 1 [MOD (k.p - 1) * (k.q - 1)]
  reduced : k.dp = k.d % (k.p - 1) ∧ k.dq = k.d % (k.q - 1)
  qInverse : k.q * k.qinv ≡ 1 [MOD k.p]

namespace RsaKey.Valid

variable {k : RsaKey}

theorem phi_large (valid : k.Valid) : 1 < k.p - 1 ∧ 1 < k.q - 1 := by
  have pTwo := valid.pPrime.two_le
  have qTwo := valid.qPrime.two_le
  have odd := valid.odd
  omega

theorem exponents_ne_zero (valid : k.Valid) : k.e * k.d ≠ 0 := by
  intro zero
  have inverse := valid.inverse.of_mul_right (k.q - 1)
  rw [zero] at inverse
  have divides : k.p - 1 ∣ 1 := Nat.modEq_zero_iff_dvd.mp inverse.symm
  rw [Nat.dvd_one] at divides
  have large := valid.phi_large
  omega

/-- The public exponent undoes the private one. -/
theorem pow_pow (valid : k.Valid) {m : Nat} (below : m < k.n) : (m ^ k.d % k.n) ^ k.e % k.n = m := by
  have undone := pow_mul_modEq valid.pPrime valid.qPrime valid.distinct valid.inverse
    valid.exponents_ne_zero m
  rw [← valid.modulus] at undone
  calc (m ^ k.d % k.n) ^ k.e % k.n
    _ = m ^ (k.e * k.d) % k.n := by rw [← Nat.pow_mod, ← pow_mul, Nat.mul_comm]
    _ = m % k.n := undone
    _ = m := Nat.mod_eq_of_lt below

/-- The four numbers for the Chinese remainder theorem agree with `d`. -/
theorem pow_eq_recombine (valid : k.Valid) (m : Nat) :
    ((m ^ k.d % k.n : Nat) : Int) =
      recombine k.p k.q k.qinv (m ^ k.dp % k.p : Nat) (m ^ k.dq % k.q : Nat) := by
  have large := valid.phi_large
  have dPositive : k.d ≠ 0 := right_ne_zero_of_mul valid.exponents_ne_zero
  have dpPositive := mod_ne_zero_of_inverse (valid.inverse.of_mul_right _) large.1
  have dqPositive := mod_ne_zero_of_inverse (valid.inverse.of_mul_left _) large.2
  have modP : m ^ k.dp % k.p = m ^ k.d % k.n % k.p := by
    rw [valid.modulus, Nat.mod_mul_right_mod, valid.reduced.1]
    exact pow_modEq_of_modEq valid.pPrime (Nat.mod_modEq _ _) dpPositive dPositive m
  have modQ : m ^ k.dq % k.q = m ^ k.d % k.n % k.q := by
    rw [valid.modulus, Nat.mod_mul_left_mod, valid.reduced.2]
    exact pow_modEq_of_modEq valid.qPrime (Nat.mod_modEq _ _) dqPositive dPositive m
  have coprime := (Nat.coprime_primes valid.pPrime valid.qPrime).mpr valid.distinct
  have positive : 0 < k.n := by
    rw [valid.modulus]
    exact Nat.mul_pos valid.pPrime.pos valid.qPrime.pos
  have below := Nat.mod_lt (m ^ k.d) positive
  rw [modP, modQ, recombine_eq coprime valid.qInverse (below.trans_eq valid.modulus)]

end RsaKey.Valid

/-- Both inverses exist, so a pair that passes the tests gives a key. -/
theorem key_of_primes {p q : Nat} (pPrime : p.Prime) (qPrime : q.Prime) (odd : p % 2 = 1 ∧ q % 2 = 1)
    (distinct : p ≠ q) (passes : (p - 1) * (q - 1) % 65537 ≠ 0) :
    ∃ k, keyOf p q = .ok (some k) ∧ k.p = p ∧ k.q = q ∧ k.e = 65537 ∧ k.Valid := by
  have ePrime : Nat.Prime 65537 := by norm_num
  have coprime : Nat.Coprime 65537 ((p - 1) * (q - 1)) := by
    rw [ePrime.coprime_iff_not_dvd]
    exact fun divides => passes (Nat.mod_eq_zero_of_dvd divides)
  have phiPositive : 0 < (p - 1) * (q - 1) := by
    have := pPrime.two_le
    have := qPrime.two_le
    exact Nat.mul_pos (by omega) (by omega)
  obtain ⟨d, dFound, -, inverse⟩ := modInverse_of_coprime coprime phiPositive
  obtain ⟨qinv, qinvFound, -, qInverse⟩ :=
    modInverse_of_coprime ((Nat.coprime_primes qPrime pPrime).mpr distinct.symm) pPrime.pos
  refine ⟨⟨p * q, 65537, d, p, q, d % (p - 1), d % (q - 1), qinv⟩, ?_, rfl, rfl, rfl, ?_⟩
  · simp only [keyOf, if_neg distinct, if_neg passes, dFound, qinvFound]
    rfl
  · exact ⟨pPrime, qPrime, distinct, odd, rfl, inverse, ⟨rfl, rfl⟩, qInverse⟩

theorem generateRsa_of_key {bits p q : Nat} {forP forQ : List Draw} {k : RsaKey}
    (drewP : genPrime (bits / 2) forP = .ok (some p))
    (drewQ : genPrime (bits / 2) forQ = .ok (some q)) (key : keyOf p q = .ok (some k))
    (turns : List (List Draw × List Draw)) :
    generateRsa bits ((forP, forQ) :: turns) = .ok (some k) := by
  simp only [generateRsa, drewP, drewQ, key, bind, Except.bind]
  rfl

end Excalibur.TlsInspect
