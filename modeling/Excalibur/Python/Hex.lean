import Excalibur.Python.IntParse

/-! # Numbers as texts

The digits of `str(n)`; `"%X" % n`, the same with zeros in front, and `int(text, 16)`, which
reads both back. -/

namespace Excalibur.Python

theorem digit_range {n : Nat} {c : Char} (member : c ∈ strOfInt n) : 48 ≤ c.toNat ∧ c.toNat ≤ 57 := by
  have isDigit : c.isDigit = true := isDigit_of_mem_toDigits member
  simpa [Char.isDigit, UInt32.le_iff_toNat_le] using isDigit

/-- `"%X" % n` -/
def upperHex (n : Nat) : Str := (Nat.toDigits 16 n).map Char.toUpper

/-- `"%0*X" % (width, n)` -/
def paddedHex (width n : Nat) : Str :=
  List.replicate (width - (upperHex n).length) '0' ++ upperHex n

def intOfHexStr (text : Str) : Except PyError Int :=
  match parseInt 16 (text.map toAsciiDigit) with
  | some n => .ok n
  | none => .error .valueError

theorem digitIn_toUpper {d : Nat} (small : d < 16) :
    digitIn 16 (Nat.digitChar d).toUpper = some d := by
  have all : ∀ d < 16, digitIn 16 (Nat.digitChar d).toUpper = some d := by decide
  exact all d small

theorem upperHex_ne_nil (n : Nat) : upperHex n ≠ [] := by
  simp [upperHex, Nat.toDigits_ne_nil]

/-- The digits of a number spell it. -/
theorem upperHex_spells (n : Nat) :
    ∃ digits, (upperHex n).map (digitIn 16) = digits.map some ∧ ofDigits 16 digits = n := by
  -- Along the digits, from the last one.
  induction n using Nat.strong_induction_on with
  | h n ih =>
    by_cases small : n < 16
    · have single : upperHex n = [(Nat.digitChar n).toUpper] := by
        rw [upperHex, Nat.toDigits_of_lt_base small]
        rfl
      exact ⟨[n], by rw [single, List.map_singleton, digitIn_toUpper small]; rfl, by simp [ofDigits]⟩
    · have split : upperHex n = upperHex (n / 16) ++ [(Nat.digitChar (n % 16)).toUpper] := by
        rw [upperHex, Nat.toDigits_of_base_le (by decide) (by omega)]
        simp [upperHex]
      obtain ⟨digits, spelled, value⟩ := ih (n / 16) (by omega)
      refine ⟨digits ++ [n % 16], ?_, ?_⟩
      · rw [split, List.map_append, spelled, List.map_singleton,
          digitIn_toUpper (Nat.mod_lt n (by decide)), List.map_append, List.map_singleton]
      · rw [ofDigits] at value
        rw [ofDigits, List.foldl_append, value, List.foldl_cons, List.foldl_nil]
        omega

theorem ofDigits_zeros (base count : Nat) (digits : List Nat) :
    ofDigits base (List.replicate count 0 ++ digits) = ofDigits base digits := by
  induction count with
  | zero => rfl
  | succ count ih =>
    rw [List.replicate_succ, List.cons_append, ofDigits, List.foldl_cons, Nat.zero_mul]
    exact ih

theorem paddedHex_spells (width n : Nat) :
    ∃ digits, (paddedHex width n).map (digitIn 16) = digits.map some ∧ ofDigits 16 digits = n := by
  obtain ⟨digits, spelled, value⟩ := upperHex_spells n
  have zero : digitIn 16 '0' = some 0 := by decide
  refine ⟨List.replicate (width - (upperHex n).length) 0 ++ digits, ?_, ?_⟩
  · rw [paddedHex, List.map_append, spelled, List.map_replicate, zero, List.map_append,
      List.map_replicate]
  · rw [ofDigits_zeros, value]

theorem range_of_spells {text : Str} {digits : List Nat}
    (spelled : text.map (digitIn 16) = digits.map some) {c : Char} (member : c ∈ text) :
    (48 ≤ c.toNat ∧ c.toNat ≤ 57) ∨ (65 ≤ c.toNat ∧ c.toNat ≤ 90) ∨
      (97 ≤ c.toNat ∧ c.toNat ≤ 122) := by
  have listed : digitIn 16 c ∈ digits.map some := by
    rw [← spelled]
    exact List.mem_map_of_mem member
  obtain ⟨d, -, same⟩ := List.mem_map.mp listed
  exact digitIn_range (by rw [← same, Option.isSome_some])

theorem intOfHexStr_paddedHex (width n : Nat) : intOfHexStr (paddedHex width n) = .ok (n : Int) := by
  obtain ⟨digits, spelled, value⟩ := paddedHex_spells width n
  have nonempty : paddedHex width n ≠ [] := by simp [paddedHex, upperHex_ne_nil]
  have plain : (paddedHex width n).map toAsciiDigit = paddedHex width n := by
    refine (List.map_congr_left fun c member => ?_).trans (List.map_id _)
    have range := range_of_spells spelled member
    rw [toAsciiDigit, if_pos (by omega), id]
  rw [intOfHexStr, plain, parseInt_of_digits nonempty spelled, digitsAllowed, beq_self_eq_true,
    Bool.true_or, if_pos rfl, value]

end Excalibur.Python
