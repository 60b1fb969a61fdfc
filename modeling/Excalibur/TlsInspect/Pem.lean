import Excalibur.Library.Base64
import Excalibur.TlsInspect.Certificate
import Excalibur.TlsInspect.KeySize
import Excalibur.TlsInspect.PrivateKey

/-! # Credential files

`_pem`, `write_temp_credentials` and a reader of textual encodings.  The reader works on the
lines of a file and returns those after the block, so that a file may hold several.
-/

namespace Excalibur.TlsInspect

open Excalibur.Library Excalibur.Python

/-! ## The writer -/

/-- `base64.encodebytes`: 57 bytes a line, and a line feed after each line. -/
def encodebytes (s : Bytes) : Str :=
  (List.range ((s.length + 56) / 57)).flatMap fun i =>
    Base64.encode (slice s (57 * i) 57) ++ ['\n']

def boundary (edge label : Str) : Str := lit "-----" ++ edge ++ label ++ lit "-----"

def pem (derBytes : Bytes) (label : Str) : Str :=
  let b64 := stripBy isSpace (encodebytes derBytes)
  boundary (lit "BEGIN ") label ++ ['\n'] ++ b64 ++ ['\n'] ++ boundary (lit "END ") label ++ ['\n']

/-- `write_temp_credentials` with the size of the key as an argument, which is 2048 there.
    The result are the contents of `cert.pem` and `key.pem`. -/
def writeTempCredentials (sha256 : Bytes → Bytes) (bits : Nat)
    (turns : List (List Draw × List Draw)) (randbits : Nat) (earlier later : ℚ) :
    Except PyError (Option (Str × Str)) := do
  match ← generateRsa bits turns with
  | none => return none
  | some key =>
    let certDer ← makeSelfSignedCert sha256 key (lit "localhost") (lit "Example Enterprise") 3650
      randbits earlier later
    return some (pem certDer (lit "CERTIFICATE"), pem (← pkcs8PrivateKey key) (lit "PRIVATE KEY"))

/-! ## The reader -/

/-- The bytes of the block that the first line opens, and the lines after the block. -/
def readPem (label : Str) : List Str → Option (Bytes × List Str)
  | [] => none
  | first :: lines =>
    if first = boundary (lit "BEGIN ") label then
      match lines.span (· ≠ boundary (lit "END ") label) with
      | (_, []) => none
      | (body, _ :: rest) => (Base64.decode body.flatten).map (·, rest)
    else none

/-! ## Lines of base64 -/

theorem encodebytes_cons {s : Bytes} (nonempty : s ≠ []) :
    encodebytes s = Base64.encode (s.take 57) ++ '\n' :: encodebytes (s.drop 57) := by
  have positive := List.length_pos_iff.mpr nonempty
  have count : (s.length + 56) / 57 = ((s.drop 57).length + 56) / 57 + 1 := by
    rw [List.length_drop]
    omega
  rw [encodebytes, count, List.range_succ_eq_map, List.flatMap_cons, List.flatMap_map, encodebytes]
  simp only [slice, Nat.mul_zero, List.drop_zero, List.drop_drop, List.append_assoc,
    List.cons_append, List.nil_append]
  congr 4
  funext i
  rw [Nat.mul_succ, Nat.add_comm]

/-- The encoding is cut into lines of code characters, and no bit of it is lost. -/
theorem encodebytes_lines (s : Bytes) : ∃ lines : List Str,
    encodebytes s = lines.flatMap (· ++ ['\n']) ∧ lines.flatten = Base64.encode s ∧
    (∀ line ∈ lines, line ≠ [] ∧ line.all Base64.isCode) := by
  by_cases empty : s = []
  · subst empty
    exact ⟨[], rfl, rfl, by simp⟩
  · have shorter : (s.drop 57).length < s.length := by
      have := List.length_pos_iff.mpr empty
      rw [List.length_drop]
      omega
    obtain ⟨lines, cut, whole, code⟩ := encodebytes_lines (s.drop 57)
    refine ⟨Base64.encode (s.take 57) :: lines, ?_, ?_, ?_⟩
    · rw [encodebytes_cons empty, cut, List.flatMap_cons, List.append_assoc]
      rfl
    · rw [List.flatten_cons, whole]
      by_cases long : 57 ≤ s.length
      · have triples : 3 ∣ (s.take 57).length := by
          rw [List.length_take, min_eq_left long]
          decide
        rw [← Base64.encode_append triples, List.take_append_drop]
      -- The last line may be short, and nothing follows it.
      · have noRest : s.drop 57 = [] := List.drop_eq_nil_of_le (by omega)
        rw [noRest, List.take_of_length_le (by omega)]
        simp [Base64.encode]
    · intro line member
      rcases List.mem_cons.mp member with rfl | later
      · refine ⟨?_, List.all_eq_true.mpr fun c => Base64.isCode_of_mem_encode⟩
        obtain ⟨first, rest, cons⟩ := List.exists_cons_of_ne_nil empty
        rw [cons]
        rcases rest with _ | ⟨second, _ | ⟨third, rest⟩⟩ <;> simp [Base64.encode]
      · exact code line later
termination_by s.length

theorem isSpace_of_isCode {c : Char} (code : Base64.isCode c = true) : isSpace c = false := by
  have range : 43 ≤ c.toNat ∧ c.toNat < 123 := by
    unfold Base64.isCode Base64.value at code
    split at code
    · omega
    · split at code
      · omega
      · split at code
        · omega
        · split at code
          · rename_i plus
            rw [plus]
            decide
          · split at code
            · rename_i slash
              rw [slash]
              decide
            · have pad : c = '=' := by simpa using code
              rw [pad]
              decide
  unfold isSpace
  simp
  omega

/-- Only the last line feed is stripped off. -/
theorem strip_lines {lines : List Str} (nonempty : lines ≠ [])
    (code : ∀ line ∈ lines, line ≠ [] ∧ line.all Base64.isCode) :
    stripBy isSpace (lines.flatMap (· ++ ['\n'])) ++ ['\n'] = lines.flatMap (· ++ ['\n']) := by
  obtain ⟨front, last, rfl⟩ := (List.eq_nil_or_concat' lines).resolve_left nonempty
  have kept : ∀ line ∈ front ++ [last], ∀ c ∈ line, isSpace c = false := by
    intro line member c inside
    exact isSpace_of_isCode (List.all_eq_true.mp (code line member).2 c inside)
  have lastNonempty := (code last (by simp)).1
  have text : (front ++ [last]).flatMap (· ++ ['\n']) =
      (front.flatMap (· ++ ['\n']) ++ last) ++ ['\n'] := by
    simp
  rw [text, stripBy_append (by simp [lastNonempty]) ?_ ?_ (by simp [isSpace])]
  · intro c head
    cases front with
    | nil =>
      rw [List.flatMap_nil, List.nil_append] at head
      exact kept last (by simp) c (List.mem_of_mem_head? head)
    | cons first front =>
      obtain ⟨d, rest, cons⟩ := List.exists_cons_of_ne_nil (code first (by simp)).1
      rw [List.flatMap_cons, cons] at head
      obtain rfl : d = c := by simpa using head
      exact kept first (by simp) d (by simp [cons])
  · intro c tail
    rw [List.getLast?_append_of_ne_nil _ lastNonempty] at tail
    exact kept last (by simp) c (List.mem_of_mem_getLast? tail)

/-- What stands between the boundaries: lines without a dash that join to the encoding. -/
theorem body_lines (s : Bytes) : ∃ lines : List Str,
    stripBy isSpace (encodebytes s) ++ ['\n'] = lines.flatMap (· ++ ['\n']) ∧
    lines.flatten = Base64.encode s ∧ ∀ line ∈ lines, '\n' ∉ line ∧ '-' ∉ line := by
  obtain ⟨lines, cut, whole, code⟩ := encodebytes_lines s
  have plain : ∀ line ∈ lines, '\n' ∉ line ∧ '-' ∉ line := by
    intro line member
    have all := List.all_eq_true.mp (code line member).2
    exact ⟨fun inside => absurd (all _ inside) (by decide),
      fun inside => absurd (all _ inside) (by decide)⟩
  by_cases empty : lines = []
  -- No bytes leave an empty line.
  · subst empty
    exact ⟨[[]], by rw [cut]; rfl, whole, by simp⟩
  · exact ⟨lines, by rw [cut, strip_lines empty code], whole, plain⟩

theorem splitOn_lines {lines : List Str} (plain : ∀ line ∈ lines, '\n' ∉ line) (rest : Str) :
    (lines.flatMap (· ++ ['\n']) ++ rest).splitOn '\n' = lines ++ rest.splitOn '\n' := by
  induction lines with
  | nil => rfl
  | cons line lines ih =>
    have first := plain line List.mem_cons_self
    rw [List.flatMap_cons, List.append_assoc, List.append_assoc, List.singleton_append,
      List.splitOn_append_cons_self_of_not_mem first,
      ih fun other member => plain other (List.mem_cons_of_mem _ member)]
    rfl

/-! ## Blocks -/

theorem not_mem_boundary {edge label : Str} (oneEdge : '\n' ∉ edge) (oneLabel : '\n' ∉ label) :
    '\n' ∉ boundary edge label := by
  have dashes : '\n' ∉ lit "-----" := by decide
  simp [boundary, oneEdge, oneLabel, dashes]

theorem dash_mem_boundary (edge label : Str) : '-' ∈ boundary edge label := by
  have dash : '-' ∈ lit "-----" := by decide
  simp [boundary, dash]

/-- A block of any bytes is read as these bytes, whatever follows it. -/
theorem readPem_pem {label : Str} (oneLine : '\n' ∉ label) (derBytes : Bytes) (trailing : Str) :
    readPem label ((pem derBytes label ++ trailing).splitOn '\n') =
      some (derBytes, trailing.splitOn '\n') := by
  obtain ⟨lines, body, whole, plain⟩ := body_lines derBytes
  have text : pem derBytes label ++ trailing =
      ([boundary (lit "BEGIN ") label] ++ lines ++ [boundary (lit "END ") label]).flatMap
        (· ++ ['\n']) ++ trailing := by
    simp only [pem, List.flatMap_append, ← body, List.flatMap_singleton, List.append_assoc]
  have oneEach : ∀ line ∈ [boundary (lit "BEGIN ") label] ++ lines ++
      [boundary (lit "END ") label], '\n' ∉ line := by
    intro line member
    simp only [List.mem_append, List.mem_singleton] at member
    rcases member with (rfl | member) | rfl
    · exact not_mem_boundary (by decide) oneLine
    · exact (plain line member).1
    · exact not_mem_boundary (by decide) oneLine
  have inner : ∀ line ∈ lines, decide (line ≠ boundary (lit "END ") label) = true := by
    intro line member
    refine decide_eq_true fun same => (plain line member).2 ?_
    rw [same]
    exact dash_mem_boundary _ _
  have span : (lines ++ boundary (lit "END ") label :: trailing.splitOn '\n').span
      (· ≠ boundary (lit "END ") label) =
      (lines, boundary (lit "END ") label :: trailing.splitOn '\n') := by
    rw [List.span_eq_takeWhile_dropWhile, List.takeWhile_append_of_pos inner,
      List.dropWhile_append_of_pos inner]
    simp
  have form : [boundary (lit "BEGIN ") label] ++ lines ++ [boundary (lit "END ") label] ++
      trailing.splitOn '\n' = boundary (lit "BEGIN ") label ::
        (lines ++ boundary (lit "END ") label :: trailing.splitOn '\n') := by
    simp
  rw [text, splitOn_lines oneEach, form, readPem, if_pos rfl, span]
  simp only [whole, Base64.decode_encode, Option.map_some]

/-! ## Keys from primes -/

theorem modInverse_lt {a modulus inverse : Nat} (found : modInverse a modulus = .ok inverse) :
    inverse < modulus := by
  unfold modInverse at found
  split at found
  · rename_i invertible
    cases found
    have below := Int.emod_lt_of_pos (a.gcdA modulus) (by omega : (0 : Int) < modulus)
    have nonnegative := Int.emod_nonneg (a.gcdA modulus) (by omega : (modulus : Int) ≠ 0)
    omega
  · cases found

/-- No number of a key but the public exponent is larger than the modulus. -/
theorem numbers_of_keyOf {p q : Nat} {k : RsaKey} (made : keyOf p q = .ok (some k)) :
    ∀ x ∈ k.numbers, x = 65537 ∨ x ≤ p * q := by
  unfold keyOf at made
  by_cases same : p = q
  · rw [if_pos same] at made
    cases made
  rw [if_neg same] at made
  by_cases divisible : (p - 1) * (q - 1) % 65537 = 0
  · rw [if_pos divisible] at made
    cases made
  rw [if_neg divisible] at made
  obtain ⟨d, dFound, rest⟩ := bind_eq_ok.mp made
  obtain ⟨qinv, qinvFound, returned⟩ := bind_eq_ok.mp rest
  cases returned
  have dSmall := modInverse_lt dFound
  have qinvSmall := modInverse_lt qinvFound
  have pPositive : 0 < p - 1 := Nat.pos_of_mul_pos_right (Nat.zero_lt_of_lt dSmall)
  have qPositive : 0 < q - 1 := Nat.pos_of_mul_pos_left (Nat.zero_lt_of_lt dSmall)
  have phi : (p - 1) * (q - 1) ≤ p * q := Nat.mul_le_mul (Nat.sub_le _ _) (Nat.sub_le _ _)
  have pWithin : p ≤ p * q := Nat.le_mul_of_pos_right p (by omega)
  have qWithin : q ≤ p * q := Nat.le_mul_of_pos_left q (by omega)
  have dp := Nat.mod_lt d pPositive
  have dq := Nat.mod_lt d qPositive
  intro x member
  simp only [RsaKey.numbers, List.mem_cons, List.not_mem_nil, or_false] at member
  omega

/-- A key of drawn primes is valid, and its numbers have at most the size asked for. -/
theorem generateRsa_valid {bits : Nat} {turns : List (List Draw × List Draw)} {k : RsaKey}
    (primes : DrawsPrimes bits turns) (made : generateRsa bits turns = .ok (some k)) :
    k.Valid ∧ k.e = 65537 ∧ (2 ^ (bits / 2 - 1) ≤ k.p ∧ 2 ^ (bits / 2 - 1) ≤ k.q) ∧
      ∀ x ∈ k.numbers, x = 65537 ∨ x < 2 ^ bits := by
  induction turns with
  | nil => cases made
  | cons turn turns ih =>
    obtain ⟨forP, forQ⟩ := turn
    have later : DrawsPrimes bits turns :=
      fun other member => primes other (List.mem_cons_of_mem _ member)
    obtain ⟨p, drewP, made⟩ := bind_eq_ok.mp made
    obtain ⟨q, drewQ, made⟩ := bind_eq_ok.mp made
    cases p with
    | none => cases made
    | some p =>
      cases q with
      | none => cases made
      | some q =>
        obtain ⟨outcome, built, rest⟩ := bind_eq_ok.mp made
        rcases keyOf_cases built with ⟨rfl, -⟩ | ⟨key, rfl, -, accepted⟩
        · exact ih later rest
        · cases rest
          rw [not_or] at accepted
          have pPrime := primes (forP, forQ) List.mem_cons_self p (.inl drewP)
          have qPrime := primes (forP, forQ) List.mem_cons_self q (.inr drewQ)
          obtain ⟨made, found, rfl, rfl, e, valid⟩ := key_of_primes pPrime qPrime
            ⟨genPrime_odd drewP, genPrime_odd drewQ⟩ accepted.1 accepted.2
          cases built.symm.trans found
          have rangeP := genPrime_range drewP
          have rangeQ := genPrime_range drewQ
          refine ⟨valid, e, ⟨rangeP.2.1, rangeQ.2.1⟩, fun x member => ?_⟩
          rcases numbers_of_keyOf found x member with exponent | small
          · exact .inl exponent
          · right
            calc x ≤ k.p * k.q := small
              _ < 2 ^ (bits / 2) * 2 ^ (bits / 2) := Nat.mul_lt_mul'' rangeP.2.2 rangeQ.2.2
              _ = 2 ^ (bits / 2 + bits / 2) := (pow_add _ _ _).symm
              _ ≤ 2 ^ bits := Nat.pow_le_pow_right (by decide) (by omega)

/-- The reader takes the encoded key apart if its numbers are small enough. -/
theorem encodes_pkcs8 {k : RsaKey} {bound : Nat} (small : ∀ x ∈ k.numbers, intSize x ≤ bound)
    (short : bound < 256 ^ 120) :
    ∃ encoded, pkcs8PrivateKey k = .ok encoded ∧
      Der.Reads readPrivateKeyInfo encoded (k.numbers.map Nat.cast) := by
  have each : ∀ size ∈ k.numbers.map intSize, size ≤ bound := by simpa using small
  have sum : (k.numbers.map intSize).sum ≤ 8 * bound := List.sum_le_card_nsmul _ _ each
  obtain ⟨zero, isZero, zeroSize, readsZero⟩ := encodes_zero
  obtain ⟨algorithm, isAlgorithm, algorithmSize, readsAlgorithm⟩ := encodes_algorithm
  obtain ⟨rsaPriv, isPriv, privSize, readsPriv⟩ := encodes_rsaPriv (k := k) (by omega)
  have priv := tlvSize_le (by omega : 3 + (k.numbers.map intSize).sum < 256 ^ 126)
  obtain ⟨octets, isOctets, octetsSize, readsOctets⟩ := encodes_within 0x04 (by omega) readsPriv
  have wrapped := tlvSize_le (by omega : rsaPriv.length < 256 ^ 126)
  have length : [zero, algorithm, octets].flatten.length < 256 ^ 126 := by
    simp only [List.flatten_cons, List.flatten_nil, List.length_append, List.length_nil]
    omega
  have contents : Der.Reads (do
      guard ((← Der.integer) = 0)
      Der.sequence do
        guard ((← Der.objectIdentifier) = [1, 2, 840, 113549, 1, 1, 1])
        Der.null
      Der.octetString readRsaPrivateKey) [zero, algorithm, octets].flatten
      (k.numbers.map Nat.cast) := by
    simp only [List.flatten_cons, List.flatten_nil, List.append_nil]
    exact readsZero.bind (Der.Reads.guarded rfl (readsAlgorithm.bind readsOctets))
  obtain ⟨encoded, done, -, reads⟩ := encodes_within 0x30 length contents
  refine ⟨encoded, ?_, reads⟩
  rw [pkcs8PrivateKey_eq]
  refine bind_eq_ok.mpr ⟨rsaPriv, isPriv, bind_eq_ok.mpr ⟨zero, isZero, ?_⟩⟩
  exact bind_eq_ok.mpr ⟨algorithm, isAlgorithm, bind_eq_ok.mpr ⟨octets, isOctets, done⟩⟩

theorem intSize_le {x bits : Nat} (size : 17 ≤ bits) (small : bits < 256 ^ 120)
    (fits : x = 65537 ∨ x < 2 ^ bits) : intSize x ≤ bits + 129 := by
  have length : bitLength x ≤ bits := by
    rcases fits with rfl | fits
    · have exponent : bitLength 65537 ≤ 17 := by decide
      omega
    · exact bitLength_le_of_lt fits
  have least := tlvSize_le (by omega : bitLength x / 8 + 1 < 256 ^ 126)
  rw [intSize]
  omega

/-- Two primes of half the size give a modulus that is hardly shorter than the whole. -/
theorem byteLength_of_primes {bits width p q : Nat} (size : 8 * width + 3 ≤ bits)
    (pLarge : 2 ^ (bits / 2 - 1) ≤ p) (qLarge : 2 ^ (bits / 2 - 1) ≤ q) :
    width < byteLength (p * q) := by
  by_contra short
  have large : 256 ^ width ≤ p * q := by
    calc 256 ^ width = 2 ^ (8 * width) := (two_pow_eight_mul width).symm
      _ ≤ 2 ^ (bits / 2 - 1 + (bits / 2 - 1)) := Nat.pow_le_pow_right (by decide) (by omega)
      _ = 2 ^ (bits / 2 - 1) * 2 ^ (bits / 2 - 1) := pow_add _ _ _
      _ ≤ p * q := Nat.mul_le_mul pLarge qLarge
  have fits := lt_of_byteLength (p * q)
  have few : 256 ^ byteLength (p * q) ≤ 256 ^ width :=
    Nat.pow_le_pow_right (by decide) (by omega)
  omega

end Excalibur.TlsInspect
