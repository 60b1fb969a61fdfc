import Excalibur.TlsInspect.Signing
import Excalibur.TlsInspect.Validity

/-! # Self-signed certificates

`make_self_signed_cert` and a reader of version 3 certificates that signed themselves: the
issuer is the subject, and the signature verifies under the key that the certificate holds.
What is signed are the bytes that the reader took for the certificate's contents.
-/

namespace Excalibur.TlsInspect

open Excalibur.Library Excalibur.Python

/-! ## The generator -/

def bitstr (b : Bytes) : Except PyError Bytes := der 0x03 (0x00 :: b)

def utf8 (s : Str) : Except PyError Bytes := der 0x0C (encodeUtf8 s).data.toList

def oidSha256Rsa : Str := lit "1.2.840.113549.1.1.11"

def oidCn : Str := lit "2.5.4.3"

def oidO : Str := lit "2.5.4.10"

def oidSan : Str := lit "2.5.29.17"

def spki (k : RsaKey) : Except PyError Bytes := do
  let pubkey ← seq [← derInt k.n, ← derInt k.e]
  seq [← seq [← oid oidRsa, null], ← bitstr pubkey]

def name (cn o : Str) : Except PyError Bytes := do
  seq [← set [← seq [← oid oidCn, ← utf8 cn]], ← set [← seq [← oid oidO, ← utf8 o]]]

/-- The `subjectAltName`: `dNSName` is [2], `iPAddress` is [7]. -/
def san : Except PyError Bytes := do
  der 0x30 ((← der 0x82 (bytesLit "localhost")) ++ (← der 0x87 [127, 0, 0, 1]))

/-- What `make_self_signed_cert` signs.  `randbits` is what is drawn for the serial number;
    `earlier` and `later` are what the two calls of `time.time` return. -/
def tbsCertificate (k : RsaKey) (cn org : Str) (days : ℚ) (randbits : Nat) (earlier later : ℚ) :
    Except PyError Bytes := do
  let serial := randbits % 2 ^ 64 ||| 1
  let notBefore := strftime (gmtime (earlier - 60))
  let notAfter := strftime (gmtime (later + days * 86400))
  let sigAlg ← seq [← oid oidSha256Rsa, null]
  let extensions ← der 0xA3 (← seq [← seq [← oid oidSan, ← der 0x04 (← san)]])
  seq [← der 0xA0 (← derInt 2), ← derInt serial, sigAlg, ← name cn org,
    ← seq [← utctime notBefore, ← utctime notAfter], ← name cn org, ← spki k, extensions]

def makeSelfSignedCert (sha256 : Bytes → Bytes) (k : RsaKey) (cn org : Str) (days : ℚ)
    (randbits : Nat) (earlier later : ℚ) : Except PyError Bytes := do
  let sigAlg ← seq [← oid oidSha256Rsa, null]
  let tbs ← tbsCertificate k cn org days randbits earlier later
  let signature ← rsaSignSha256 sha256 k tbs
  seq [tbs, sigAlg, ← bitstr signature]

/-! ## The reader -/

structure Attribute where
  type : List Nat
  value : Str
  deriving Repr, DecidableEq

structure Extension where
  id : List Nat
  critical : Bool
  value : Bytes
  deriving Repr, DecidableEq

inductive GeneralName where
  | dns (name : Bytes)
  | ip (address : Bytes)
  deriving Repr, DecidableEq

/-- The contents of a version 3 certificate. -/
structure Contents where
  serial : Int
  algorithm : List Nat
  issuer : List (List Attribute)
  validity : DateTime × DateTime
  subject : List (List Attribute)
  publicKey : Int × Int
  extensions : List Extension

/-- `signed` are the bytes of the contents. -/
structure Certificate where
  contents : Contents
  signed : Bytes
  signature : Bytes

/-- An `AlgorithmIdentifier` whose parameters are NULL. -/
def readAlgorithm : Der.Reader (List Nat) := Der.sequence do
  let id ← Der.objectIdentifier
  Der.null
  return id

def readAttribute : Der.Reader Attribute := Der.sequence do
  let type ← Der.objectIdentifier
  let value ← Der.utf8String
  return ⟨type, value⟩

def readName : Der.Reader (List (List Attribute)) := Der.sequenceOf (Der.setOf readAttribute)

def readRsaPublicKey : Der.Reader (Int × Int) := Der.sequence do
  let n ← Der.integer
  let e ← Der.integer
  return (n, e)

/-- `SubjectPublicKeyInfo` for `rsaEncryption`. -/
def readSpki : Der.Reader (Int × Int) := Der.sequence do
  guard ((← readAlgorithm) = [1, 2, 840, 113549, 1, 1, 1])
  match readRsaPublicKey (← Der.bitString) with
  | some (key, []) => return key
  | _ => failure

/-- Only TRUE is written out. -/
def readCritical : Der.Reader Bool :=
  (do guard ((← Der.element 0x01) = [0xFF]); return true) <|> return false

def readExtension : Der.Reader Extension := Der.sequence do
  let id ← Der.objectIdentifier
  let critical ← readCritical
  let value ← Der.element 0x04
  return ⟨id, critical, value⟩

def readGeneralNames : Der.Reader (List GeneralName) :=
  Der.sequenceOf (.dns <$> Der.element 0x82 <|> .ip <$> Der.element 0x87)

def readContents : Der.Reader Contents := Der.sequence do
  guard ((← Der.within 0xA0 Der.integer) = 2)
  let serial ← Der.integer
  let algorithm ← readAlgorithm
  let issuer ← readName
  let validity ← readValidity
  let subject ← readName
  let publicKey ← readSpki
  let extensions ← Der.within 0xA3 (Der.sequenceOf readExtension)
  return ⟨serial, algorithm, issuer, validity, subject, publicKey, extensions⟩

/-- The algorithm is named twice, and has to be the same. -/
def readCertificate : Der.Reader Certificate := Der.sequence do
  let (signed, contents) ← Der.captured readContents
  guard ((← readAlgorithm) = contents.algorithm)
  let signature ← Der.bitString
  return ⟨contents, signed, signature⟩

/-- The issuer is the subject, and RSASSA-PKCS1-v1_5 with SHA-256 verifies the signature of
    the contents under the certificate's own key. -/
structure Certificate.SelfSigned (sha256 : Bytes → Bytes) (c : Certificate) : Prop where
  sameName : c.contents.issuer = c.contents.subject
  algorithm : c.contents.algorithm = [1, 2, 840, 113549, 1, 1, 11]
  size : c.signature.length = byteLength c.contents.publicKey.1.toNat
  verifies : bigEndian c.signature.length
      (ofBigEndian c.signature ^ c.contents.publicKey.2.toNat % c.contents.publicKey.1.toNat) =
    pkcs1Block c.signature.length (sha256 c.signed)

/-! ## What is read back -/

/-- The encoder returns at most `bound` bytes that are read as `value`. -/
def EncodesUpTo {α : Type} (encoder : Except PyError Bytes) (bound : Nat) (reader : Der.Reader α)
    (value : α) : Prop :=
  ∃ encoded, encoder = .ok encoded ∧ encoded ≠ [] ∧ encoded.length ≤ bound ∧
    Der.Reads reader encoded value

theorem tlvSize_le {contents : Nat} (small : contents < 256 ^ 126) :
    tlvSize contents ≤ contents + 128 := by
  have few := byteLength_le_of_lt small
  unfold tlvSize
  split <;> omega

theorem Encodes.upTo {α : Type} {encoder : Except PyError Bytes} {size bound : Nat}
    {reader : Der.Reader α} {value : α} (encodes : Encodes encoder size reader value)
    (positive : 0 < size) (within : size ≤ bound) : EncodesUpTo encoder bound reader value := by
  obtain ⟨encoded, returned, rfl, reads⟩ := encodes
  exact ⟨encoded, returned, List.length_pos_iff.mp positive, within, reads⟩

theorem encodesUpTo_der (tag : UInt8) {body : Bytes} {bound : Nat} (short : body.length ≤ bound)
    (small : bound < 256 ^ 126) : EncodesUpTo (der tag body) (bound + 128) (Der.element tag) body := by
  have least := tlvSize_le (short.trans_lt small)
  refine (encodes_der tag (short.trans_lt small)).upTo ?_ (by omega)
  unfold tlvSize
  omega

/-- An element whose contents are read to their end. -/
theorem encodesUpTo_within {α : Type} (tag : UInt8) {body : Bytes} {bound : Nat}
    {reader : Der.Reader α} {value : α} (short : body.length ≤ bound) (small : bound < 256 ^ 126)
    (whole : reader body = some (value, [])) :
    EncodesUpTo (der tag body) (bound + 128) (Der.within tag reader) value := by
  obtain ⟨encoded, returned, nonempty, size, reads⟩ := encodesUpTo_der tag short small
  exact ⟨encoded, returned, nonempty, size, Der.reads_within_of_whole reads whole⟩

theorem length_septets_le (p : Nat) : (septets p).length ≤ p := by
  induction p using septets.induct with
  | case1 => simp [septets]
  | case2 p positive ih =>
    rw [septets_of_pos positive, List.length_cons]
    rw [Nat.shiftRight_eq_div_pow] at ih
    norm_num at ih
    omega

theorem length_base128_le (p : Nat) : (base128 p).length ≤ p + 1 := by
  have digits := length_septets_le (p / 128)
  rw [base128_eq, List.length_append, continued, List.length_map, List.length_reverse,
    List.length_singleton]
  omega

theorem length_parts_le (parts : List Nat) :
    (parts.flatMap base128).length ≤ (parts.map (· + 1)).sum := by
  induction parts with
  | nil => rfl
  | cons p parts ih =>
    have first := length_base128_le p
    rw [List.flatMap_cons, List.length_append, List.map_cons, List.sum_cons]
    omega

theorem encodesUpTo_oid {dotted : Str} {first second : Nat} {parts : List Nat} {bound : Nat}
    (text : (dotted.splitOn '.').mapM intOfStr =
      .ok ((first : Int) :: (second : Int) :: parts.map Nat.cast))
    (valid : first < 2 ∧ second < 40 ∨ first = 2 ∧ second < 48)
    (short : (parts.map (· + 1)).sum + 1 ≤ bound) (small : bound < 256 ^ 126) :
    EncodesUpTo (oid dotted) (bound + 128) Der.objectIdentifier (first :: second :: parts) := by
  have contents := length_parts_le parts
  have fits : (parts.flatMap base128).length + 1 < 256 ^ 126 := by omega
  have least := tlvSize_le fits
  refine (encodes_oid text valid fits).upTo ?_ (by omega)
  unfold tlvSize
  omega

theorem encodesUpTo_algorithm {dotted : Str} {arcs : List Nat} {bound : Nat}
    (encodes : EncodesUpTo (oid dotted) bound Der.objectIdentifier arcs)
    (small : bound + 2 < 256 ^ 126) :
    EncodesUpTo (do seq [← oid dotted, null]) (bound + 130) readAlgorithm arcs := by
  obtain ⟨identifier, returned, -, size, reads⟩ := encodes
  have contents : Der.Reads (do
      let id ← Der.objectIdentifier
      Der.null
      return id) [identifier, null].flatten arcs :=
    reads.bind (Der.reads_null.bind (Der.Reads.pure arcs))
  have length : [identifier, null].flatten.length ≤ bound + 2 := by
    simp [null]
    omega
  obtain ⟨encoded, done, nonempty, sizeAll, readsAll⟩ :=
    encodesUpTo_within 0x30 length small contents.whole
  refine ⟨encoded, ?_, nonempty, sizeAll, readsAll⟩
  rw [returned]
  exact done

theorem encodesUpTo_utf8 {text : Str} {bound : Nat} (short : (encodeUtf8 text).size ≤ bound)
    (small : bound < 256 ^ 126) : EncodesUpTo (utf8 text) (bound + 128) Der.utf8String text := by
  have bytes : (encodeUtf8 text).data.toList.length = (encodeUtf8 text).size :=
    Array.length_toList
  obtain ⟨encoded, returned, nonempty, size, reads⟩ :=
    encodesUpTo_der 0x0C (bytes.trans_le short) small
  refine ⟨encoded, returned, nonempty, size, Der.reads_utf8String ?_⟩
  rwa [encodeUtf8, String.toByteArray_ofList] at reads

/-- A set of one attribute. -/
theorem encodesUpTo_attribute {dotted value : Str} {arcs : List Nat} {bound size : Nat}
    (encodes : EncodesUpTo (oid dotted) bound Der.objectIdentifier arcs)
    (short : (encodeUtf8 value).size ≤ size) (small : bound + size + 256 < 256 ^ 126) :
    EncodesUpTo (do set [← seq [← oid dotted, ← utf8 value]]) (bound + size + 384)
      (Der.setOf readAttribute) [⟨arcs, value⟩] := by
  obtain ⟨identifier, isIdentifier, -, identifierSize, readsIdentifier⟩ := encodes
  obtain ⟨text, isText, -, textSize, readsText⟩ := encodesUpTo_utf8 short (by omega)
  have contents : Der.Reads (do
      let type ← Der.objectIdentifier
      let value ← Der.utf8String
      return (⟨type, value⟩ : Attribute)) [identifier, text].flatten ⟨arcs, value⟩ :=
    readsIdentifier.bind (readsText.bind (Der.Reads.pure _))
  have length : [identifier, text].flatten.length ≤ bound + size + 128 := by
    simp only [List.flatten_cons, List.flatten_nil, List.length_append, List.length_nil]
    omega
  obtain ⟨member, isMember, nonempty, memberSize, readsMember⟩ :=
    encodesUpTo_within 0x30 length (by omega) contents.whole
  have members : [member].flatten.length ≤ bound + size + 256 := by
    simp only [List.flatten_singleton]
    omega
  obtain ⟨encoded, done, nonemptyAll, sizeAll, readsAll⟩ :=
    encodesUpTo_der 0x31 members small
  refine ⟨encoded, ?_, nonemptyAll, sizeAll, ?_⟩
  · simp only [isIdentifier, isText, bind, Except.bind, seq, isMember]
    exact done
  · exact Der.reads_listOf readsAll (.cons ⟨nonempty, readsMember⟩ .nil)

/-- The names that `_name` gives. -/
def distinguishedName (cn o : Str) : List (List Attribute) :=
  [[⟨[2, 5, 4, 3], cn⟩], [⟨[2, 5, 4, 10], o⟩]]

theorem name_eq (cn o : Str) : name cn o = (do
    let first ← (do set [← seq [← oid oidCn, ← utf8 cn]])
    let second ← (do set [← seq [← oid oidO, ← utf8 o]])
    seq [first, second]) := by
  simp [name]

theorem encodesUpTo_name {cn o : Str} {size : Nat}
    (short : (encodeUtf8 cn).size + (encodeUtf8 o).size ≤ size) (small : size + 2048 < 256 ^ 126) :
    EncodesUpTo (name cn o) (size + 2048) readName (distinguishedName cn o) := by
  have isCn : EncodesUpTo (oid oidCn) 256 Der.objectIdentifier [2, 5, 4, 3] :=
    encodesUpTo_oid rfl (by decide) (by decide : _ ≤ 128) (by norm_num)
  have isO : EncodesUpTo (oid oidO) 256 Der.objectIdentifier [2, 5, 4, 10] :=
    encodesUpTo_oid rfl (by decide) (by decide : _ ≤ 128) (by norm_num)
  obtain ⟨first, firstEncoded, firstNonempty, firstSize, readsFirst⟩ :=
    encodesUpTo_attribute isCn (le_refl (encodeUtf8 cn).size) (by omega)
  obtain ⟨second, secondEncoded, secondNonempty, secondSize, readsSecond⟩ :=
    encodesUpTo_attribute isO (le_refl (encodeUtf8 o).size) (by omega)
  have length : [first, second].flatten.length ≤ size + 1280 := by
    simp only [List.flatten_cons, List.flatten_nil, List.length_append, List.length_nil]
    omega
  obtain ⟨encoded, done, nonempty, sizeAll, readsAll⟩ :=
    encodesUpTo_der 0x30 length (by omega)
  refine ⟨encoded, ?_, nonempty, sizeAll.trans (by omega), ?_⟩
  · rw [name_eq]
    exact bind_eq_ok.mpr ⟨first, firstEncoded, bind_eq_ok.mpr ⟨second, secondEncoded, done⟩⟩
  · exact Der.reads_listOf readsAll
      (.cons ⟨firstNonempty, readsFirst⟩ (.cons ⟨secondNonempty, readsSecond⟩ .nil))

theorem encodesUpTo_derInt {x bound : Nat} (short : byteLength x ≤ bound)
    (small : bound + 129 < 256 ^ 126) : EncodesUpTo (derInt x) (bound + 129) Der.integer x := by
  have contents : bitLength x / 8 + 1 ≤ bound + 1 := by
    unfold byteLength at short
    omega
  have least := tlvSize_le (show bitLength x / 8 + 1 < 256 ^ 126 by omega)
  refine (encodes_derInt (by unfold intSize; omega)).upTo ?_ ?_
  · unfold intSize tlvSize
    omega
  · unfold intSize
    omega

theorem spki_eq (k : RsaKey) : spki k = (do
    let pubkey ← (do seq [← derInt k.n, ← derInt k.e])
    let algorithm ← (do seq [← oid oidRsa, null])
    let bits ← bitstr pubkey
    seq [algorithm, bits]) := by
  simp [spki]

theorem encodesUpTo_spki {k : RsaKey} {size : Nat} (short : byteLength k.n + byteLength k.e ≤ size)
    (small : size + 2 ^ 18 < 256 ^ 126) :
    EncodesUpTo (spki k) (size + 2 ^ 18) readSpki (k.n, k.e) := by
  have isRsa : EncodesUpTo (oid oidRsa) (2 ^ 17 + 128) Der.objectIdentifier
      [1, 2, 840, 113549, 1, 1, 1] :=
    encodesUpTo_oid rfl (by decide) (by decide : _ ≤ 2 ^ 17) (by norm_num)
  obtain ⟨algorithm, isAlgorithm, -, algorithmSize, readsAlgorithm⟩ :=
    encodesUpTo_algorithm isRsa (by norm_num)
  obtain ⟨n, isN, -, nSize, readsN⟩ := encodesUpTo_derInt (le_refl (byteLength k.n)) (by omega)
  obtain ⟨e, isE, -, eSize, readsE⟩ := encodesUpTo_derInt (le_refl (byteLength k.e)) (by omega)
  have numbers : Der.Reads (do
      let n ← Der.integer
      let e ← Der.integer
      return (n, e)) [n, e].flatten ((k.n : Int), (k.e : Int)) :=
    readsN.bind (readsE.bind (Der.Reads.pure _))
  have numbersLength : [n, e].flatten.length ≤ size + 258 := by
    simp only [List.flatten_cons, List.flatten_nil, List.length_append, List.length_nil]
    omega
  obtain ⟨pubkey, isPubkey, -, pubkeySize, readsPubkey⟩ :=
    encodesUpTo_within 0x30 numbersLength (by omega) numbers.whole
  have bitsLength : (0x00 :: pubkey).length ≤ size + 387 := by
    rw [List.length_cons]
    omega
  obtain ⟨bits, isBits, -, bitsSize, readsBits⟩ := encodesUpTo_der 0x03 bitsLength (by omega)
  have length : [algorithm, bits].flatten.length ≤ size + 2 ^ 17 + 773 := by
    simp only [List.flatten_cons, List.flatten_nil, List.length_append, List.length_nil]
    omega
  have contents : Der.Reads (do
      guard ((← readAlgorithm) = [1, 2, 840, 113549, 1, 1, 1])
      match readRsaPublicKey (← Der.bitString) with
      | some (key, []) => return key
      | _ => failure) [algorithm, bits].flatten ((k.n : Int), (k.e : Int)) := by
    have key : readRsaPublicKey pubkey = some (((k.n : Int), (k.e : Int)), []) := readsPubkey.whole
    refine readsAlgorithm.bind (Der.Reads.guarded rfl ((Der.reads_bitString readsBits).bind ?_))
    simp only [key]
    exact Der.Reads.pure _
  obtain ⟨encoded, done, nonempty, sizeAll, readsAll⟩ :=
    encodesUpTo_within 0x30 length (by omega) contents.whole
  refine ⟨encoded, ?_, nonempty, sizeAll.trans (by omega), readsAll⟩
  rw [spki_eq]
  refine bind_eq_ok.mpr ⟨pubkey, bind_eq_ok.mpr ⟨n, isN, bind_eq_ok.mpr ⟨e, isE, isPubkey⟩⟩, ?_⟩
  exact bind_eq_ok.mpr ⟨algorithm, isAlgorithm, bind_eq_ok.mpr ⟨bits, isBits, done⟩⟩

theorem encodesUpTo_validity (first last : DateTime) :
    EncodesUpTo (do seq [← utctime (strftime first), ← utctime (strftime last)]) 158
      readValidity (readAs first, readAs last) := by
  obtain ⟨notBefore, isFirst, firstSize, readsFirst⟩ := encodes_utctime first
  obtain ⟨notAfter, isLast, lastSize, readsLast⟩ := encodes_utctime last
  have contents : Der.Reads (do
      let first ← readUtctime
      let last ← readUtctime
      return (first, last)) [notBefore, notAfter].flatten (readAs first, readAs last) :=
    readsFirst.bind (readsLast.bind (Der.Reads.pure _))
  have length : [notBefore, notAfter].flatten.length ≤ 30 := by
    simp [firstSize, lastSize]
  obtain ⟨encoded, done, nonempty, size, reads⟩ :=
    encodesUpTo_within 0x30 length (by norm_num) contents.whole
  exact ⟨encoded, bind_eq_ok.mpr ⟨_, isFirst, bind_eq_ok.mpr ⟨_, isLast, done⟩⟩, nonempty, size,
    reads⟩

/-! ### The extension -/

theorem encodesUpTo_san :
    EncodesUpTo san 1024 readGeneralNames [.dns (bytesLit "localhost"), .ip [127, 0, 0, 1]] := by
  obtain ⟨dns, isDns, dnsNonempty, dnsSize, readsDns⟩ :=
    encodesUpTo_der 0x82 (by decide : (bytesLit "localhost").length ≤ 9) (by norm_num)
  obtain ⟨ip, isIp, ipNonempty, ipSize, readsIp⟩ :=
    encodesUpTo_der 0x87 (by decide : ([127, 0, 0, 1] : Bytes).length ≤ 4) (by norm_num)
  have length : [dns, ip].flatten.length ≤ 512 := by
    simp only [List.flatten_cons, List.flatten_nil, List.length_append, List.length_nil]
    omega
  obtain ⟨encoded, done, nonempty, size, reads⟩ := encodesUpTo_der 0x30 length (by norm_num)
  refine ⟨encoded, ?_, nonempty, size.trans (by norm_num), ?_⟩
  · rw [List.flatten_cons, List.flatten_singleton] at done
    exact bind_eq_ok.mpr ⟨dns, isDns, bind_eq_ok.mpr ⟨ip, isIp, done⟩⟩
  · refine Der.reads_listOf reads (.cons ⟨dnsNonempty, ?_⟩ (.cons ⟨ipNonempty, ?_⟩ .nil))
    · exact (readsDns.map _).orElse_left _
    · refine Der.Reads.orElse ?_ (readsIp.map _)
      intro rest
      show (Der.element 0x82 (ip ++ rest)).bind _ = none
      rw [readsIp.other_element (by decide) rest]
      rfl

theorem readCritical_of_octets {octets contents : Bytes}
    (reads : Der.Reads (Der.element 0x04) octets contents) (rest : Bytes) :
    readCritical (octets ++ rest) = some (false, octets ++ rest) := by
  refine Der.orElse_of_none ?_ _
  show (Der.element 0x01 (octets ++ rest)).bind _ = none
  rw [reads.other_element (by decide) rest]
  rfl

theorem encodesUpTo_extensions : ∃ value,
    EncodesUpTo (do der 0xA3 (← seq [← seq [← oid oidSan, ← der 0x04 (← san)]])) 4096
      (Der.within 0xA3 (Der.sequenceOf readExtension)) [⟨[2, 5, 29, 17], false, value⟩] ∧
    readGeneralNames value = some ([.dns (bytesLit "localhost"), .ip [127, 0, 0, 1]], []) := by
  have isSan : EncodesUpTo (oid oidSan) 256 Der.objectIdentifier [2, 5, 29, 17] :=
    encodesUpTo_oid rfl (by decide) (by decide : _ ≤ 128) (by norm_num)
  obtain ⟨identifier, isIdentifier, -, identifierSize, readsIdentifier⟩ := isSan
  obtain ⟨value, isValue, -, valueSize, readsValue⟩ := encodesUpTo_san
  obtain ⟨octets, isOctets, -, octetsSize, readsOctets⟩ :=
    encodesUpTo_der 0x04 valueSize (by norm_num)
  have contents : Der.Reads (do
      let id ← Der.objectIdentifier
      let critical ← readCritical
      let value ← Der.element 0x04
      return (⟨id, critical, value⟩ : Extension)) [identifier, octets].flatten
      ⟨[2, 5, 29, 17], false, value⟩ := by
    rw [List.flatten_cons, List.flatten_singleton]
    refine readsIdentifier.bind ?_
    intro rest
    show (readCritical (octets ++ rest)).bind _ = _
    rw [readCritical_of_octets readsOctets rest]
    show (Der.element 0x04 (octets ++ rest)).bind _ = _
    rw [readsOctets rest]
    rfl
  have length : [identifier, octets].flatten.length ≤ 1408 := by
    simp only [List.flatten_cons, List.flatten_nil, List.length_append, List.length_nil]
    omega
  obtain ⟨extension, isExtension, nonempty, extensionSize, readsExtension⟩ :=
    encodesUpTo_within 0x30 length (by norm_num) contents.whole
  have listLength : [extension].flatten.length ≤ 1536 := by
    rw [List.flatten_singleton]
    exact extensionSize
  obtain ⟨list, isList, -, listSize, readsList⟩ := encodesUpTo_der 0x30 listLength (by norm_num)
  have readsAll : Der.Reads (Der.sequenceOf readExtension) list [⟨[2, 5, 29, 17], false, value⟩] :=
    Der.reads_listOf readsList (.cons ⟨nonempty, readsExtension⟩ .nil)
  obtain ⟨encoded, done, nonemptyAll, size, reads⟩ :=
    encodesUpTo_within 0xA3 listSize (by norm_num) readsAll.whole
  refine ⟨value, ⟨encoded, ?_, nonemptyAll, size.trans (by norm_num), reads⟩, readsValue.whole⟩
  simp only [isIdentifier, isValue, isOctets, bind, Except.bind, seq, isExtension, isList, done]

/-! ### The certificate -/

theorem serial_lt (randbits : Nat) : randbits % 2 ^ 64 ||| 1 < 2 ^ 64 :=
  Nat.or_lt_two_pow (Nat.mod_lt _ (by decide)) (by decide)

theorem tbsCertificate_eq (k : RsaKey) (cn org : Str) (days : ℚ) (randbits : Nat)
    (earlier later : ℚ) : tbsCertificate k cn org days randbits earlier later = (do
      let sigAlg ← (do seq [← oid oidSha256Rsa, null])
      let extensions ← (do der 0xA3 (← seq [← seq [← oid oidSan, ← der 0x04 (← san)]]))
      let version ← (do der 0xA0 (← derInt 2))
      let serial ← derInt (randbits % 2 ^ 64 ||| 1)
      let issuer ← name cn org
      let period ← (do seq [← utctime (strftime (gmtime (earlier - 60))),
        ← utctime (strftime (gmtime (later + days * 86400)))])
      let subject ← name cn org
      let key ← spki k
      seq [version, serial, sigAlg, issuer, period, subject, key, extensions]) := by
  simp [tbsCertificate]

/-- The contents that the reader finds. -/
def contentsOf (k : RsaKey) (cn org : Str) (days : ℚ) (randbits : Nat) (earlier later : ℚ)
    (value : Bytes) : Contents where
  serial := (randbits % 2 ^ 64 ||| 1 : Nat)
  algorithm := [1, 2, 840, 113549, 1, 1, 11]
  issuer := distinguishedName cn org
  validity := (readAs (gmtime (earlier - 60)), readAs (gmtime (later + days * 86400)))
  subject := distinguishedName cn org
  publicKey := (k.n, k.e)
  extensions := [⟨[2, 5, 29, 17], false, value⟩]

theorem encodesUpTo_sha256Rsa :
    EncodesUpTo (do seq [← oid oidSha256Rsa, null]) (2 ^ 17 + 258) readAlgorithm
      [1, 2, 840, 113549, 1, 1, 11] := by
  have isRsa : EncodesUpTo (oid oidSha256Rsa) (2 ^ 17 + 128) Der.objectIdentifier
      [1, 2, 840, 113549, 1, 1, 11] :=
    encodesUpTo_oid rfl (by decide) (by decide : _ ≤ 2 ^ 17) (by norm_num)
  exact encodesUpTo_algorithm isRsa (by norm_num)

theorem encodesUpTo_tbsCertificate {k : RsaKey} {cn org : Str} {size : Nat}
    (short : (encodeUtf8 cn).size + (encodeUtf8 org).size + byteLength k.n + byteLength k.e ≤ size)
    (small : 2 * size + 2 ^ 20 < 256 ^ 126) (days : ℚ) (randbits : Nat) (earlier later : ℚ) :
    ∃ value, readGeneralNames value =
        some ([.dns (bytesLit "localhost"), .ip [127, 0, 0, 1]], []) ∧
      EncodesUpTo (tbsCertificate k cn org days randbits earlier later) (2 * size + 2 ^ 20)
        readContents (contentsOf k cn org days randbits earlier later value) := by
  obtain ⟨value, ⟨extensions, isExtensions, -, extensionsSize, readsExtensions⟩, names⟩ :=
    encodesUpTo_extensions
  obtain ⟨sigAlg, isSigAlg, -, sigAlgSize, readsSigAlg⟩ := encodesUpTo_sha256Rsa
  obtain ⟨two, isTwo, -, twoSize, readsTwo⟩ :=
    encodesUpTo_derInt (by decide : byteLength 2 ≤ 1) (by norm_num)
  obtain ⟨version, isVersion, -, versionSize, readsVersion⟩ :=
    encodesUpTo_within 0xA0 twoSize (by norm_num) readsTwo.whole
  obtain ⟨serial, isSerial, -, serialSize, readsSerial⟩ :=
    encodesUpTo_derInt (byteLength_le_of_lt (serial_lt randbits) : _ ≤ 8) (by norm_num)
  obtain ⟨issuer, isIssuer, -, issuerSize, readsIssuer⟩ :=
    encodesUpTo_name (le_refl ((encodeUtf8 cn).size + (encodeUtf8 org).size)) (by omega)
  obtain ⟨period, isPeriod, -, periodSize, readsPeriod⟩ :=
    encodesUpTo_validity (gmtime (earlier - 60)) (gmtime (later + days * 86400))
  obtain ⟨key, isKey, -, keySize, readsKey⟩ :=
    encodesUpTo_spki (le_refl (byteLength k.n + byteLength k.e)) (by omega)
  have length : [version, serial, sigAlg, issuer, period, issuer, key, extensions].flatten.length ≤
      2 * size + 2 ^ 19 := by
    simp only [List.flatten_cons, List.flatten_nil, List.length_append, List.length_nil]
    omega
  have contents : Der.Reads (do
      guard ((← Der.within 0xA0 Der.integer) = 2)
      let serial ← Der.integer
      let algorithm ← readAlgorithm
      let issuer ← readName
      let validity ← readValidity
      let subject ← readName
      let publicKey ← readSpki
      let extensions ← Der.within 0xA3 (Der.sequenceOf readExtension)
      return (⟨serial, algorithm, issuer, validity, subject, publicKey, extensions⟩ : Contents))
      [version, serial, sigAlg, issuer, period, issuer, key, extensions].flatten
      (contentsOf k cn org days randbits earlier later value) :=
    readsVersion.bind (Der.Reads.guarded rfl (readsSerial.bind (readsSigAlg.bind
      (readsIssuer.bind (readsPeriod.bind (readsIssuer.bind (readsKey.bind
        (readsExtensions.bind (Der.Reads.pure _)))))))))
  obtain ⟨encoded, done, nonempty, sizeAll, reads⟩ :=
    encodesUpTo_within 0x30 length (by omega) contents.whole
  refine ⟨value, names, encoded, ?_, nonempty, sizeAll.trans (by omega), reads⟩
  have isVersionAll : (do der 0xA0 (← derInt 2)) = .ok version :=
    bind_eq_ok.mpr ⟨two, isTwo, isVersion⟩
  rw [tbsCertificate_eq, isSigAlg, isExtensions, isVersionAll, isSerial, isIssuer, isPeriod, isKey]
  exact done

theorem makeSelfSignedCert_eq (sha256 : Bytes → Bytes) (k : RsaKey) (cn org : Str) (days : ℚ)
    (randbits : Nat) (earlier later : ℚ) :
    makeSelfSignedCert sha256 k cn org days randbits earlier later = (do
      let sigAlg ← (do seq [← oid oidSha256Rsa, null])
      let tbs ← tbsCertificate k cn org days randbits earlier later
      let signature ← rsaSignSha256 sha256 k tbs
      let bits ← bitstr signature
      seq [tbs, sigAlg, bits]) := by
  simp [makeSelfSignedCert]

theorem reads_makeSelfSignedCert (sha256 : Bytes → Bytes)
    (digestSize : ∀ message, (sha256 message).length = 32) {k : RsaKey} (valid : k.Valid)
    (long : 62 ≤ byteLength k.n) (cn org : Str) (days : ℚ) (randbits : Nat) (earlier later : ℚ)
    (small : (encodeUtf8 cn).size + (encodeUtf8 org).size + byteLength k.n + byteLength k.e <
      256 ^ 125) :
    ∃ encoded certificate value,
      makeSelfSignedCert sha256 k cn org days randbits earlier later = .ok encoded ∧
      Der.Reads readCertificate encoded certificate ∧
      certificate.contents = contentsOf k cn org days randbits earlier later value ∧
      readGeneralNames value =
        some ([.dns (bytesLit "localhost"), .ip [127, 0, 0, 1]], []) ∧
      certificate.SelfSigned sha256 := by
  obtain ⟨value, names, tbs, isTbs, -, tbsSize, readsTbs⟩ :=
    encodesUpTo_tbsCertificate (le_refl ((encodeUtf8 cn).size + (encodeUtf8 org).size +
      byteLength k.n + byteLength k.e)) (by omega) days randbits earlier later
  obtain ⟨sigAlg, isSigAlg, -, sigAlgSize, readsSigAlg⟩ := encodesUpTo_sha256Rsa
  obtain ⟨signature, signed, signatureSize, verifies⟩ :=
    signature_verifies valid long (digestSize tbs)
  have bitsLength : (0x00 :: signature).length ≤ byteLength k.n + 1 := by
    rw [List.length_cons, signatureSize]
  obtain ⟨bits, isBits, -, bitsSize, readsBits⟩ := encodesUpTo_der 0x03 bitsLength (by omega)
  have length : [tbs, sigAlg, bits].flatten.length ≤ 2 * ((encodeUtf8 cn).size +
      (encodeUtf8 org).size + byteLength k.n + byteLength k.e) + byteLength k.n + 2 ^ 21 := by
    simp only [List.flatten_cons, List.flatten_nil, List.length_append, List.length_nil]
    omega
  have contents : Der.Reads (do
      let (signed, contents) ← Der.captured readContents
      guard ((← readAlgorithm) = contents.algorithm)
      let signature ← Der.bitString
      return (⟨contents, signed, signature⟩ : Certificate)) [tbs, sigAlg, bits].flatten
      ⟨contentsOf k cn org days randbits earlier later value, tbs, signature⟩ :=
    (Der.reads_captured readsTbs).bind (readsSigAlg.bind (Der.Reads.guarded rfl
      ((Der.reads_bitString readsBits).bind (Der.Reads.pure _))))
  obtain ⟨encoded, done, -, -, reads⟩ := encodesUpTo_within 0x30 length (by omega) contents.whole
  refine ⟨encoded, _, value, ?_, reads, rfl, names, ?_⟩
  · rw [makeSelfSignedCert_eq]
    refine bind_eq_ok.mpr ⟨sigAlg, isSigAlg, bind_eq_ok.mpr ⟨tbs, isTbs, ?_⟩⟩
    exact bind_eq_ok.mpr ⟨signature, signed, bind_eq_ok.mpr ⟨bits, isBits, done⟩⟩
  · refine ⟨rfl, rfl, signatureSize, ?_⟩
    rw [signatureSize]
    exact verifies

end Excalibur.TlsInspect
