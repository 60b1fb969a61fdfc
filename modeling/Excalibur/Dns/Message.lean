import Excalibur.Library.BigEndian
import Excalibur.Python.Basic

/-! # DNS messages: encoding names and parsing responses

`read_name` follows compression pointers through the message, at most 128 length
bytes far, and answers with the offset behind the name's own bytes.
`parse_response` threads that offset through the counted questions and answers.
Indexing past the end raises, slicing past the end shortens.
-/

namespace Excalibur.Dns

open Excalibur.Library Excalibur.Python

def typeA : Nat := 1

def joinDots (parts : List Str) : Str := List.intercalate ['.'] parts

/-! ## Encoding names -/

/-- The labels with their length bytes; empty labels are skipped. -/
def encodeLabels : List Str → Except PyError Bytes
  | [] => .ok []
  | label :: labels =>
    if label = [] then encodeLabels labels
    else do
      let encoded ← encodeAscii label
      -- `bytearray.append` takes one byte.
      if 256 ≤ encoded.length then throw .valueError
      let rest ← encodeLabels labels
      return UInt8.ofNat encoded.length :: encoded ++ rest

def encodeQname (name : Str) : Except PyError Bytes := do
  let out ← encodeLabels (name.splitOn '.')
  return out ++ [0]

/-! ## Reading names -/

def byteAt (message : Bytes) (offset : Nat) : Except PyError Nat :=
  match message[offset]? with
  | some b => .ok b.toNat
  | none => .error .indexError

/-- The loop of `read_name` with `steps` rounds left before the guard strikes. -/
def readNameLoop (message : Bytes) :
    Nat → List Str → Bool → Nat → Nat → Except PyError (Str × Nat)
  | 0, _, _, _, _ => .error .valueError
  | steps + 1, labels, jumped, afterPointer, offset => do
    let length ← byteAt message offset
    if length &&& 0xC0 = 0xC0 then
      -- Compression pointer: 14 bits of offset spread over two bytes.
      let low ← byteAt message (offset + 1)
      let pointer := ((length &&& 0x3F) <<< 8) ||| low
      let afterPointer := if jumped then afterPointer else offset + 2
      readNameLoop message steps labels true afterPointer pointer
    else if length = 0 then
      let offset := offset + 1
      return (joinDots labels, if jumped then afterPointer else offset)
    else
      let label := decodeAscii (slice message (offset + 1) length)
      readNameLoop message steps (labels ++ [label]) jumped afterPointer (offset + 1 + length)

def readName (message : Bytes) (offset : Nat) : Except PyError (Str × Nat) :=
  readNameLoop message 128 [] false offset offset

/-! ## Parsing responses -/

structure Header where
  id : Nat
  flags : Nat
  qd : Nat
  an : Nat
  ns : Nat
  ar : Nat

structure Fixed where
  rtype : Nat
  rclass : Nat
  ttl : Nat
  rdlength : Nat

structure Answer where
  name : Str
  rtype : Nat
  rclass : Nat
  ttl : Nat
  value : Option Str
deriving DecidableEq

structure Response where
  id : Nat
  rcode : Nat
  qdcount : Nat
  ancount : Nat
  answers : List Answer
deriving DecidableEq

def field (data : Bytes) (start size : Nat) : Nat := ofBigEndian (slice data start size)

def unpackHeader (data : Bytes) : Except PyError Header :=
  if data.length = 12 then
    .ok ⟨field data 0 2, field data 2 2, field data 4 2, field data 6 2, field data 8 2,
      field data 10 2⟩
  else .error .structError

def unpackFixed (data : Bytes) : Except PyError Fixed :=
  if data.length = 10 then .ok ⟨field data 0 2, field data 2 2, field data 4 4, field data 8 2⟩
  else .error .structError

def dotted (rdata : Bytes) : Str := joinDots (rdata.map fun b => strOfInt b.toNat)

def skipQuestions (message : Bytes) : Nat → Nat → Except PyError Nat
  | 0, offset => .ok offset
  | count + 1, offset => do
    let (_, offset) ← readName message offset
    skipQuestions message count (offset + 4)

/-- One round of the loop over the answer section. -/
def readAnswer (message : Bytes) (offset : Nat) : Except PyError (Answer × Nat) := do
  let (name, offset) ← readName message offset
  let fixed ← unpackFixed (slice message offset 10)
  let offset := offset + 10
  let rdata := slice message offset fixed.rdlength
  let value := if fixed.rtype = typeA ∧ fixed.rdlength = 4 then some (dotted rdata) else none
  return (⟨name, fixed.rtype, fixed.rclass, fixed.ttl, value⟩, offset + fixed.rdlength)

def readAnswers (message : Bytes) : Nat → Nat → Except PyError (List Answer)
  | 0, _ => .ok []
  | count + 1, offset => do
    let (answer, offset) ← readAnswer message offset
    let answers ← readAnswers message count offset
    return answer :: answers

def parseResponse (message : Bytes) : Except PyError Response := do
  let header ← unpackHeader (message.take 12)
  let rcode := header.flags &&& 0x000F
  let offset ← skipQuestions message header.qd 12
  let answers ← readAnswers message header.an offset
  return ⟨header.id, rcode, header.qd, header.an, answers⟩

end Excalibur.Dns
