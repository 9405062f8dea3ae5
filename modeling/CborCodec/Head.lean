import CborCodec.Bytes
import CborCodec.Error
import CborCodec.Float
import CborCodec.Options
import CborCodec.Sign
/-!
Item heads: the first byte of an item with its argument. A head is decoded from the bytes at hand,
or from a lookahead of nine bytes in which the argument is found by a shift; it is encoded with
the narrowest argument that holds its value.
-/

namespace CborCodec

inductive Major where
  | unsigned
  | negative
  | bytes
  | text
  | array
  | map
  | tag
  | special
  deriving DecidableEq, Repr, Inhabited

namespace Major

def number : Major → Nat
  | unsigned => 0
  | negative => 1
  | bytes => 2
  | text => 3
  | array => 4
  | map => 5
  | tag => 6
  | special => 7

def ofNumber (n : Nat) : Major :=
  match n % 8 with
  | 0 => unsigned
  | 1 => negative
  | 2 => bytes
  | 3 => text
  | 4 => array
  | 5 => map
  | 6 => tag
  | _ => special

def name : Major → String
  | unsigned => "Unsigned"
  | negative => "Negative"
  | bytes => "Bytes"
  | text => "Text"
  | array => "Array"
  | map => "Map"
  | tag => "Tag"
  | special => "Special"

def initialBits (m : Major) : UInt8 := UInt8.ofNat (m.number * 32)

/-- Whether additional information 31 has a meaning. -/
def allowsIndefinite : Major → Bool
  | bytes | text | array | map | special => true
  | unsigned | negative | tag => false

@[simp] theorem ofNumber_number (m : Major) : ofNumber m.number = m := by
  cases m <;> rfl

end Major

def breakByte : UInt8 := 0xFF

def simpleFalse : UInt8 := 20

def simpleTrue : UInt8 := 21

def simpleNull : UInt8 := 22

def simpleUndefined : UInt8 := 23

/-- The head of an item. Its value is the magnitude, length, count, tag or simple value, or the
bits of a float. -/
structure Head where
  major : Major
  indefinite : Bool
  encodedLength : Nat
  value : UInt64
  deriving DecidableEq, Repr, Inhabited

def minimalLength (value : UInt64) : Nat :=
  if value.toNat < 24 then 1
  else if value.toNat < 0x100 then 2
  else if value.toNat < 0x10000 then 3
  else if value.toNat < 0x100000000 then 5
  else 9

def argumentInfo : Nat → UInt8
  | 2 => 24
  | 3 => 25
  | 5 => 26
  | _ => 27

namespace Head

def definite (major : Major) (value : UInt64) (encodedLength : Nat) : Head :=
  ⟨major, false, encodedLength, value⟩

def ofIndefinite (major : Major) : Except Error Head :=
  if major.allowsIndefinite then .ok ⟨major, true, 1, 0⟩
  else .error (.invalidAdditionalInformation 31)

def isBreak (h : Head) : Bool := h.major == .special && h.indefinite

def additionalInformation (h : Head) : UInt8 :=
  if h.indefinite then 31
  else if h.encodedLength = 1 then h.value.toUInt8
  else argumentInfo h.encodedLength

/-- Whether the argument is as narrow as it can be. The width of a float belongs to its value; a
simple value below 32 in two bytes is never minimal. -/
def isMinimal (h : Head) : Bool :=
  if h.major = .special then h.encodedLength != 2 || 32 ≤ h.value
  else h.indefinite || h.encodedLength == minimalLength h.value

/-- False for a float whose value also has a narrower pattern, and for wide NaNs. -/
def isShortestFloat (h : Head) : Bool :=
  if h.major = .special then
    if h.encodedLength = 5 then
      let d := Double.ofSingle h.value.toUInt32
      !d.isNaN && d.toHalf?.isNone
    else if h.encodedLength = 9 then
      let d : Double := ⟨h.value⟩
      !d.isNaN && d.toSingle?.isNone
    else true
  else true

def IsInteger (h : Head) : Prop := h.major = .unsigned ∨ h.major = .negative

instance (h : Head) : Decidable h.IsInteger := by
  unfold IsInteger; infer_instance

/-- The integer of an integer head: a magnitude of 64 bits under its sign, in a word of 128. -/
def signedWide (h : Head) : Option Int :=
  if h.IsInteger then
    some (h.value.toBitVec.setWidth 128 ^^^ signMask 128 h.major.number).toInt
  else none

def signed (h : Head) : Except Error Int :=
  if h.IsInteger then
    if h.value.toNat < 0x8000000000000000 then
      .ok (h.value.toBitVec ^^^ signMask 64 h.major.number).toInt
    else .error .itemValueOutOfRange
  else .error .itemTypeMismatch

/-- In the wide word no magnitude is too large. -/
theorem signedWide_eq (h : Head) :
    h.signedWide = match h.major with
      | .unsigned => some (h.value.toNat : Int)
      | .negative => some (-1 - h.value.toNat)
      | _ => none := by
  obtain ⟨major, indefinite, length, value⟩ := h
  have hwide : (value.toBitVec.setWidth 128).toNat = value.toNat := by
    rw [BitVec.toNat_setWidth]
    exact Nat.mod_eq_of_lt (Nat.lt_of_lt_of_le value.toNat_lt (by decide))
  have hlow : (value.toBitVec.setWidth 128).toNat < twoPow 127 := by
    rw [hwide]
    exact Nat.lt_of_lt_of_le value.toNat_lt (by decide)
  obtain ⟨hplain, hflipped⟩ := toInt_xor_signMask 127 hlow
  rw [hwide] at hplain hflipped
  unfold signedWide IsInteger
  cases major <;> simp [Major.number, hplain, hflipped]

/-- In the narrow word a magnitude that fits gives the same integer. -/
theorem signed_eq (h : Head) :
    h.signed = match h.signedWide with
      | none => .error .itemTypeMismatch
      | some n =>
        if h.value.toNat < 0x8000000000000000 then .ok n else .error .itemValueOutOfRange := by
  obtain ⟨major, indefinite, length, value⟩ := h
  rw [signedWide_eq]
  unfold signed IsInteger
  by_cases hword : value.toNat < 0x8000000000000000
  · obtain ⟨hplain, hflipped⟩ := @toInt_xor_signMask 63 value.toBitVec hword
    cases major <;> simp [Major.number, hword, hplain, hflipped]
  · cases major <;> simp [hword]

def float? (h : Head) : Option Double :=
  if h.major = .special ∧ !h.indefinite then
    match h.encodedLength with
    | 3 => some (Double.ofHalf h.value.toUInt16)
    | 5 => some (Double.ofSingle h.value.toUInt32)
    | 9 => some ⟨h.value⟩
    | _ => none
  else none

def simple? (h : Head) : Option UInt8 :=
  if h.major = .special ∧ !h.indefinite ∧ (h.encodedLength = 1 ∨ h.encodedLength = 2) then
    some h.value.toUInt8
  else none

/-- The length that an initial byte announces, one for a byte that starts no head. -/
def announcedLength (initial : UInt8) : Nat :=
  let info := initial.toNat % 32
  if 24 ≤ info ∧ info ≤ 27 then 1 + twoPow (info - 24) else 1

/-- Decodes the head at the front of bytes that hold all of it. -/
def decode : Bytes → Except Error Head
  | [] => .error .missingData
  | initial :: rest =>
    let major := Major.ofNumber (initial.toNat / 32)
    let info := initial.toNat % 32
    if info < 24 then .ok (definite major (UInt64.ofNat info) 1)
    else if info ≤ 27 then
      let width := twoPow (info - 24)
      let argument := rest.take width
      if argument.length = width then
        .ok (definite major (UInt64.ofNat (Bytes.toWord argument)) (1 + width))
      else .error .missingData
    else if info = 31 then ofIndefinite major
    else .error (.invalidAdditionalInformation (UInt8.ofNat info))

/-- Checks a head against a mode. A break is let through, since only an item that was refused
before it can hold one. -/
def check (h : Head) : Mode → Except Error Unit
  | .lenient => .ok ()
  | mode =>
    if h.indefinite then
      if h.major = .special then .ok () else .error .indefiniteItem
    else if h.isMinimal && (mode != .strict || h.isShortestFloat) then .ok ()
    else .error .oversizedAdditionalInformationCoding

def encode (major : Major) (value : UInt64) : Bytes :=
  let length := minimalLength value
  let info := if length = 1 then value.toUInt8 else argumentInfo length
  (major.initialBits ||| info) :: Bytes.ofWord (length - 1) value.toNat

def encodeIndefinite (major : Major) : Except Error Bytes :=
  match major with
  | .bytes | .text | .array | .map => .ok [major.initialBits ||| 31]
  | _ => .error .itemTypeMismatch

def encodeSimple (value : UInt8) : Except Error Bytes :=
  if value < 24 then .ok [Major.special.initialBits ||| value]
  else if value < 32 then .error .itemValueOutOfRange
  else .ok [Major.special.initialBits ||| 24, value]

def encodeHalf (bits : UInt16) : Bytes :=
  (Major.special.initialBits ||| 25) :: Bytes.ofWord 2 bits.toNat

def encodeSingle (bits : UInt32) : Bytes :=
  (Major.special.initialBits ||| 26) :: Bytes.ofWord 4 bits.toNat

def encodeDouble (bits : UInt64) : Bytes :=
  (Major.special.initialBits ||| 27) :: Bytes.ofWord 8 bits.toNat

/-- A float in its narrowest width; every NaN is the quiet half-precision one. -/
def encodeFloat (d : Double) : Bytes :=
  if d.isNaN then encodeHalf 0x7E00
  else
    match d.toHalf?, d.toSingle? with
    | some h, _ => encodeHalf h
    | none, some s => encodeSingle s
    | none, none => encodeDouble d.bits

end Head

/-- Nine bytes of a stream: the first, and the next eight as one word. -/
structure Lookahead where
  initial : UInt8
  word : UInt64

namespace Lookahead

def ofBytes? : Bytes → Option Lookahead
  | initial :: a :: b :: c :: d :: e :: f :: g :: h :: _ =>
    some ⟨initial, UInt64.ofNat (Bytes.toWord [a, b, c, d, e, f, g, h])⟩
  | _ => none

/-- Decodes the head at the front, whose argument is the highest bytes of the word. -/
def head (l : Lookahead) : Except Error Head :=
  let major := Major.ofNumber (l.initial.toNat / 32)
  let info := l.initial.toNat % 32
  if info < 24 then .ok (Head.definite major (UInt64.ofNat info) 1)
  else if info ≤ 27 then
    let width := twoPow (info - 24)
    .ok (Head.definite major (l.word >>> UInt64.ofNat (64 - 8 * width)) (1 + width))
  else if info = 31 then Head.ofIndefinite major
  else .error (.invalidAdditionalInformation (UInt8.ofNat info))

end Lookahead

end CborCodec
