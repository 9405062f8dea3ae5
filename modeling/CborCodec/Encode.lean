import CborCodec.Head
import CborCodec.Output
import CborCodec.Typed
/-!
Encoding values. Heads take the narrowest argument that holds their value, floats the narrowest
lossless width, and strings and containers their definite form. A container is written call by
call; one that declares a count refuses the call that would exceed it and, at its end, any other
number of calls than declared.
-/

namespace CborCodec

variable {τ : Type} [Output τ]

def emitArgument (major : Major) (value : UInt64) : EStateM Error τ Unit :=
  Output.putHead (Head.encode major value)

def emitChecked (head : Except Error Bytes) : EStateM Error τ Unit := do
  Output.putHead (← known head)

def emitBreak : EStateM Error τ Unit :=
  Output.putHead [breakByte]

def emitString (major : Major) (bs : Bytes) : EStateM Error τ Unit := do
  emitArgument major (UInt64.ofNat bs.length)
  Output.put bs

def emitBytes (bs : Bytes) : EStateM Error τ Unit :=
  emitString .bytes bs

def emitText (s : String) : EStateM Error τ Unit :=
  emitString .text (Bytes.ofText s)

/-- Writes a signed word. The lowest bit of its sign says the major, and all of them flip the bits
of a negative one. -/
def emitSigned (n : BitVec 64) : EStateM Error τ Unit :=
  emitArgument (Major.ofNumber (signBits n &&& 1#64).toNat) (UInt64.ofBitVec (n ^^^ signBits n))

def emitTyped (type : IntType) (n : type.Carrier) : EStateM Error τ Unit :=
  match type with
  | .unsigned _ => emitArgument .unsigned (UInt64.ofNat n.val.toNat)
  | .signed _ => emitSigned (BitVec.ofInt 64 n.val)

/-- Writes an integer: `n` from zero on as itself, a negative one as `-1 - n`. -/
def emitInteger (n : Int) : EStateM Error τ Unit :=
  match n with
  | .ofNat n => emitArgument .unsigned (UInt64.ofNat n)
  | .negSucc n => emitArgument .negative (UInt64.ofNat n)

/-- Flipping the bits of a negative word gives its magnitude, and its sign the major. -/
theorem emitSigned_ofInt {n : Int} (hleast : -0x8000000000000000 ≤ n)
    (hgreatest : n < 0x8000000000000000) :
    (emitSigned (BitVec.ofInt 64 n) : EStateM Error τ Unit) = emitInteger n := by
  have hword (w : BitVec 64) : UInt64.ofBitVec w = UInt64.ofNat w.toNat := UInt64.ofNat_toNat.symm
  rw [emitSigned, hword, toNat_xor_signBits hleast hgreatest, signBits_ofInt hleast hgreatest]
  cases n with
  | ofNat k =>
    have hsign : ¬Int.ofNat k < 0 := Int.not_lt.mpr (Int.natCast_nonneg k)
    rw [if_neg hsign, if_neg hsign]
    rfl
  | negSucc k =>
    have hmagnitude : (-1 - Int.negSucc k).toNat = k := by omega
    rw [if_pos (Int.negSucc_lt_zero k), if_pos (Int.negSucc_lt_zero k), hmagnitude]
    rfl

/-- An integer is written in one way, whatever type it is of. -/
theorem emitTyped_eq (type : IntType) (n : type.Carrier) :
    (emitTyped type n : EStateM Error τ Unit) = emitInteger n.val := by
  obtain ⟨n, hleast, hgreatest⟩ := n
  cases type with
  | unsigned w =>
    cases n with
    | ofNat k => rfl
    | negSucc k => exact absurd hleast (Int.not_le_of_gt (Int.negSucc_lt_zero k))
  | signed w =>
    have hpow : twoPow (w.bits - 1) ≤ 0x8000000000000000 := by cases w <;> decide
    simp only [IntType.least, IntType.greatest] at hleast hgreatest
    exact emitSigned_ofInt (n := n) (by omega) (by omega)

def emitBool (b : Bool) : EStateM Error τ Unit :=
  emitChecked (Head.encodeSimple (if b then simpleTrue else simpleFalse))

def emitDouble (d : Double) : EStateM Error τ Unit :=
  Output.putHead (Head.encodeFloat d)

inductive Container where
  | array
  | map
  deriving DecidableEq, Repr

namespace Container

def major : Container → Major
  | array => .array
  | map => .map

def slots : Container → Nat
  | array => 1
  | map => 2

end Container

/-- Refuses the call after the last one declared. -/
def takePlace {σ : Type} (declared : Option Nat) (taken : Nat) : EStateM Error σ Unit :=
  match declared with
  | none => pure ()
  | some n => failIf (n < taken + 1) .itemValueOutOfRange

def endContainer (declared : Option Nat) (taken : Nat) : EStateM Error τ Unit :=
  match declared with
  | none => emitBreak
  | some n => failIf (taken ≠ n) .itemValueOutOfRange

def emitCalls (declared : Option Nat) (taken : Nat) :
    List (EStateM Error τ Unit) → EStateM Error τ Nat
  | [] => pure taken
  | call :: calls => do
    takePlace declared taken
    call
    emitCalls declared (taken + 1) calls

/-- Writes a container of elements that are in memory. A word counts the calls for all of them, so
their number does not overflow. -/
def emitContainer (kind : Container) (count : Nat) (calls : List (EStateM Error τ Unit)) :
    EStateM Error τ Unit := do
  emitArgument kind.major (UInt64.ofNat count)
  let taken ← emitCalls (some (count * kind.slots)) 0 calls
  endContainer (some (count * kind.slots)) taken

namespace Value

mutual

def emit : Value → EStateM Error τ Unit
  | unsigned n => emitArgument .unsigned n
  | negative n => emitArgument .negative n
  | bytes b => emitBytes b
  | text s => emitText s
  | array items => emitContainer .array items.length (itemCalls items)
  | map pairs => emitContainer .map pairs.length (pairCalls pairs)
  | tag number item => do
    emitArgument .tag number
    emit item
  | false => emitBool Bool.false
  | true => emitBool Bool.true
  | null => emitChecked (Head.encodeSimple simpleNull)
  | undefined => emitChecked (Head.encodeSimple simpleUndefined)
  | simple n => emitChecked (Head.encodeSimple n)
  | float d => emitDouble d

def itemCalls : List Value → List (EStateM Error τ Unit)
  | [] => []
  | item :: items => emit item :: itemCalls items

def pairCalls : List (Value × Value) → List (EStateM Error τ Unit)
  | [] => []
  | (key, value) :: pairs => emit key :: emit value :: pairCalls pairs

end

end Value

/-- What can be encoded by itself. -/
inductive Leaf where
  | integer (type : IntType) (n : type.Carrier)
  | double (d : Double)
  | single (s : Single)
  | half (bits : UInt16)
  | bool (b : Bool)
  | text (s : String)
  | bytes (b : Bytes)
  | option (inner : Option Leaf)
  | value (v : Value)
  | argument (major : Major) (n : UInt64)
  | simple (n : UInt8)
  /-- Elements of one type, written as an array. -/
  | list (elements : List Leaf)

namespace Leaf

mutual

/-- Writes a leaf. What is missing is written as undefined. -/
def emit : Leaf → EStateM Error τ Unit
  | integer t n => emitTyped t n
  | double d => emitDouble d
  | single s => emitDouble (Double.ofSingle s.bits)
  | half bits => Output.putHead (Head.encodeHalf bits)
  | bool b => emitBool b
  | text s => emitText s
  | bytes b => emitBytes b
  | option inner => emitOption inner
  | value v => v.emit
  | argument major n => emitArgument major n
  | simple n => emitChecked (Head.encodeSimple n)
  | list elements => emitContainer .array elements.length (elementCalls elements)

def emitOption : Option Leaf → EStateM Error τ Unit
  | none => emitChecked (Head.encodeSimple simpleUndefined)
  | some leaf => leaf.emit

def elementCalls : List Leaf → List (EStateM Error τ Unit)
  | [] => []
  | leaf :: leaves => leaf.emit :: elementCalls leaves

end

end Leaf

end CborCodec
