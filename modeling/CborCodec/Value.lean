import CborCodec.Bytes
import CborCodec.Float
/-!
Decoded items. How an item was encoded is forgotten: strings are whole, containers are lists.
-/

namespace CborCodec

inductive Value where
  | unsigned (n : UInt64)
  /-- The integer `-1 - n`. -/
  | negative (n : UInt64)
  | bytes (b : Bytes)
  | text (s : String)
  | array (items : List Value)
  | map (pairs : List (Value × Value))
  | tag (number : UInt64) (item : Value)
  | false
  | true
  | null
  | undefined
  | simple (n : UInt8)
  | float (d : Double)
  deriving Repr, Inhabited

namespace Value

def typeName : Value → String
  | unsigned _ => "Unsigned Integer"
  | negative _ => "Negative Integer"
  | bytes _ => "Byte String"
  | text _ => "Text String"
  | array _ => "Array"
  | map _ => "Map"
  | tag .. => "Tag"
  | false | true => "Boolean"
  | null => "Null"
  | undefined => "Undefined"
  | simple _ => "Simple Value"
  | float _ => "Float"

def integer? : Value → Option Int
  | unsigned n => some n.toNat
  | negative n => some (-1 - n.toNat)
  | _ => none

mutual

/-- Equality of items in which floats are compared as numbers. -/
def numEq : Value → Value → Bool
  | unsigned m, unsigned n => m == n
  | negative m, negative n => m == n
  | bytes a, bytes b => a == b
  | text s, text t => s == t
  | array xs, array ys => numEqItems xs ys
  | map xs, map ys => numEqPairs xs ys
  | tag m x, tag n y => m == n && numEq x y
  | false, false => Bool.true
  | true, true => Bool.true
  | null, null => Bool.true
  | undefined, undefined => Bool.true
  | simple m, simple n => m == n
  | float a, float b => a.numEq b
  | _, _ => Bool.false

def numEqItems : List Value → List Value → Bool
  | [], [] => Bool.true
  | x :: xs, y :: ys => numEq x y && numEqItems xs ys
  | _, _ => Bool.false

def numEqPairs : List (Value × Value) → List (Value × Value) → Bool
  | [], [] => Bool.true
  | (k, x) :: xs, (l, y) :: ys => numEq k l && numEq x y && numEqPairs xs ys
  | _, _ => Bool.false

end

end Value

end CborCodec
