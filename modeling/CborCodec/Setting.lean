import CborCodec.Float.Decimal
import CborCodec.Options.Field
import CborCodec.Text.Numeral
/-!
Settings as trees that files and environment variables are read into, layer over layer: a later
layer replaces what it names and leaves the rest of a table alone.
-/

namespace CborCodec

inductive Setting where
  | bool (b : Bool)
  | integer (n : Int)
  | float (d : Double)
  | text (s : String)
  | array (items : List Setting)
  | table (members : List (String × Setting))
  deriving Inhabited

namespace Setting

def replace (key : String) (value : Setting) :
    List (String × Setting) → List (String × Setting)
  | [] => [(key, value)]
  | (k, v) :: members =>
    if k = key then (key, value) :: members else (k, v) :: replace key value members

def membersOf : Option Setting → List (String × Setting)
  | some (table members) => members
  | _ => []

mutual

/-- A setting laid over an earlier one: tables are merged, anything else is replaced. -/
def laidOver (below : Option Setting) : Setting → Setting
  | table members => table (layMembers (membersOf below) members)
  | value => value

def layMembers (below : List (String × Setting)) :
    List (String × Setting) → List (String × Setting)
  | [] => below
  | (key, value) :: members =>
    layMembers (replace key (laidOver (below.lookup key) value) below) members

end

def isKeyChar (c : Char) : Bool := c.isAlphanum || c = '_' || c = '-'

/-- Floats as settings are written without an exponent and whole ones without a point. -/
def floatStyle : FloatStyle where
  lowest := -400
  highest := 400
  pointed := false
  plus := false
  tie := .up
  nan := "NaN"
  infinity := "inf"

def text? : Setting → Option String
  | bool b => some (toString b)
  | integer n => some (toString n)
  | float d => some (floatStyle.write d)
  | text s => some s
  | array _ | table _ => none

/-- The word nearest to a float. Beyond the range it is the end of the range, and zero for NaN. -/
def nearestWord (d : Double) : UInt64 :=
  match d.datum with
  | .nan => 0
  | .infinite negative => if negative then 0 else 0xFFFFFFFFFFFFFFFF
  | .finite .. => UInt64.ofNat (min ((d.round?.getD 0).toNat) 0xFFFFFFFFFFFFFFFF)

def spelledWord? (s : String) : Option UInt64 :=
  let name := String.ofList (Numeral.lower s.toList)
  if name = "true" ∨ name = "on" ∨ name = "yes" then some 1
  else if name = "false" ∨ name = "off" ∨ name = "no" then some 0
  else Numeral.word? s.toList

def word? : Setting → Option UInt64
  | bool b => some (if b then 1 else 0)
  | integer n => if 0 ≤ n ∧ n < UInt64.size then some (UInt64.ofNat n.toNat) else none
  | float d => some (nearestWord d)
  | text s => spelledWord? s
  | array _ | table _ => none

def mode? : Setting → Option Mode
  | text s => Mode.ofName? s
  | table [(key, _)] => Mode.ofName? key
  | _ => none

def spelling : OptionSpelling Setting where
  mode := mode?
  word := word?

/-- A setting as options: a table of their fields, or an array of them in their order. -/
def options? : Setting → Option Options
  | table members => spelling.ofMembers? members
  | array items => spelling.ofList? items
  | _ => none

end Setting

end CborCodec
