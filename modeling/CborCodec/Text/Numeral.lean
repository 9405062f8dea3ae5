import CborCodec.Bytes
import CborCodec.Float
/-!
Numbers in text: decimal integers with a sign in front, and floats in positional or scientific
notation.
-/

namespace CborCodec.Numeral

def isDigit (c : Char) : Bool := '0' ≤ c && c ≤ '9'

def ofDigits (base : Nat) (cs : List Char) : Nat :=
  cs.foldl (fun n c => n * base + (Bytes.hexValue? c).getD 0) 0

def natural? (cs : List Char) : Option Nat :=
  if !cs.isEmpty && cs.all isDigit then some (ofDigits 10 cs) else none

def splitSign : List Char → Bool × List Char
  | '-' :: cs => (true, cs)
  | '+' :: cs => (false, cs)
  | cs => (false, cs)

def word? (cs : List Char) : Option UInt64 :=
  match splitSign cs with
  | (true, _) => none
  | (false, digits) =>
    match natural? digits with
    | some n => if n < UInt64.size then some (UInt64.ofNat n) else none
    | none => none

def signed? (cs : List Char) : Option Int :=
  let (negative, digits) := splitSign cs
  match natural? digits with
  | some n =>
    let i : Int := if negative then -n else n
    if -0x8000000000000000 ≤ i ∧ i < 0x8000000000000000 then some i else none
  | none => none

def exponent? : List Char → Option Int
  | [] => some 0
  | c :: cs =>
    if c = 'e' ∨ c = 'E' then
      let (negative, digits) := splitSign cs
      (natural? digits).map fun n => if negative then -n else n
    else none

def decimal? (negative : Bool) (cs : List Char) : Option Double :=
  let (whole, rest) := cs.span isDigit
  let (fraction, rest) :=
    match rest with
    | '.' :: rest => rest.span isDigit
    | _ => ([], rest)
  let digits := whole ++ fraction
  match exponent? rest with
  | some e =>
    if digits.isEmpty then none
    else some (Double.ofDecimal negative (ofDigits 10 digits) (e - fraction.length))
  | none => none

def lower (cs : List Char) : List Char := cs.map Char.toLower

def float? (cs : List Char) : Option Double :=
  let (negative, rest) := splitSign cs
  let name := String.ofList (lower rest)
  if name = "inf" ∨ name = "infinity" then some (Double.ofDatum (.infinite negative))
  else if name = "nan" then some (Double.ofDatum .nan)
  else decimal? negative rest

end CborCodec.Numeral
