import CborCodec.Float
/-!
The shortest decimal that reads back as a given double: of all decimals that round to it, those
with the fewest digits, and of these the nearest.
-/

namespace CborCodec

inductive DecimalTie where
  | toEven
  | up
  deriving DecidableEq, Repr

/-- The number `digits * 10 ^ exponent`. -/
structure Decimal where
  digits : Nat
  exponent : Int
  deriving DecidableEq, Repr

namespace Decimal

/-- Takes zeros off the end of the digits, as many as there are and at most `fuel`. -/
def strip : Nat → Decimal → Decimal
  | fuel + 1, d =>
    if d.digits ≠ 0 ∧ d.digits % 10 = 0 then strip fuel ⟨d.digits / 10, d.exponent + 1⟩ else d
  | 0, d => d

/-- The interval of numbers that round to a positive double, in quarters of the unit, and whether
its ends belong to it. -/
structure Rounding where
  low : Nat
  value : Nat
  high : Nat
  closed : Bool

/-- The numbers that round to a double of this positive magnitude. Below a power of two doubles
stand twice as close as above it. -/
def Rounding.ofMagnitude (magnitude : Nat) : Rounding :=
  let shift := magnitude.log2 - FloatFormat.double.fractionBits
  let gap := twoPow shift
  let edge := shift ≠ 0 ∧ magnitude = twoPow magnitude.log2
  { low := 4 * magnitude - (if edge then gap else 2 * gap)
    value := 4 * magnitude
    high := 4 * magnitude + 2 * gap
    closed := magnitude / gap % 2 == 0 }

/-- A decimal grid of step `10 ^ exponent` against the interval: multiples of `step` are compared
with the interval's numbers times `factor`. -/
structure Grid where
  exponent : Int
  step : Nat
  factor : Nat

def Grid.ofExponent (exponent : Int) : Grid :=
  ⟨exponent, tenPow exponent.toNat * (4 * twoPow FloatFormat.double.scale),
    tenPow (-exponent).toNat⟩

def Grid.contains (g : Grid) (r : Rounding) (c : Nat) : Bool :=
  let x := c * g.step
  if r.closed then r.low * g.factor ≤ x && x ≤ r.high * g.factor
  else r.low * g.factor < x && x < r.high * g.factor

/-- The grid point in the interval nearest to its value, if there is any. Only the two points on
either side of the value can be nearest. -/
def Grid.nearest? (g : Grid) (r : Rounding) (tie : DecimalTie) : Option Nat :=
  let v := r.value * g.factor
  let c := v / g.step
  let below := v - c * g.step
  let above := (c + 1) * g.step - v
  let lower :=
    below < above || (below == above && (tie == .toEven && c % 2 == 0))
  match g.contains r c, g.contains r (c + 1) with
  | true, true => some (if lower then c else c + 1)
  | true, false => some c
  | false, true => some (c + 1)
  | false, false => none

def leading (magnitude : Nat) : Int :=
  let log : Int := magnitude.log2 - FloatFormat.double.scale
  let guess := (log * 30103).fdiv 100000 - 1
  let reaches (e : Int) : Bool :=
    tenPow e.toNat * twoPow FloatFormat.double.scale ≤ magnitude * tenPow (-e).toNat
  if reaches (guess + 2) then guess + 2
  else if reaches (guess + 1) then guess + 1
  else guess

/-- Tries grids of `count`, `count + 1`, ... digits. -/
def search (r : Rounding) (tie : DecimalTie) (lead : Int) : Nat → Nat → Decimal
  | fuel + 1, count =>
    let g := Grid.ofExponent (lead + 1 - count)
    match g.nearest? r tie with
    | some c => strip 20 ⟨c, g.exponent⟩
    | none => search r tie lead fuel (count + 1)
  | 0, count => ⟨r.value / 4, lead + 1 - count⟩

/-- The shortest decimal that rounds to the double of this positive magnitude. Seventeen digits
always suffice. -/
def shortest (magnitude : Nat) (tie : DecimalTie) : Decimal :=
  search (Rounding.ofMagnitude magnitude) tie (leading magnitude) 17 1

end Decimal

/-- How a double is written. Exponents of the leading digit from `lowest` up to below `highest`
are written positionally, the others with an exponent. -/
structure FloatStyle where
  lowest : Int
  highest : Int
  /-- Whether a whole number that is written positionally ends in a point and a zero. -/
  pointed : Bool
  /-- Whether a positive exponent has its sign. -/
  plus : Bool
  tie : DecimalTie
  nan : String
  infinity : String

namespace FloatStyle

def zeros (n : Nat) : String := String.ofList (List.replicate n '0')

def ending (style : FloatStyle) : String := if style.pointed then ".0" else ""

def decimal (style : FloatStyle) (d : Decimal) : String :=
  let ds := Nat.toDigits 10 d.digits
  let point := ds.length + d.exponent
  if style.lowest < point ∧ point ≤ style.highest then
    if point ≤ 0 then "0." ++ zeros (-point).toNat ++ String.ofList ds
    else if ds.length ≤ point then
      String.ofList ds ++ zeros (point - ds.length).toNat ++ style.ending
    else
      String.ofList (ds.take point.toNat) ++ "." ++ String.ofList (ds.drop point.toNat)
  else
    let fraction := if ds.length = 1 then "" else "." ++ String.ofList (ds.drop 1)
    let sign := if style.plus ∧ 1 < point then "+" else ""
    String.ofList (ds.take 1) ++ fraction ++ "e" ++ sign ++ toString (point - 1)

def write (style : FloatStyle) (d : Double) : String :=
  match d.datum with
  | .nan => style.nan
  | .infinite negative => (if negative then "-" else "") ++ style.infinity
  | .finite negative 0 => (if negative then "-" else "") ++ "0" ++ style.ending
  | .finite negative magnitude =>
    (if negative then "-" else "") ++ style.decimal (Decimal.shortest magnitude style.tie)

end FloatStyle

end CborCodec
