import CborCodec.Power
/-!
Binary floating point by bit patterns. The finite values of a format are whole multiples of its
least positive one, so a value is a sign and a natural number in that unit, and widening is
multiplication by a power of two. A pattern can be narrowed if a narrower pattern widens to it.
-/

namespace CborCodec

/-- A binary interchange format: the widths of its exponent and fraction fields. -/
structure FloatFormat where
  exponentBits : Nat
  fractionBits : Nat

/-- What a pattern stands for; a finite magnitude counts units of the format. -/
inductive FloatDatum where
  | nan
  | infinite (negative : Bool)
  | finite (negative : Bool) (magnitude : Nat)
  deriving DecidableEq, Repr

namespace FloatFormat

def half : FloatFormat := ⟨5, 10⟩

def single : FloatFormat := ⟨8, 23⟩

def double : FloatFormat := ⟨11, 52⟩

def top (F : FloatFormat) : Nat := twoPow F.exponentBits - 1

/-- The unit of the format is `2 ^ -scale`. -/
def scale (F : FloatFormat) : Nat := twoPow (F.exponentBits - 1) - 2 + F.fractionBits

def datum (F : FloatFormat) (pattern : Nat) : FloatDatum :=
  let fraction := pattern % twoPow F.fractionBits
  let exponent := pattern / twoPow F.fractionBits % twoPow F.exponentBits
  let negative := pattern / twoPow (F.fractionBits + F.exponentBits) % 2 == 1
  if exponent = F.top then
    if fraction = 0 then .infinite negative else .nan
  else if exponent = 0 then .finite negative fraction
  else .finite negative ((twoPow F.fractionBits + fraction) * twoPow (exponent - 1))

def assemble (F : FloatFormat) (negative : Bool) (exponent fraction : Nat) : Nat :=
  (if negative then twoPow (F.fractionBits + F.exponentBits) else 0)
    + exponent * twoPow F.fractionBits + fraction

/-- Writes a pattern. Of a magnitude with more significant bits than fit, the lowest are lost. -/
def pattern (F : FloatFormat) : FloatDatum → Nat
  | .nan => F.assemble false F.top (twoPow (F.fractionBits - 1))
  | .infinite negative => F.assemble negative F.top 0
  | .finite negative magnitude =>
    if magnitude < twoPow F.fractionBits then F.assemble negative 0 magnitude
    else
      let shift := magnitude.log2 - F.fractionBits
      F.assemble negative (shift + 1) (magnitude / twoPow shift - twoPow F.fractionBits)

def widen (F : FloatFormat) (pattern : Nat) : Nat :=
  double.pattern <|
    match F.datum pattern with
    | .finite negative magnitude =>
      .finite negative (magnitude * twoPow (double.scale - F.scale))
    | d => d

/-- The pattern in this format that a double's magnitude is cut down to. -/
def cut (F : FloatFormat) (bits : Nat) : Nat :=
  F.pattern <|
    match double.datum bits with
    | .finite negative magnitude =>
      .finite negative (magnitude / twoPow (double.scale - F.scale))
    | d => d

end FloatFormat

/-- A double-precision float, as its bit pattern. -/
structure Double where
  bits : UInt64
  deriving DecidableEq, Repr, Inhabited

namespace Double

def datum (d : Double) : FloatDatum := FloatFormat.double.datum d.bits.toNat

def ofDatum (d : FloatDatum) : Double := ⟨UInt64.ofNat (FloatFormat.double.pattern d)⟩

def isNaN (d : Double) : Bool := d.datum == .nan

/-- Equality of numbers: a NaN differs from itself, and the two zeros are equal. -/
def numEq (a b : Double) : Bool :=
  match a.datum, b.datum with
  | .nan, _ => false
  | _, .nan => false
  | .finite _ 0, .finite _ 0 => true
  | x, y => x == y

def ofHalf (bits : UInt16) : Double :=
  ⟨UInt64.ofNat (FloatFormat.half.widen bits.toNat)⟩

def ofSingle (bits : UInt32) : Double :=
  ⟨UInt64.ofNat (FloatFormat.single.widen bits.toNat)⟩

/-- The half-precision pattern of the same value, if there is one. A NaN has none. -/
def toHalf? (d : Double) : Option UInt16 :=
  let h := UInt16.ofNat (FloatFormat.half.cut d.bits.toNat)
  if !d.isNaN && ofHalf h == d then some h else none

def toSingle? (d : Double) : Option UInt32 :=
  let s := UInt32.ofNat (FloatFormat.single.cut d.bits.toNat)
  if !d.isNaN && ofSingle s == d then some s else none

def truncate? (d : Double) : Option Int :=
  match d.datum with
  | .finite negative magnitude =>
    let n := magnitude / twoPow FloatFormat.double.scale
    some (if negative then -n else n)
  | _ => none

/-- The integer nearest to a finite double, a half away from zero. -/
def round? (d : Double) : Option Int :=
  match d.datum with
  | .finite negative magnitude =>
    let one := twoPow FloatFormat.double.scale
    let n := (2 * magnitude + one) / (2 * one)
    some (if negative then -n else n)
  | _ => none

/-- The double nearest to the fraction `num / den`, ties to even. -/
def nearest (negative : Bool) (num den : Nat) : Double :=
  let scaled := num * twoPow FloatFormat.double.scale
  let shift := (scaled / den).log2 - FloatFormat.double.fractionBits
  let step := den * twoPow shift
  let low := scaled / step
  let twice := 2 * (scaled % step)
  let up := step < twice || (step == twice && low % 2 == 1)
  let magnitude := (if up then low + 1 else low) * twoPow shift
  if magnitude < twoPow (FloatFormat.double.scale + 1024) then
    ofDatum (.finite negative magnitude)
  else ofDatum (.infinite negative)

/-- The double nearest to `digits * 10 ^ exponent`. Exponents far outside the range of doubles
are answered without computing the power. -/
def ofDecimal (negative : Bool) (digits : Nat) (exponent : Int) : Double :=
  let size : Int := (Nat.toDigits 10 digits).length
  if digits = 0 ∨ exponent + size < -400 then ofDatum (.finite negative 0)
  else if 400 < exponent + size then ofDatum (.infinite negative)
  else nearest negative (digits * tenPow exponent.toNat) (tenPow (-exponent).toNat)

end Double

end CborCodec
