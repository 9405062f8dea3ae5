import CborCodec.Bytes
import CborCodec.Setting
import CborCodec.Text.Quoted
import CborCodec.Text.Scanner
/-!
The smallest parts of a TOML document: blanks and comments, the four kinds of strings, keys,
numbers and dates.
-/

namespace CborCodec.Toml

def isBlank (c : Char) : Bool := c = ' ' || c = '\t'

def isControl (c : Char) : Bool := (c.toNat < 32 && c ≠ '\t') || c.toNat = 127

def blanks : Scanner Unit := do
  let _ ← Scanner.takeWhile isBlank

def newline : Scanner Bool := do
  if ← Scanner.accept '\n' then return true else Scanner.acceptAll ['\r', '\n']

def comment : Scanner Bool := do
  if ← Scanner.accept '#' then
    let _ ← Scanner.takeWhile fun c => !isControl c
    return true
  else return false

def gap : Scanner Unit :=
  Scanner.repeatUntil (fun () => do
    blanks
    if ← newline then return .inl ()
    else if ← comment then return .inl ()
    else return .inr ()) ()

def endOfLine : Scanner Unit := do
  blanks
  let _ ← comment
  if (← Scanner.peek).isNone then return ()
  else if ← newline then return ()
  else failure

def hexChar (count : Nat) : Scanner Char := do
  let mut n := 0
  for _ in List.range count do
    match Bytes.hexValue? (← Scanner.next) with
    | some d => n := n * 16 + d
    | none => failure
  if n.isValidChar then return Char.ofNat n else failure

def escaped : Scanner Char := do
  match ← Scanner.next with
  | 'b' => return Char.ofNat 8
  | 't' => return '\t'
  | 'n' => return '\n'
  | 'f' => return Char.ofNat 12
  | 'r' => return '\r'
  | 'e' => return Char.ofNat 27
  | 'x' => hexChar 2
  | 'u' => hexChar 4
  | 'U' => hexChar 8
  | c => if c = Quoted.quote ∨ c = Quoted.backslash then return c else failure

def apostrophe : Char := Char.ofNat 39

def lineString (mark : Char) : Scanner String :=
  Scanner.repeatUntil (fun before => do
    let c ← Scanner.next
    if c = mark then return .inr (String.ofList before.reverse)
    else if c = Quoted.backslash ∧ mark = Quoted.quote then return .inl ((← escaped) :: before)
    else if isControl c then failure
    else return .inl (c :: before)) []

/-- Takes the end of a line and the blank space after it, which an escape leaves out. -/
def lineContinuation : Scanner Unit := do
  blanks
  if ← newline then
    Scanner.repeatUntil (fun () => do
      blanks
      if ← newline then return .inl () else return .inr ()) ()
  else failure

/-- One more character of a string over several lines, or none for an escaped line end. -/
def blockChar (mark : Char) : Scanner (List Char) := do
  if ← newline then return ['\n']
  else
    let c ← Scanner.next
    if c = Quoted.backslash ∧ mark = Quoted.quote then
      match ← Scanner.peek with
      | some d =>
        if isBlank d ∨ d = '\n' ∨ d = '\r' then
          lineContinuation
          return []
        else return [← escaped]
      | none => failure
    else if isControl c then failure
    else return [c]

/-- Up to two marks that belong to a string although its end has begun. -/
def lateMarks (mark : Char) : Scanner (List Char) := do
  if ← Scanner.accept mark then
    if ← Scanner.accept mark then return [mark, mark] else return [mark]
  else return []

def blockString (mark : Char) : Scanner String := do
  let _ ← newline
  Scanner.repeatUntil (fun before => do
    if ← Scanner.acceptAll [mark, mark, mark] then
      return .inr (String.ofList (before.reverse ++ (← lateMarks mark)))
    else return .inl ((← blockChar mark).reverse ++ before)) []

def string (mark : Char) : Scanner String := do
  if ← Scanner.acceptAll [mark, mark, mark] then blockString mark
  else
    Scanner.expect mark
    lineString mark

def simpleKey : Scanner String := do
  if ← Scanner.accept Quoted.quote then lineString Quoted.quote
  else if ← Scanner.accept apostrophe then lineString apostrophe
  else return String.ofList (← Scanner.takeSome Setting.isKeyChar)

/-- How many parts a key may have, and how many arrays and tables between braces may stand within
each other. -/
def deepest : Nat := 80

def keyParts : Scanner (List String) :=
  Scanner.repeatUntil (fun before => do
    blanks
    let part ← simpleKey
    blanks
    if ← Scanner.accept '.' then return .inl (part :: before)
    else return .inr (part :: before).reverse) []

def key : Scanner (List String) := do
  let parts ← keyParts
  if parts.length ≤ deepest then return parts else failure

/-- Digits without the underscores that group them. Each underscore stands between two digits. -/
def ungroup? (isDigit : Char → Bool) : List Char → Option (List Char)
  | [] => none
  | [c] => if isDigit c then some [c] else none
  | c :: '_' :: rest => if isDigit c then (ungroup? isDigit rest).map (c :: ·) else none
  | c :: rest => if isDigit c then (ungroup? isDigit rest).map (c :: ·) else none

/-- Grouped decimal digits in which no zero leads. -/
def decimalDigits? (cs : List Char) : Option (List Char) :=
  match ungroup? Numeral.isDigit cs with
  | some ('0' :: _ :: _) => none
  | digits => digits

def signedWord? (n : Int) : Option Setting :=
  if -0x8000000000000000 ≤ n ∧ n < 0x8000000000000000 then some (.integer n) else none

def basedInteger? (marker : Char) (cs : List Char) : Option Setting :=
  let digits (base : Nat) : Option Setting :=
    (ungroup? (fun c => (Bytes.hexValue? c).any (· < base)) cs).bind fun digits =>
      signedWord? (Numeral.ofDigits base digits)
  match marker with
  | 'x' => digits 16
  | 'o' => digits 8
  | 'b' => digits 2
  | _ => none

def integer? (cs : List Char) : Option Setting :=
  match cs with
  | '0' :: marker :: rest => basedInteger? marker rest
  | _ =>
    let (negative, digits) := Numeral.splitSign cs
    (decimalDigits? digits).bind fun digits =>
      let n : Int := Numeral.ofDigits 10 digits
      signedWord? (if negative then -n else n)

def fraction? : List Char → Option (List Char)
  | [] => some []
  | '.' :: cs => (ungroup? Numeral.isDigit cs).map ('.' :: ·)
  | _ => none

def exponent? : List Char → Option (List Char)
  | [] => some []
  | e :: '+' :: cs => (ungroup? Numeral.isDigit cs).map (e :: ·)
  | e :: '-' :: cs => (ungroup? Numeral.isDigit cs).map (e :: '-' :: ·)
  | e :: cs => (ungroup? Numeral.isDigit cs).map (e :: ·)

/-- A float in decimal notation, which has a fraction or an exponent and has to be finite. -/
def decimalFloat? (negative : Bool) (cs : List Char) : Option Setting := do
  let (mantissa, tail) := cs.span fun c => c ≠ 'e' && c ≠ 'E'
  let (whole, point) := mantissa.span fun c => c ≠ '.'
  let whole ← decimalDigits? whole
  let fraction ← fraction? point
  let exponent ← exponent? tail
  guard (!(fraction ++ exponent).isEmpty)
  let d ← Numeral.decimal? negative (whole ++ fraction ++ exponent)
  match d.datum with
  | .finite .. => some (.float d)
  | _ => none

def float? (cs : List Char) : Option Setting :=
  let (negative, rest) := Numeral.splitSign cs
  if rest = ['i', 'n', 'f'] then some (.float (Double.ofDatum (.infinite negative)))
  else if rest = ['n', 'a', 'n'] then some (.float (Double.ofDatum .nan))
  else decimalFloat? negative rest

def inRange (low high : Nat) (a b : Char) : Bool :=
  match Numeral.natural? [a, b] with
  | some n => low ≤ n && n ≤ high
  | none => false

def daysOf (year month : Nat) : Nat :=
  match month with
  | 2 => if year % 4 = 0 ∧ (year % 100 ≠ 0 ∨ year % 400 = 0) then 29 else 28
  | 4 | 6 | 9 | 11 => 30
  | _ => 31

def dropDate? : List Char → Option (List Char)
  | y1 :: y2 :: y3 :: y4 :: '-' :: m1 :: m2 :: '-' :: d1 :: d2 :: rest => do
    let year ← Numeral.natural? [y1, y2, y3, y4]
    let month ← Numeral.natural? [m1, m2]
    if inRange 1 12 m1 m2 && inRange 1 (daysOf year month) d1 d2 then some rest else none
  | _ => none

def dropFraction? : List Char → Option (List Char)
  | '.' :: d :: rest => if Numeral.isDigit d then some (rest.dropWhile Numeral.isDigit) else none
  | '.' :: _ => none
  | rest => some rest

def dropTime? : List Char → Option (List Char)
  | h1 :: h2 :: ':' :: m1 :: m2 :: rest =>
    if inRange 0 23 h1 h2 && inRange 0 59 m1 m2 then
      match rest with
      | ':' :: s1 :: s2 :: rest => if inRange 0 60 s1 s2 then dropFraction? rest else none
      | rest => some rest
    else none
  | _ => none

def isOffset : List Char → Bool
  | [] => true
  | ['Z'] | ['z'] => true
  | [sign, h1, h2, ':', m1, m2] =>
    (sign = '+' || sign = '-') && inRange 0 23 h1 h2 && inRange 0 59 m1 m2
  | _ => false

def isMoment (cs : List Char) : Bool :=
  match dropDate? cs with
  | some [] => true
  | some (separator :: rest) =>
    (separator = 'T' || separator = 't' || separator = ' ') &&
      (dropTime? rest).any isOffset
  | none => dropTime? cs = some []

/-- The value that a literal without marks spells. Dates and times are kept as text. -/
def bare? (cs : List Char) : Option Setting :=
  if cs = "true".toList then some (.bool true)
  else if cs = "false".toList then some (.bool false)
  else if isMoment cs then some (.text (String.ofList cs))
  else
    match integer? cs with
    | some s => some s
    | none => float? cs

def isBareChar (c : Char) : Bool := Setting.isKeyChar c || c = '+' || c = '.' || c = ':'

/-- The characters of a literal without marks. A blank may part a date from its time. -/
def bareChars : Scanner (List Char) := do
  let cs ← Scanner.takeSome isBareChar
  if dropDate? cs = some [] then
    match ← get with
    | ' ' :: d :: _ =>
      if Numeral.isDigit d then
        Scanner.expect ' '
        return cs ++ ' ' :: (← Scanner.takeWhile isBareChar)
      else return cs
    | _ => return cs
  else return cs

def bare : Scanner Setting := do
  match bare? (← bareChars) with
  | some s => return s
  | none => failure

end CborCodec.Toml
