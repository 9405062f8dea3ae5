import CborCodec.Bytes
import CborCodec.Text.Numeral
import CborCodec.Text.Quoted
import CborCodec.Text.Scanner
/-!
JSON texts as they are written: numbers by their literals, strings by their characters and the code
units of their escapes. A string with half a surrogate pair is a document all the same, but it
spells no text.
-/

namespace CborCodec

inductive TextUnit where
  | char (c : Char)
  /-- The 16-bit code unit of a numeric escape. -/
  | escaped (unit : Nat)
  deriving DecidableEq, Repr

inductive Document where
  | null
  | bool (b : Bool)
  | number (literal : List Char)
  | text (units : List TextUnit)
  | array (items : List Document)
  | object (members : List (List TextUnit × Document))
  deriving Inhabited

namespace TextUnit

/-- The characters that units spell; surrogates have to come in pairs. -/
def spell? : List TextUnit → Option (List Char)
  | [] => some []
  | .char c :: rest => (spell? rest).map (c :: ·)
  | .escaped high :: rest =>
    if high / 1024 = 54 then
      match rest with
      | .escaped low :: rest =>
        if low / 1024 = 55 then
          (spell? rest).map (Char.ofNat (65536 + high % 1024 * 1024 + low % 1024) :: ·)
        else none
      | _ => none
    else if high / 1024 = 55 then none
    else (spell? rest).map (Char.ofNat high :: ·)

def text? (units : List TextUnit) : Option String := (spell? units).map String.ofList

end TextUnit

namespace Document

def blanks : Scanner Unit := do
  let _ ← Scanner.takeWhile fun c => c = ' ' ∨ c = '\n' ∨ c = '\r' ∨ c = '\t'

/-- The unit of a numeric escape, whose four digits come next. -/
def hexUnit : Scanner Nat := do
  let mut unit := 0
  for _ in [0, 1, 2, 3] do
    match Bytes.hexValue? (← Scanner.next) with
    | some d => unit := unit * 16 + d
    | none => failure
  return unit

def escaped : Scanner TextUnit := do
  match ← Scanner.next with
  | 'b' => return .char (Char.ofNat 8)
  | 'f' => return .char (Char.ofNat 12)
  | 'n' => return .char '\n'
  | 'r' => return .char '\r'
  | 't' => return .char '\t'
  | '/' => return .char '/'
  | 'u' => return .escaped (← hexUnit)
  | c => if c = Quoted.quote ∨ c = Quoted.backslash then return .char c else failure

def textRest : Scanner (List TextUnit) :=
  Scanner.repeatUntil (fun before => do
    let c ← Scanner.next
    if c = Quoted.quote then return .inr before.reverse
    else if c = Quoted.backslash then return .inl ((← escaped) :: before)
    else if c.toNat < 32 then failure
    else return .inl (.char c :: before)) []

def digits : Scanner (List Char) := Scanner.takeSome Numeral.isDigit

def wholePart : Scanner (List Char) := do
  if ← Scanner.accept '0' then return ['0'] else digits

def fractionPart : Scanner (List Char) := do
  if ← Scanner.accept '.' then return '.' :: (← digits) else return []

def exponentPart : Scanner (List Char) := do
  match ← Scanner.takeWhile fun c => c = 'e' ∨ c = 'E' with
  | [] => return []
  | [e] =>
    let sign ← match ← Scanner.peek with
      | some '+' | some '-' => do pure [← Scanner.next]
      | _ => pure []
    return e :: sign ++ (← digits)
  | _ => failure

def numberLiteral : Scanner (List Char) := do
  let sign := if ← Scanner.accept '-' then ['-'] else []
  let n ← wholePart
  let f ← fractionPart
  let e ← exponentPart
  return sign ++ n ++ f ++ e

def listed {α : Type} (element : Scanner α) (close : Char) : Scanner (List α) := do
  blanks
  if ← Scanner.accept close then return []
  else
    Scanner.repeatUntil (fun before => do
      let a ← element
      blanks
      if ← Scanner.accept ',' then return .inl (a :: before)
      else
        Scanner.expect close
        return .inr (a :: before).reverse) []

def member (value : Scanner Document) : Scanner (List TextUnit × Document) := do
  blanks
  Scanner.expect Quoted.quote
  let key ← textRest
  blanks
  Scanner.expect ':'
  return (key, ← value)

def value : Nat → Scanner Document
  | 0 => failure
  | depth + 1 => do
    blanks
    match ← Scanner.peek with
    | some '[' =>
      Scanner.expect '['
      return .array (← listed (value depth) ']')
    | some '{' =>
      Scanner.expect '{'
      return .object (← listed (member (value depth)) '}')
    | some 'n' =>
      Scanner.expectAll "null".toList
      return .null
    | some 't' =>
      Scanner.expectAll "true".toList
      return .bool true
    | some 'f' =>
      Scanner.expectAll "false".toList
      return .bool false
    | some c =>
      if c = Quoted.quote then
        Scanner.expect c
        return .text (← textRest)
      else return .number (← numberLiteral)
    | none => failure

/-- One value with blanks around it. A text cannot nest deeper than it is long. -/
def parse? (text : String) : Option Document :=
  let cs := text.toList
  Scanner.parse? (do let d ← value (cs.length + 1); blanks; return d) cs

def word? : Document → Option UInt64
  | number literal => Numeral.word? literal
  | _ => none

end Document

end CborCodec
