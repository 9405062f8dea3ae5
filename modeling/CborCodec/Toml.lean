import CborCodec.Toml.Lexeme
import CborCodec.Toml.Table
/-!
TOML documents, read into settings.
-/

namespace CborCodec.Toml

/-- The elements between two brackets, parted by commas, perhaps with one after the last. -/
def listed {α : Type} (element : Scanner α) (close : Char) : Scanner (List α) :=
  Scanner.repeatUntil (fun before => do
    gap
    if ← Scanner.accept close then return .inr before.reverse
    else
      let a ← element
      gap
      if ← Scanner.accept ',' then return .inl (a :: before)
      else
        Scanner.expect close
        return .inr (a :: before).reverse) []

def pair (space : Scanner Unit) (value : Scanner Setting) : Scanner (List String × Setting) := do
  let path ← key
  space
  Scanner.expect '='
  space
  return (path, ← value)

/-- A table between braces, which nothing can extend. -/
def inlineTable (pairs : List (List String × Setting)) : Option Setting :=
  (pairs.foldlM (fun members (path, v) => Members.assign v path members) []).map fun members =>
    .table (settings members)

def scalar : Scanner Setting := do
  match ← Scanner.peek with
  | some c => if c = Quoted.quote ∨ c = apostrophe then return .text (← string c) else bare
  | none => failure

/-- A value with at most `depth` containers within each other. Lines may end between the parts of a
container. -/
def value : Nat → Scanner Setting
  | 0 => scalar
  | depth + 1 => do
    match ← Scanner.peek with
    | some '[' =>
      Scanner.expect '['
      return .array (← listed (value depth) ']')
    | some '{' =>
      Scanner.expect '{'
      match inlineTable (← listed (pair gap (value depth)) '}') with
      | some table => return table
      | none => failure
    | _ => scalar

inductive Statement where
  | table (path : List String)
  | element (path : List String)
  | assignment (path : List String) (value : Setting)

def header (close : List Char) : Scanner (List String) := do
  let path ← key
  Scanner.expectAll close
  return path

def statement : Scanner Statement := do
  if ← Scanner.acceptAll ['[', '['] then return .element (← header [']', ']'])
  else if ← Scanner.accept '[' then return .table (← header [']'])
  else
    let (path, v) ← pair blanks (value deepest)
    return .assignment path v

def statements : Scanner (List Statement) :=
  Scanner.repeatUntil (fun before => do
    gap
    if (← Scanner.peek).isNone then return .inr before.reverse
    else
      let s ← statement
      endOfLine
      return .inl (s :: before)) []

/-- A document of which some lines are read, and the path of its last header. -/
structure Reading where
  members : Members
  current : List String

def Reading.open? (change : String → Members → Option Members) (path : List String)
    (r : Reading) : Option Reading :=
  match path.getLast? with
  | some last =>
    (Members.within (change last) path.dropLast r.members).map fun members => ⟨members, path⟩
  | none => none

def Reading.add (r : Reading) : Statement → Option Reading
  | .table path => r.open? Members.openTable path
  | .element path => r.open? Members.openElement path
  | .assignment path v =>
    (Members.within (Members.assign v path) r.current r.members).map fun members =>
      { r with members := members }

def parse? (text : String) : Option (List (String × Setting)) := do
  let cs := match text.toList with
    | '\uFEFF' :: cs => cs
    | cs => cs
  let lines ← Scanner.parse? statements cs
  let r ← lines.foldlM Reading.add ⟨[], []⟩
  return settings r.members

end CborCodec.Toml
