import CborCodec.Setting
import CborCodec.Text.Scanner
/-!
Paths to settings, as in `decode.sizes[0]`: a name, and then names after points and indexes in
brackets. What is put at the end of a path makes the tables and arrays on the way.
-/

namespace CborCodec.Setting

inductive Step where
  | member (name : String)
  /-- To an element of an array. An index below zero counts from the end. -/
  | element (index : Int)
  deriving DecidableEq, Repr

structure Path where
  root : String
  steps : List Step
  deriving DecidableEq, Repr

def pathName : Scanner String := do return String.ofList (← Scanner.takeSome isKeyChar)

def pathIndex : Scanner Int := do
  let blanks := Scanner.takeWhile fun c => c = ' ' ∨ c = '\t'
  let _ ← blanks
  let sign := if ← Scanner.accept '-' then ['-'] else []
  let digits ← Scanner.takeSome Numeral.isDigit
  let _ ← blanks
  match Numeral.signed? (sign ++ digits) with
  | some i => return i
  | none => failure

def pathSteps : Scanner (List Step) :=
  Scanner.repeatUntil (fun before => do
    if ← Scanner.accept '.' then return .inl (.member (← pathName) :: before)
    else if ← Scanner.accept '[' then
      let i ← pathIndex
      Scanner.expect ']'
      return .inl (.element i :: before)
    else return .inr before.reverse) []

/-- The path that a key spells. A key that spells none is a name as it stands. -/
def Path.ofKey (key : String) : Path :=
  let path : Scanner Path := do return ⟨← pathName, ← pathSteps⟩
  (Scanner.parse? path key.toList).getD ⟨key, []⟩

def itemsOf : Option Setting → List Setting
  | some (array items) => items
  | _ => []

/-- Elements with room at an index, and its place among them. Empty tables fill the gap. -/
def roomAt (index : Int) (items : List Setting) : List Setting × Nat :=
  if 0 ≤ index then
    (items ++ List.replicate (index.toNat + 1 - items.length) (table []), index.toNat)
  else
    (List.replicate (index.natAbs - items.length) (table []) ++ items,
      items.length - index.natAbs)

/-- A setting laid over what is found some steps below another. What is no table or no array, where
the steps ask for one, becomes one. -/
def put (value : Setting) : List Step → Option Setting → Setting
  | [], below => laidOver below value
  | .member name :: steps, below =>
    let members := membersOf below
    table (replace name (put value steps (members.lookup name)) members)
  | .element index :: steps, below =>
    let (items, place) := roomAt index (itemsOf below)
    array (items.modify place fun item => put value steps (some item))

def Path.put (value : Setting) (path : Path) (members : List (String × Setting)) :
    List (String × Setting) :=
  replace path.root (Setting.put value path.steps (members.lookup path.root)) members

end CborCodec.Setting
