import CborCodec.Float.Decimal
import CborCodec.Text.Quoted
/-!
JSON values and their text, on one line or indented.
-/

namespace CborCodec

/-- A JSON value. The members of an object are in the order in which they are written. -/
inductive Json where
  | null
  | bool (b : Bool)
  | integer (n : Int)
  | float (d : Double)
  | text (s : String)
  | array (items : List Json)
  | object (members : List (String × Json))
  deriving Inhabited

namespace Json

/-- Floats have the fewest digits that read back, and always a point or an exponent. From 1e-5 up
to below 1e16 they are written positionally. -/
def floatStyle : FloatStyle where
  lowest := -5
  highest := 16
  pointed := true
  plus := true
  tie := .toEven
  nan := "null"
  infinity := "null"

def ofDouble (d : Double) : Json :=
  match d.datum with
  | .finite .. => float d
  | _ => null

/-- Sorts members by key. Of several with one key the last is kept. -/
def ofMembers (members : List (String × Json)) : Json :=
  let sorted := members.mergeSort fun a b => a.1 ≤ b.1
  object <| sorted.foldr (fun m kept =>
    if (kept.head?.map (·.1)) = some m.1 then kept else m :: kept) []

structure Layout where
  /-- What goes before an element, or before the closing bracket, at this depth. -/
  separate : Nat → List Char
  colon : List Char

def compact : Layout where
  separate _ := []
  colon := [':']

def indented : Layout where
  separate depth := '\n' :: List.replicate (2 * depth) ' '
  colon := [':', ' ']

def keyOnto (layout : Layout) (key : String) (rest : List Char) : List Char :=
  Quoted.onto key (layout.colon ++ rest)

mutual

def onto (layout : Layout) (depth : Nat) : Json → List Char → List Char
  | null, rest => "null".toList ++ rest
  | bool true, rest => "true".toList ++ rest
  | bool false, rest => "false".toList ++ rest
  | integer n, rest => (toString n).toList ++ rest
  | float d, rest => (floatStyle.write d).toList ++ rest
  | text s, rest => Quoted.onto s rest
  | array [], rest => '[' :: ']' :: rest
  | array (item :: items), rest =>
    '[' :: (layout.separate (depth + 1) ++ item.onto layout (depth + 1)
      (itemsOnto layout depth items rest))
  | object [], rest => '{' :: '}' :: rest
  | object ((key, value) :: members), rest =>
    '{' :: (layout.separate (depth + 1) ++ keyOnto layout key
      (value.onto layout (depth + 1) (membersOnto layout depth members rest)))

def itemsOnto (layout : Layout) (depth : Nat) : List Json → List Char → List Char
  | [], rest => layout.separate depth ++ ']' :: rest
  | item :: items, rest =>
    ',' :: (layout.separate (depth + 1) ++ item.onto layout (depth + 1)
      (itemsOnto layout depth items rest))

def membersOnto (layout : Layout) (depth : Nat) : List (String × Json) → List Char → List Char
  | [], rest => layout.separate depth ++ '}' :: rest
  | (key, value) :: members, rest =>
    ',' :: (layout.separate (depth + 1) ++ keyOnto layout key
      (value.onto layout (depth + 1) (membersOnto layout depth members rest)))

end

def write (layout : Layout) (json : Json) : String :=
  String.ofList (json.onto layout 0 [])

end Json

end CborCodec
