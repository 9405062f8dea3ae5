import CborCodec.Float.Decimal
import CborCodec.Text.Quoted
import CborCodec.Value
/-!
Diagnostic notation: one line of text that shows the structure of a value.
-/

namespace CborCodec.Value

/-- Floats have the fewest digits that read back. From 1e-4 up to below 1e16 they are written
positionally, with a point that tells them from integers. -/
def diagnosticFloat : FloatStyle where
  lowest := -4
  highest := 16
  pointed := Bool.true
  plus := Bool.false
  tie := .up
  nan := "NaN"
  infinity := "Infinity"

def digitsOnto (n : Nat) (rest : List Char) : List Char :=
  Nat.toDigits 10 n ++ rest

def apostrophe : Char := Char.ofNat 39

def bytesOnto (b : Bytes) (rest : List Char) : List Char :=
  'h' :: apostrophe :: ((Bytes.toHex b).toList ++ apostrophe :: rest)

mutual

def diagnosticOnto : Value → List Char → List Char
  | unsigned n, rest => digitsOnto n.toNat rest
  | negative n, rest => '-' :: digitsOnto (n.toNat + 1) rest
  | bytes b, rest => bytesOnto b rest
  | text s, rest => Quoted.onto s rest
  | array [], rest => '[' :: ']' :: rest
  | array (item :: items), rest => '[' :: item.diagnosticOnto (itemsOnto items rest)
  | map [], rest => '{' :: '}' :: rest
  | map ((key, value) :: pairs), rest =>
    '{' :: key.diagnosticOnto (':' :: ' ' :: value.diagnosticOnto (pairsOnto pairs rest))
  | tag number item, rest =>
    digitsOnto number.toNat ('(' :: item.diagnosticOnto (')' :: rest))
  | false, rest => "false".toList ++ rest
  | true, rest => "true".toList ++ rest
  | null, rest => "null".toList ++ rest
  | undefined, rest => "undefined".toList ++ rest
  | simple n, rest => "simple(".toList ++ digitsOnto n.toNat (')' :: rest)
  | float d, rest => (diagnosticFloat.write d).toList ++ rest

def itemsOnto : List Value → List Char → List Char
  | [], rest => ']' :: rest
  | item :: items, rest => ',' :: ' ' :: item.diagnosticOnto (itemsOnto items rest)

def pairsOnto : List (Value × Value) → List Char → List Char
  | [], rest => '}' :: rest
  | (key, value) :: pairs, rest =>
    ',' :: ' ' :: key.diagnosticOnto (':' :: ' ' :: value.diagnosticOnto (pairsOnto pairs rest))

end

def diagnostic (v : Value) : String :=
  String.ofList (v.diagnosticOnto [])

end CborCodec.Value
