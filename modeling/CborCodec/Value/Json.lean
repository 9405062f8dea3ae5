import CborCodec.Json
import CborCodec.Text.Base64
import CborCodec.Value
/-!
Values as JSON. Tags, the difference between bytes and text, simple values without a name and
floats that are not finite are lost.
-/

namespace CborCodec.Value

/-- The integer `-1 - n`, as the nearest float where it lies below every signed word. -/
def negativeJson (n : UInt64) : Json :=
  if n.toNat < 0x8000000000000000 then .integer (-1 - n.toNat)
  else Json.ofDouble (Double.nearest Bool.true n.toNat 1)

/-- A key as text: text as it is, anything else by its compact JSON. -/
def keyText (key : Value) (json : Json) : String :=
  match key with
  | text s => s
  | _ => json.write Json.compact

mutual

def toJson : Value → Json
  | unsigned n => .integer n.toNat
  | negative n => negativeJson n
  | bytes b => .text (Base64.ofBytes b)
  | text s => .text s
  | array items => .array (itemsJson items)
  | map pairs => Json.ofMembers (membersJson pairs)
  | tag _ item => item.toJson
  | false => .bool Bool.false
  | true => .bool Bool.true
  | null | undefined | simple _ => .null
  | float d => Json.ofDouble d

def itemsJson : List Value → List Json
  | [] => []
  | item :: items => item.toJson :: itemsJson items

def membersJson : List (Value × Value) → List (String × Json)
  | [] => []
  | (key, value) :: pairs => (keyText key key.toJson, value.toJson) :: membersJson pairs

end

end CborCodec.Value
