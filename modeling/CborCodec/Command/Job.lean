import CborCodec.Command.Arguments
import CborCodec.Command.Failure
import CborCodec.Log
import CborCodec.Sequence
import CborCodec.Value.Diagnostic
import CborCodec.Value.Json
/-!
The jobs themselves: what is made of the bytes of an input, and what is reported on the way. Reports
outlive a failure.
-/

namespace CborCodec

abbrev Work := EStateM Failure (Array LogRecord)

namespace Work

def report (level : Level) (topic text : String) : Work Unit :=
  modify fun records => records.push ⟨level, topic, text⟩

def place (what : String) (offset : Nat) (item : Bytes) : String :=
  what ++ " at offset " ++ toString offset ++ ", " ++ toString item.length ++ " bytes"

def shownValue (format : Format) (v : Value) : String :=
  match format with
  | .json => v.toJson.write Json.indented
  | .diagnostic | .hex => v.diagnostic

/-- The line or lines that show an item. In hexadecimal form the item need not have a value. -/
def show? (format : Format) (options : Options) (offset : Nat) (item : Bytes) : Work String := do
  match format with
  | .hex =>
    report .debug "inspect" (place "Item" offset item)
    return Bytes.toHex item
  | .diagnostic | .json =>
    match decodeBytes (Value.decode options) item with
    | .error e => throw (.noValue offset e)
    | .ok (v, _) =>
      report .debug "inspect" (place v.typeName offset item)
      return shownValue format v

def inspect (format : Format) (options : Options) (input : String) (data : Bytes) :
    Work Bytes := do
  report .info "inspect" ("Read " ++ toString data.length ++ " bytes from " ++ input)
  let parts := Sequence.split options data
  let lines ← parts.items.toList.mapM fun (offset, item) => show? format options offset item
  match parts.failure with
  | some (offset, e) => throw (.noItem offset e)
  | none => return Bytes.ofText ("\n".intercalate lines ++ "\n")

def validate (quiet : Bool) (options : Options) (input : String) (data : Bytes) :
    Work Bytes := do
  report .info "validate" ("Validating " ++ toString data.length ++ " bytes from " ++ input ++
    " in " ++ options.mode.title ++ " mode")
  let parts := Sequence.split options data
  let count := parts.items.size
  for ((offset, item), index) in parts.items.toList.zipIdx do
    report .debug "validate" (place ("Item " ++ toString index) offset item)
  match parts.failure with
  | some (offset, e) =>
    report .error "validate" (Failure.invalid count offset e).message
    throw (.invalid count offset e)
  | none =>
    if quiet then return []
    else
      return Bytes.ofText (input ++ ": " ++ toString count ++ " valid item(s), " ++
        toString data.length ++ " bytes\n")

def extract (index : UInt64) (options : Options) (data : Bytes) : Work Bytes := do
  match Sequence.extract options data index.toNat with
  | .error (.tooFew count) => throw (.tooFewItems count)
  | .error (.invalid i offset e) => throw (.uncopied i offset e)
  | .ok (offset, item) =>
    report .debug "extract" ("Item " ++ toString index.toNat ++ " spans offsets " ++
      toString offset ++ ".." ++ toString (offset + item.length))
    report .info "extract" ("Extracted item " ++ toString index.toNat ++ " (" ++
      toString item.length ++ " bytes)")
    return item

end Work

namespace Job

def work (job : Job) (options : Options) (input : String) (data : Bytes) : Work Bytes :=
  match job with
  | inspect format _ => Work.inspect format options input data
  | validate quiet => Work.validate quiet options input data
  | extract index _ => Work.extract index options data

def output : Job → Endpoint
  | inspect _ output => output
  | validate _ => .standard
  | extract _ output => output

end Job

end CborCodec
