import CborCodec.Json
import CborCodec.Json.Document
import CborCodec.Options.Field
/-!
The options as JSON. They are an object, in which a field that is given has to be given once, or an
array of the fields in their order.
-/

namespace CborCodec

def Mode.ofDocument? : Document → Option Mode
  | .text units => (TextUnit.text? units).bind Mode.ofName?
  | .object [(key, .null)] => (TextUnit.text? key).bind Mode.ofName?
  | _ => none

namespace Options

def documentSpelling : OptionSpelling Document where
  mode := Mode.ofDocument?
  word := Document.word?

def namedMembers? (members : List (List TextUnit × Document)) :
    Option (List (String × Document)) :=
  members.mapM fun (key, d) => (TextUnit.text? key).map fun name => (name, d)

def givenOnce (members : List (String × Document)) : Bool :=
  decide (members.filterMap fun m => OptionField.ofName? m.1).Nodup

def ofDocument? : Document → Option Options
  | .array items =>
    if items.length ≤ OptionField.all.length then documentSpelling.ofList? items else none
  | .object members =>
    match namedMembers? members with
    | some members => if givenOnce members then documentSpelling.ofMembers? members else none
    | none => none
  | _ => none

def ofJson? (text : String) : Option Options :=
  (Document.parse? text).bind ofDocument?

def toJson (options : Options) : Json :=
  .object
    [("mode", .text options.mode.name),
      ("max_string_size", .integer options.maxStringSize.toNat),
      ("max_items", .integer options.maxItems.toNat),
      ("max_depth", .integer options.maxDepth.toNat)]

end Options

end CborCodec
