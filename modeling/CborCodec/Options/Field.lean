import CborCodec.Options
/-!
The options by name or by position, for formats that hold them.
-/

namespace CborCodec

inductive OptionField where
  | mode
  | maxStringSize
  | maxItems
  | maxDepth
  deriving DecidableEq, Repr

namespace OptionField

def name : OptionField → String
  | mode => "mode"
  | maxStringSize => "max_string_size"
  | maxItems => "max_items"
  | maxDepth => "max_depth"

def all : List OptionField := [mode, maxStringSize, maxItems, maxDepth]

def ofName? (s : String) : Option OptionField :=
  all.find? (fun f => f.name == s)

end OptionField

structure OptionSpelling (α : Type) where
  mode : α → Option Mode
  word : α → Option UInt64

namespace OptionSpelling

variable {α : Type}

def set (spelling : OptionSpelling α) (field : OptionField) (a : α) (options : Options) :
    Option Options :=
  match field with
  | .mode => (spelling.mode a).map fun m => { options with mode := m }
  | .maxStringSize => (spelling.word a).map fun n => { options with maxStringSize := n }
  | .maxItems => (spelling.word a).map fun n => { options with maxItems := n }
  | .maxDepth => (spelling.word a).map fun n => { options with maxDepth := n }

/-- Takes the fields by position. What is missing keeps its default. -/
def ofList? (spelling : OptionSpelling α) (items : List α) : Option Options :=
  (OptionField.all.zip items).foldlM (fun options (field, a) => spelling.set field a options) {}

/-- Takes the fields by name. What is missing keeps its default, and other names mean nothing. -/
def ofMembers? (spelling : OptionSpelling α) (members : List (String × α)) : Option Options :=
  members.foldlM (fun options (key, a) =>
    match OptionField.ofName? key with
    | some field => spelling.set field a options
    | none => some options) {}

end OptionSpelling

end CborCodec
