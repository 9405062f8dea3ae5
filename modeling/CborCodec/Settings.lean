import CborCodec.Command.Arguments
import CborCodec.Setting.Path
import CborCodec.Toml
/-!
The settings of a run, in layers: defaults, a file, environment variables, and the command line.
-/

namespace CborCodec

structure Settings where
  logLevel : Option String
  options : Options
  deriving DecidableEq, Repr

namespace Settings

def variablePrefix : List Char := "cbor_tools_".toList

def fileVariable : String := "CBOR_TOOLS_CONFIG_FILE"

/-- Two underscores together are a point. -/
def pointed : List Char → List Char
  | '_' :: '_' :: cs => '.' :: pointed cs
  | c :: cs => c :: pointed cs
  | [] => []

def variableKey? (name : String) : Option String :=
  let cs := Numeral.lower name.toList
  if variablePrefix.isPrefixOf cs then
    some (String.ofList (pointed (cs.drop variablePrefix.length)))
  else none

/-- The setting that a variable's text stands for: a truth value, an integer, a float, or text. -/
def variableSetting (text : String) : Setting :=
  let cs := text.toList
  let lower := String.ofList (Numeral.lower cs)
  if lower = "true" then .bool true
  else if lower = "false" then .bool false
  else
    match Numeral.signed? cs, Numeral.float? cs with
    | some n, _ => .integer n
    | none, some d => .float d
    | none, none => .text text

def layer (members : List (String × Setting)) (key : String) (value : Setting) :
    List (String × Setting) :=
  (Setting.Path.ofKey key).put value members

def layers (file : List (String × Setting)) (environment : List (String × String)) :
    List (String × Setting) :=
  let base := file.foldl (fun members (key, value) => layer members key value) []
  environment.foldl (fun members (name, text) =>
    match variableKey? name with
    | some key => layer members key (variableSetting text)
    | none => members) base

def optionalText? : Option Setting → Option (Option String)
  | none => some none
  | some s => s.text?.map some

def optionsOrDefault? : Option Setting → Option Options
  | none => some {}
  | some s => s.options?

def ofMembers? (members : List (String × Setting)) : Option Settings := do
  let logLevel ← optionalText? (members.lookup "log_level")
  let options ← optionsOrDefault? (members.lookup "decode")
  return { logLevel := logLevel, options := options }

def withArguments (arguments : Arguments) (settings : Settings) : Settings where
  logLevel := arguments.logLevel <|> settings.logLevel
  options := { settings.options with mode := arguments.mode.getD settings.options.mode }

def fileName? (arguments : Arguments) (environment : List (String × String)) : Option String :=
  arguments.config <|> environment.lookup fileVariable

end Settings

end CborCodec
