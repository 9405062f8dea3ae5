import CborCodec.Options
import CborCodec.Text.Numeral
/-!
The command line. Switches may stand before or after the name of the command, each once on either
side, and what stands after it counts.
-/

namespace CborCodec

inductive Endpoint where
  | standard
  | file (path : String)
  deriving DecidableEq, Repr

namespace Endpoint

def ofInput (s : String) : Endpoint := if s = "-" then standard else file s

def ofOutput (s : String) : Endpoint := if s = "" ∨ s = "-" then standard else file s

def inputName : Endpoint → String
  | standard => "<stdin>"
  | file path => path

def outputName : Endpoint → String
  | standard => "<stdout>"
  | file path => path

end Endpoint

inductive Format where
  | diagnostic
  | json
  | hex
  deriving DecidableEq, Repr

def Format.ofName? : String → Option Format
  | "diag" | "diagnostic" => some diagnostic
  | "json" => some json
  | "hex" => some hex
  | _ => none

inductive Job where
  /-- Show every item. -/
  | inspect (format : Format) (output : Endpoint)
  /-- Check every item. -/
  | validate (quiet : Bool)
  /-- Copy the item at an index. -/
  | extract (index : UInt64) (output : Endpoint)
  deriving DecidableEq, Repr

structure Arguments where
  config : Option String
  logLevel : Option String
  mode : Option Mode
  job : Job
  input : Endpoint
  deriving DecidableEq, Repr

inductive Refusal where
  | usage
  | help
  | version
  deriving DecidableEq, Repr

inductive Switch where
  | config
  | logLevel
  | mode
  | format
  | output
  | index
  | quiet
  | help
  | version
  deriving DecidableEq, Repr

namespace Switch

def letter? : Switch → Option Char
  | config => some 'c'
  | output => some 'o'
  | index => some 'n'
  | quiet => some 'q'
  | help => some 'h'
  | version => some 'V'
  | logLevel | mode | format => none

def name : Switch → String
  | config => "config"
  | logLevel => "log-level"
  | mode => "mode"
  | format => "format"
  | output => "output"
  | index => "index"
  | quiet => "quiet"
  | help => "help"
  | version => "version"

def isValued : Switch → Bool
  | config | logLevel | mode | format | output | index => true
  | quiet | help | version => false

def takes : Switch → String → Bool
  | mode, s => (Mode.ofName? s).isSome
  | format, s => (Format.ofName? s).isSome
  | index, s => (Numeral.word? s.toList).isSome
  | _, _ => true

def shared : List Switch := [config, logLevel, mode, help]

end Switch

structure CommandSide where
  switches : List Switch
  /-- The greatest number of operands. -/
  operands : Nat
  /-- The words that end this side. -/
  isCommand : String → Bool

structure CommandWords where
  given : List (Switch × String)
  operands : List String
  /-- The switch whose value comes next. -/
  awaiting : Option Switch

namespace CommandWords

def empty : CommandWords := ⟨[], [], none⟩

/-- Notes a switch with its value, which has to mean something to it; it may be given once. -/
def give (switch : Switch) (value : String) (r : CommandWords) : Except Refusal CommandWords :=
  if switch = .help then .error .help
  else if switch = .version then .error .version
  else if (r.given.lookup switch).isSome || !switch.takes value then .error .usage
  else .ok { r with given := r.given ++ [(switch, value)], awaiting := none }

/-- Reads the letters after a single dash. The rest after a switch with a value is that value. -/
def letters (switches : List Switch) : List Char → CommandWords → Except Refusal CommandWords
  | [], r => .ok r
  | c :: cs, r =>
    match switches.find? fun s => s.letter? = some c with
    | none => .error .usage
    | some s =>
      if s.isValued then
        match cs with
        | [] => .ok { r with awaiting := some s }
        | '=' :: value => r.give s (String.ofList value)
        | value => r.give s (String.ofList value)
      else do letters switches cs (← r.give s "")

def named (switches : List Switch) (cs : List Char) (r : CommandWords) :
    Except Refusal CommandWords :=
  let (name, tail) := cs.span fun c => c ≠ '='
  match switches.find? (fun s => s.name = String.ofList name), tail with
  | none, _ => .error .usage
  | some s, [] => if s.isValued then .ok { r with awaiting := some s } else r.give s ""
  | some s, _ :: value =>
    if s.isValued then r.give s (String.ofList value) else .error .usage

def operand (side : CommandSide) (w : String) (r : CommandWords) : Except Refusal CommandWords :=
  if r.operands.length < side.operands then .ok { r with operands := r.operands ++ [w] }
  else .error .usage

/-- Reads one word. A value that stands by itself does not begin with a dash, unless it is one. -/
def word (side : CommandSide) (w : String) (r : CommandWords) : Except Refusal CommandWords :=
  match w.toList, r.awaiting with
  | '-' :: _ :: _, some _ => .error .usage
  | _, some switch => r.give switch w
  | '-' :: '-' :: cs, none => r.named side.switches cs
  | '-' :: c :: cs, none => r.letters side.switches (c :: cs)
  | _, none => r.operand side w

/-- Reads words up to the first that is the name of a command, and answers those from it on. After
two dashes alone every word is an operand. -/
def words (side : CommandSide) :
    List String → CommandWords → Except Refusal (CommandWords × List String)
  | [], r => if r.awaiting.isNone then .ok (r, []) else .error .usage
  | w :: ws, r =>
    if r.awaiting.isNone && side.isCommand w then .ok (r, w :: ws)
    else if r.awaiting.isNone && w = "--" then do
      return (← ws.foldlM (fun r w => r.operand side w) r, [])
    else do words side ws (← r.word side w)

def value? (r : CommandWords) (switch : Switch) : Option String := r.given.lookup switch

end CommandWords

namespace Arguments

def switchesOf : String → Option (List Switch)
  | "inspect" => some [Switch.format, Switch.output]
  | "validate" => some [Switch.quiet]
  | "extract" => some [Switch.index, Switch.output]
  | _ => none

def isCommand (w : String) : Bool := (switchesOf w).isSome || w = "help"

def jobOf (command : String) (r : CommandWords) : Job :=
  let output := ((r.value? .output).map Endpoint.ofOutput).getD .standard
  match command with
  | "inspect" => .inspect (((r.value? .format).bind Format.ofName?).getD .diagnostic) output
  | "validate" => .validate (r.value? .quiet).isSome
  | _ =>
    .extract (((r.value? .index).bind fun s => Numeral.word? s.toList).getD 0) output

/-- The arguments of a command, from what was read before its name and after it. -/
def combine (command : String) (before after : CommandWords) : Except Refusal Arguments :=
  let value? (switch : Switch) := after.value? switch <|> before.value? switch
  match after.operands with
  | [input] =>
    .ok {
      config := value? .config
      logLevel := value? .logLevel
      mode := (value? .mode).bind Mode.ofName?
      job := jobOf command after
      input := Endpoint.ofInput input }
  | _ => .error .usage

def helpOn : List String → Refusal
  | [] => .help
  | [command] => if isCommand command then .help else .usage
  | _ => .usage

def firstSide : CommandSide where
  switches := Switch.version :: Switch.shared
  operands := 0
  isCommand := isCommand

def secondSide (switches : List Switch) : CommandSide where
  switches := switches ++ Switch.shared
  operands := 1
  isCommand _ := false

def ofWords (ws : List String) : Except Refusal Arguments := do
  let (before, rest) ← CommandWords.empty.words firstSide ws
  match rest with
  | [] => throw .usage
  | command :: ws =>
    match switchesOf command with
    | none => throw (helpOn ws)
    | some switches =>
      let (after, _) ← CommandWords.empty.words (secondSide switches) ws
      combine command before after

end Arguments

end CborCodec
