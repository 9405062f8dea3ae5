import CborCodec.Command.Job
import CborCodec.Settings
import CborCodec.Text.Lossy
/-!
A whole run of the program, on any system that can read and write files: settings first, then the
input, then the work, then the output.
-/

namespace CborCodec

/-- What a run needs of the system it is on. Failures of files are texts. -/
structure System (m : Type → Type) where
  isFile : String → m Bool
  readFile : String → m (Except String Bytes)
  writeFile : String → Bytes → m (Except String Unit)
  readInput : m (Except String Bytes)
  writeOutput : Bytes → m (Except String Unit)
  environment : m (List (String × String))
  log : String → m Unit

namespace Command

variable {m : Type → Type} [Monad m]

abbrev Run (m : Type → Type) := ExceptT Failure m

def settle {α : Type} (result : Except Failure α) : Run m α := ExceptT.mk (pure result)

/-- A name with an ending. Points that only stand for the folder before them are left out; two
points cannot be lengthened. -/
def lengthened? (name : String) : Option String :=
  let parts := (name.toList.splitOn '/').map String.ofList
  match parts.reverse.dropWhile fun part => part = "" ∨ part = "." with
  | [] | ".." :: _ => none
  | last :: before => some (String.intercalate "/" ((last ++ ".toml") :: before).reverse)

def locate (system : System m) (name : String) : Run m String := do
  if ← system.isFile name then return name
  else
    match lengthened? name with
    | some longer => if ← system.isFile longer then return longer else throw .settings
    | none => throw .settings

def withoutMark : Bytes → Bytes
  | 0xEF :: 0xBB :: 0xBF :: rest => rest
  | bs => bs

def readSettings (system : System m) : Option String → Run m (List (String × Setting))
  | none => return []
  | some name => do
    let path ← locate system name
    match ← system.readFile path with
    | .error _ => throw .settings
    | .ok bytes =>
      match Toml.parse? (Bytes.toTextLossy (withoutMark bytes)) with
      | some members => return members
      | none => throw .settings

def settingsRecord (file : Option String) : LogRecord :=
  { level := .info
    topic := "settings"
    text :=
      match file with
      | some name =>
        "Using configuration file " ++ String.singleton (Char.ofNat 39) ++ name ++
          String.singleton (Char.ofNat 39)
      | none => "No configuration file, using defaults and environment" }

def logAll (system : System m) (filter : LogFilter) : List LogRecord → m Unit
  | [] => pure ()
  | record :: records => do
    if record.passes filter then system.log (record.line filter)
    logAll system filter records

def setUp (system : System m) (arguments : Arguments) : Run m (Options × LogFilter) := do
  let environment ← system.environment
  let file := Settings.fileName? arguments environment
  let members ← readSettings system file
  match Settings.ofMembers? (Settings.layers members environment) with
  | none => throw .settings
  | some settings =>
    let settings := settings.withArguments arguments
    match LogFilter.ofText? (settings.logLevel.getD "warn") with
    | none => throw .logLevel
    | some filter =>
      ExceptT.lift (logAll system filter [settingsRecord file])
      return (settings.options, filter)

def readAll (system : System m) (input : Endpoint) : Run m Bytes := do
  let result ← match input with
    | .standard => system.readInput
    | .file path => system.readFile path
  settle (result.mapError (Failure.unreadable input.inputName))

def writeAll (system : System m) (output : Endpoint) (bytes : Bytes) : Run m Unit := do
  let result ← match output with
    | .standard => system.writeOutput bytes
    | .file path => system.writeFile path bytes
  settle (result.mapError (Failure.unwritable output.outputName))

def perform {α : Type} (system : System m) (filter : LogFilter) (work : Work α) : Run m α := do
  match work #[] with
  | .ok a records =>
    ExceptT.lift (logAll system filter records.toList)
    return a
  | .error e records =>
    ExceptT.lift (logAll system filter records.toList)
    throw e

def run (system : System m) (arguments : Arguments) : m (Except Failure Unit) := ExceptT.run do
  let (options, filter) ← setUp system arguments
  let data ← readAll system arguments.input
  let result ← perform system filter
    (arguments.job.work options arguments.input.inputName data)
  writeAll system arguments.job.output result

inductive Outcome where
  | done
  | failed (failure : Failure)
  | refused (refusal : Refusal)
  deriving DecidableEq, Repr

def Outcome.status : Outcome → UInt8
  | done => 0
  | failed _ => 1
  | refused .usage => 2
  | refused .help | refused .version => 0

def start (system : System m) (words : List String) : m Outcome := do
  match Arguments.ofWords words with
  | .error refusal => return .refused refusal
  | .ok arguments =>
    match ← run system arguments with
    | .ok () => return .done
    | .error failure => return .failed failure

end Command

end CborCodec
