import CborCodec.Command
/-!
The program on the real system.
-/

namespace CborCodec

def osCause : IO.Error → String
  | .noFileOrDirectory _ code text | .permissionDenied _ code text
  | .inappropriateType _ code text | .alreadyExists _ code text
  | .invalidArgument _ code text | .resourceExhausted _ code text =>
    text ++ " (os error " ++ toString code ++ ")"
  | e => toString e

def attempted {α : Type} (action : IO α) : IO (Except String α) := do
  try
    return .ok (← action)
  catch e =>
    return .error (osCause e)

/-- Everything that a stream still gives. -/
partial def drain (stream : IO.FS.Stream) (before : ByteArray) : IO ByteArray := do
  let more ← stream.read 65536
  if more.isEmpty then return before else drain stream (before ++ more)

def variableOf (entry : Bytes) : String × String :=
  let (name, value) := entry.span (· != 61)
  (Bytes.toTextLossy name, Bytes.toTextLossy (value.drop 1))

def processEnvironment : IO (List (String × String)) := do
  match ← attempted (IO.FS.readBinFile "/proc/self/environ") with
  | .ok bytes =>
    let entries := bytes.toList.splitOn 0
    return (entries.filter (!·.isEmpty)).map variableOf
  | .error _ => return []

def realSystem : System IO where
  isFile path := do return (← attempted (IO.FS.readBinFile path)).isOk
  readFile path := attempted do return (← IO.FS.readBinFile path).toList
  writeFile path bytes := attempted (IO.FS.writeBinFile path ⟨bytes.toArray⟩)
  readInput := attempted do return (← drain (← IO.getStdin) .empty).toList
  writeOutput bytes := attempted do
    let stdout ← IO.getStdout
    stdout.write ⟨bytes.toArray⟩
    stdout.flush
  environment := processEnvironment
  log line := IO.eprintln line

def usageText : String :=
  "Usage: cbor [-c FILE] [--log-level LEVEL] [--mode lenient|canonical|strict] COMMAND\n\n" ++
  "Commands:\n" ++
  "  inspect [--format diag|json|hex] [-o FILE] INPUT\n" ++
  "  validate [-q] INPUT\n" ++
  "  extract [-n INDEX] [-o FILE] INPUT\n\n" ++
  "An INPUT of - is the standard input."

def announce : Command.Outcome → IO Unit
  | .done => pure ()
  | .failed failure => IO.eprintln ("Error: " ++ failure.message)
  | .refused .usage => IO.eprintln usageText
  | .refused .help => IO.println usageText
  | .refused .version => IO.println "cbor 0.1.0"

end CborCodec

def main (words : List String) : IO UInt32 := do
  let outcome ← CborCodec.Command.start CborCodec.realSystem words
  CborCodec.announce outcome
  return outcome.status.toUInt32
