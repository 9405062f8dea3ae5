import CborCodec.Command
/-!
A system in memory: a folder of files, the standard streams and the variables, on which a run is a
function.
-/

namespace CborCodec

inductive FileError where
  | notFound
  | notFolder
  | isFolder
  | nameTooLong
  deriving DecidableEq, Repr

def FileError.message : FileError → String
  | notFound => "No such file or directory (os error 2)"
  | notFolder => "Not a directory (os error 20)"
  | isFolder => "Is a directory (os error 21)"
  | nameTooLong => "File name too long (os error 36)"

/-- A system in memory. Files are found by the names that lead to them from the folder of the run.
There is a folder wherever a name leads on to a file. -/
structure MemorySystem where
  files : List (List String × Bytes)
  environment : List (String × String)
  input : Bytes
  output : Bytes
  log : Array String

namespace MemorySystem

def namesOf (path : String) : List String :=
  ((path.toList.splitOn '/').map String.ofList).filter (!·.isEmpty)

def ofFiles (files : List (String × Bytes)) (environment : List (String × String))
    (input : Bytes) : MemorySystem where
  files := files.map fun (path, bytes) => ((namesOf path).filter (· ≠ "."), bytes)
  environment := environment
  input := input
  output := []
  log := #[]

inductive Place where
  | file (names : List String) (bytes : Bytes)
  | folder (names : List String)
  /-- A name that its folder does not have. -/
  | free (names : List String)
  /-- A folder above the one of the run. Nothing is known of what is in it. -/
  | outside
  /-- The file that holds nothing and keeps nothing. -/
  | null

def placeAt (s : MemorySystem) (names : List String) : Place :=
  match s.files.lookup names with
  | some bytes => .file names bytes
  | none =>
    if s.files.any fun (other, _) => names.isPrefixOf other then .folder names else .free names

/-- Goes on from a place by one name. A point stands for the folder itself and two for the one
above it, and neither leads on from what is no folder. -/
def step (s : MemorySystem) (place : Place) (name : String) : Except FileError Place :=
  match place with
  | .file .. | .null => .error .notFolder
  | .free _ => .error .notFound
  | .outside => if name = "." ∨ name = ".." then .ok .outside else .error .notFound
  | .folder names =>
    if name = "." then .ok place
    else if name = ".." then
      .ok (if names.isEmpty then .outside else .folder names.dropLast)
    else if 255 < name.utf8ByteSize then .error .nameTooLong
    else .ok (s.placeAt (names ++ [name]))

def follow (s : MemorySystem) (path : String) : Except FileError Place :=
  if path = "" then .error .notFound
  else if 4096 ≤ path.utf8ByteSize then .error .nameTooLong
  else if path = "/dev/null" then .ok .null
  else
    (namesOf path).foldlM s.step
      (if path.toList.head? = some '/' then .outside else .folder [])

def endsOpen (path : String) : Bool := path.toList.getLast? = some '/'

def hasFile (s : MemorySystem) (path : String) : Bool :=
  match s.follow path with
  | .ok (.file ..) => !endsOpen path
  | _ => false

def read (s : MemorySystem) (path : String) : Except FileError Bytes := do
  match ← s.follow path with
  | .file _ bytes => if endsOpen path then throw .notFolder else return bytes
  | .null => return []
  | .folder _ | .outside => throw .isFolder
  | .free _ => throw .notFound

def write (s : MemorySystem) (path : String) (bytes : Bytes) : Except FileError MemorySystem := do
  match ← s.follow path with
  | .file names _ | .free names =>
    if endsOpen path then throw .isFolder
    else
      let others := s.files.filter fun (other, _) => other ≠ names
      return { s with files := (names, bytes) :: others }
  | .null => return s
  | .folder _ | .outside => throw .isFolder

def system : System (StateM MemorySystem) where
  isFile path := do return (← get).hasFile path
  readFile path := do return ((← get).read path).mapError FileError.message
  writeFile path bytes := do
    match (← get).write path bytes with
    | .ok s =>
      set s
      return .ok ()
    | .error e => return .error e.message
  readInput := do return .ok (← get).input
  writeOutput bytes := do
    modify fun s => { s with output := s.output ++ bytes }
    return .ok ()
  environment := do return (← get).environment
  log line := modify fun s => { s with log := s.log.push line }

def start (words : List String) (s : MemorySystem) : Command.Outcome × MemorySystem :=
  (Command.start system words).run s

end MemorySystem

end CborCodec
