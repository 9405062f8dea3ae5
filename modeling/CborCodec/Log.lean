import CborCodec.Text.Numeral
/-!
What a program reports while it works. Reports have a level, and a filter lets the graver ones
through.
-/

namespace CborCodec

inductive Level where
  | error
  | warn
  | info
  | debug
  | trace
  deriving DecidableEq, Repr, Inhabited

namespace Level

/-- The lower the graver; zero is kept for nothing at all. -/
def rank : Level → Nat
  | error => 1
  | warn => 2
  | info => 3
  | debug => 4
  | trace => 5

def name : Level → String
  | error => "error"
  | warn => "warn"
  | info => "info"
  | debug => "debug"
  | trace => "trace"

def title : Level → String
  | error => "ERROR"
  | warn => "WARN"
  | info => "INFO"
  | debug => "DEBUG"
  | trace => "TRACE"

def all : List Level := [error, warn, info, debug, trace]

end Level

/-- The greatest rank that is reported. -/
structure LogFilter where
  rank : Nat
  deriving DecidableEq, Repr

namespace LogFilter

def ofLevel (level : Level) : LogFilter := ⟨level.rank⟩

def off : LogFilter := ⟨0⟩

def ofName? (name : String) : Option LogFilter :=
  if name = "" then some (ofLevel .error)
  else if name = "off" then some off
  else (Level.all.find? fun level => level.name == name).map ofLevel

/-- The filter that a text stands for: a rank, or a name in any case. -/
def ofText? (text : String) : Option LogFilter :=
  match Numeral.word? text.toList with
  | some n => if n ≤ 5 then some ⟨n.toNat⟩ else none
  | none => ofName? (String.ofList (Numeral.lower text.toList))

end LogFilter

structure LogRecord where
  level : Level
  topic : String
  text : String
  deriving DecidableEq, Repr

namespace LogRecord

def passes (record : LogRecord) (filter : LogFilter) : Bool :=
  record.level.rank ≤ filter.rank

/-- The line for a report. A filter that lets more than information through shows the topic. -/
def line (record : LogRecord) (filter : LogFilter) : String :=
  let topic := if Level.info.rank < filter.rank then "cbor::" ++ record.topic ++ ": " else ""
  record.level.title ++ " " ++ topic ++ record.text

end LogRecord

end CborCodec
