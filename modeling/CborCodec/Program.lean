import CborCodec.Encode
import CborCodec.Walk
/-!
Programs that write items call by call. A call in a container takes its place in the count before
it is tried, so one whose failure is ignored still counts. A failure may be ignored in a container
as in a string of chunks, and both may fail half-way.
-/

namespace CborCodec

inductive TagNumber where
  | integer (n : Int)
  | float (d : Double)

/-- The tag that a number stands for. A float is cut to its integer part. -/
def TagNumber.toWord? (t : TagNumber) : Option UInt64 :=
  let n? :=
    match t with
    | integer n => some n
    | float d => d.truncate?
  match n? with
  | some n => if 0 ≤ n ∧ n < UInt64.size then some (UInt64.ofNat n.toNat) else none
  | none => none

/-- A call that writes a chunk of a string. -/
inductive ChunkCall (α : Type) where
  | chunk (c : α)
  /-- Writes a chunk and ignores the failure. -/
  | attempt (c : α)
  /-- Fails without a call. -/
  | fail

/-- Calls that write items. -/
inductive Program where
  | leaf (l : Leaf)
  | raw (bs : Bytes)
  /-- Copies the next item of the input. -/
  | itemFrom
  | tagged (tags : List TagNumber) (l : Leaf)
  | container (kind : Container) (count : Option UInt64) (calls : List Program)
  | byteCalls (calls : List (ChunkCall Bytes))
  | textCalls (calls : List (ChunkCall String))
  /-- Makes a call and ignores its failure. -/
  | attempt (call : Program)
  /-- Fails without a call. -/
  | fail

section Streams

variable {τ α : Type} [Output τ]

def ChunkCall.run (emit : α → EStateM Error τ Unit) : ChunkCall α → EStateM Error τ Unit
  | chunk c => emit c
  | attempt c => fun s => .ok () (final (emit c s))
  | fail => throw .stringExceedsSizeLimit

end Streams

namespace Program

variable {σ τ α : Type} [Input σ] [Output τ]

def byteStream (chunks : List Bytes) : Program :=
  byteCalls (chunks.map .chunk)

def textStream (chunks : List String) : Program :=
  textCalls (chunks.map .chunk)

def emitTags : List TagNumber → EStateM Error τ Unit
  | [] => pure ()
  | tag :: tags => do
    match tag.toWord? with
    | some number => emitArgument .tag number
    | none => throw .itemValueOutOfRange
    emitTags tags

/-- Makes calls up to the first that fails. -/
def emitChunks (emit : α → EStateM Error τ Unit) : List (ChunkCall α) → EStateM Error τ Unit
  | [] => pure ()
  | call :: calls => do
    call.run emit
    emitChunks emit calls

def emitStream (major : Major) (emit : α → EStateM Error τ Unit) (calls : List (ChunkCall α)) :
    EStateM Error τ Unit := do
  emitChecked (Head.encodeIndefinite major)
  emitChunks emit calls
  emitBreak

/-- Writes the head of a container and answers how many calls it is to take, if it declares it. -/
def openContainer (kind : Container) : Option UInt64 → EStateM Error τ (Option Nat)
  | none => do
    emitChecked (Head.encodeIndefinite kind.major)
    return none
  | some count => do
    emitArgument kind.major count
    failIf (UInt64.size ≤ count.toNat * kind.slots) .itemValueOutOfRange
    return some (count.toNat * kind.slots)

/-- The places in a container's count that a call takes, whether it succeeds or fails. -/
def places : Program → Nat
  | attempt call => call.places
  | fail => 0
  | _ => 1

mutual

/-- Makes a call in a container that has taken `taken` of the calls it declares, or by itself. -/
def run (options : Options) (declared : Option Nat) (taken : Nat) :
    Program → EStateM Error (σ × τ) Unit
  | leaf l => do
    takePlace declared taken
    onSecond l.emit
  | raw bs => do
    takePlace declared taken
    onSecond (Output.put bs)
  | itemFrom => do
    takePlace declared taken
    copyItem options
  | tagged tags l => do
    takePlace declared taken
    onSecond (emitTags tags)
    onSecond l.emit
  | container kind count calls => do
    takePlace declared taken
    let inner ← onSecond (openContainer kind count)
    let made ← runAll options inner 0 calls
    onSecond (endContainer inner made)
  | byteCalls calls => do
    takePlace declared taken
    onSecond (emitStream .bytes emitBytes calls)
  | textCalls calls => do
    takePlace declared taken
    onSecond (emitStream .text emitText calls)
  | attempt call => fun s => .ok () (final (run options declared taken call s))
  | fail => throw .stringExceedsSizeLimit

def runAll (options : Options) (declared : Option Nat) (taken : Nat) :
    List Program → EStateM Error (σ × τ) Nat
  | [] => pure taken
  | call :: calls => do
    run options declared taken call
    runAll options declared (taken + call.places) calls

end

def emit (options : Options) (program : Program) : EStateM Error (σ × τ) Unit :=
  program.run options none 0

end Program

end CborCodec
