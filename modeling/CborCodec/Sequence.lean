import CborCodec.Output.Memory
import CborCodec.Transcriber
import CborCodec.Typed
/-!
Sequences: items laid end to end in memory. A sequence is decoded item by item, split into the
bytes of its items up to the first that is malformed, or searched for the item at an index.
-/

namespace CborCodec

def itemLength (options : Options) (data : Bytes) : Except Error Nat :=
  match skipItem options (MemoryInput.ofBytes data) with
  | .ok () s => .ok s.offset
  | .error e _ => .error e

namespace Sequence

def decodeAll {α : Type} (read : EStateM Error MemoryInput α) (hread : Consumes 1 read)
    (done : Array α) (s : MemoryInput) : Except Error (Array α) :=
  if s.isEmpty then .ok done
  else
    match _h : read s with
    | .error e _ => .error e
    | .ok a t => decodeAll read hread (done.push a) t
termination_by (stream s).length
decreasing_by exact hread.lt_of_ok ‹_›

def decode (options : Options) (t : Target) (data : Bytes) : Except Error (Array t.Carrier) :=
  decodeAll (t.decode options) (t.consumes_decode options) #[] (MemoryInput.ofBytes data)

/-- Items with their offsets, and what stands behind them if it is no item. -/
structure Parts where
  items : Array (Nat × Bytes)
  failure : Option (Nat × Error)

def between (s t : MemoryInput) : Bytes := s.rest.toList.take (t.offset - s.offset)

/-- A walker on its way over a sequence. It goes no further once an item has failed. -/
structure Items where
  input : MemoryInput
  walker : Transcriber
  failed : Bool := false

namespace Items

def ofBytes (options : Options) (data : Bytes) : Items :=
  { input := .ofBytes data, walker := { options := options } }

def next (it : Items) : Option (Except (Nat × Error) (Nat × Bytes)) × Items :=
  if it.failed ∨ it.input.isEmpty then (none, it)
  else
    match Transcriber.skipItem (it.walker, it.input) with
    | .ok () (w, t) =>
      (some (.ok (it.input.offset, between it.input t)), { it with input := t, walker := w })
    | .error e (w, t) => (some (.error (it.input.offset, e)), ⟨t, w, true⟩)

/-- Each item that is yielded shortens the input. -/
theorem lt_of_next {it it' : Items} {p : Nat × Bytes} (h : it.next = (some (.ok p), it')) :
    (stream it'.input).length < (stream it.input).length := by
  simp only [next, Transcriber.skipItem_apply, onSecond] at h
  split at h
  · cases h
  · cases hskip : skipItem it.walker.options it.input with
    | ok _ t =>
      simp only [hskip] at h
      cases h
      exact (Consumes.skipItem _).lt_of_ok hskip
    | error e t =>
      simp only [hskip] at h
      cases h

def collect (done : Array (Nat × Bytes)) (it : Items) : Parts :=
  match _h : it.next with
  | (none, _) => ⟨done, none⟩
  | (some (.error failure), _) => ⟨done, some failure⟩
  | (some (.ok item), it') => it'.collect (done.push item)
termination_by (stream it.input).length
decreasing_by exact lt_of_next ‹_›

end Items

def split (options : Options) (data : Bytes) : Parts := (Items.ofBytes options data).collect #[]

inductive NoItem where
  | tooFew (count : Nat)
  | invalid (index offset : Nat) (error : Error)
  deriving DecidableEq, Repr

/-- Moves past `count` items, of which the first is number `index`. -/
def skipItems :
    Nat → Nat → Transcriber × MemoryInput → Except NoItem (Transcriber × MemoryInput)
  | 0, _, s => .ok s
  | count + 1, index, (w, s) =>
    if s.isEmpty then .error (.tooFew index)
    else
      match Transcriber.skipItem (w, s) with
      | .error e _ => .error (.invalid index s.offset e)
      | .ok () t => skipItems count (index + 1) t

def extract (options : Options) (data : Bytes) (index : Nat) : Except NoItem (Nat × Bytes) :=
  match skipItems index 0 ({ options := options }, MemoryInput.ofBytes data) with
  | .error e => .error e
  | .ok (w, s) =>
    if s.isEmpty then .error (.tooFew index)
    else
      match Transcriber.copyItem (w, s, GrowingOutput.ofCapacity 0) with
      | .error e _ => .error (.invalid index s.offset e)
      | .ok () (_, _, output) => .ok (s.offset, output.toBytes)

end Sequence

end CborCodec
