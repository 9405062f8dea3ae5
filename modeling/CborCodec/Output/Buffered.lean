import CborCodec.Output
/-!
Outputs over a sink: one that gathers small writes in a buffer and hands large ones straight
through, and one with nothing but a window onto its sink.
-/

namespace CborCodec

class Sink (ω : Type) where
  /-- Offers bytes and answers how many were taken. -/
  write : Bytes → EStateM DeviceError ω Nat
  flush : EStateM DeviceError ω Unit
  /-- All bytes taken so far. -/
  taken : ω → Bytes
  taken_of_write : ∀ bs s n t, write bs s = .ok n t →
    n ≤ bs.length ∧ taken t = taken s ++ bs.take n
  taken_of_failed_write : ∀ bs s e t, write bs s = .error e t → taken t = taken s
  taken_flush : ∀ s, taken (final (flush s)) = taken s

/-- Offers bytes until all are taken. A sink that takes none has come to its end. -/
def Sink.writeAll {ω : Type} [Sink ω] (bs : Bytes) (s : ω) : EStateM.Result Fault ω Unit :=
  if _hb : bs = [] then .ok () s
  else
    match Sink.write bs s with
    | .error kind t => .error (.device kind) t
    | .ok 0 t => .error .endOfStream t
    | .ok (n + 1) t => Sink.writeAll (bs.drop (n + 1)) t
termination_by bs.length
decreasing_by
  have := List.length_pos_iff.2 ‹¬bs = []›
  rw [List.length_drop]
  omega

structure BufferedOutput (ω : Type) where
  sink : ω
  filled : Array UInt8
  capacity : Nat

namespace BufferedOutput

variable {ω : Type}

def ofSink (sink : ω) (capacity : Nat) : BufferedOutput ω :=
  ⟨sink, #[], max capacity pieceRoom⟩

def room (s : BufferedOutput ω) : Nat := s.capacity - s.filled.size

variable [Sink ω]

/-- Hands bytes to the sink past the buffer. -/
def through (bs : Bytes) : EStateM Fault (BufferedOutput ω) Unit := fun s =>
  match Sink.writeAll bs s.sink with
  | .ok () sink => .ok () { s with sink := sink }
  | .error e sink => .error e { s with sink := sink }

/-- Empties the buffer into the sink. A failure leaves the buffer as it was, whatever part of it
the sink has taken. -/
def empty : EStateM Fault (BufferedOutput ω) Unit := do
  through (← get).filled.toList
  modify fun s => { s with filled := #[] }

def ensure (n : Nat) : EStateM Fault (BufferedOutput ω) Unit := fun s =>
  if n ≤ s.room then .ok () s
  else
    match empty s with
    | .error e t => .error e t
    | .ok () t =>
      if n ≤ t.room then .ok () t
      -- Even the empty buffer is too small, and becomes as large as the request.
      else if n < allocationLimit then .ok () { t with filled := #[], capacity := n }
      else .error .notEnoughMemory t

def commit (bs : Bytes) (s : BufferedOutput ω) : BufferedOutput ω :=
  { s with filled := s.filled ++ bs }

theorem room_of_ensure {n : Nat} {s t : BufferedOutput ω} (h : ensure n s = .ok () t) :
    n ≤ t.room := by
  unfold ensure at h
  split at h
  · next hn => cases h; exact hn
  · split at h
    · cases h
    · split at h
      · next hn => cases h; exact hn
      · split at h <;> cases h
        simp [room]

instance : Output (BufferedOutput ω) where
  room := room
  ensure := ensure
  commit := commit
  room_of_ensure _ _ _ := room_of_ensure
  bulkWrite bs := do
    if bs.length ≤ (← get).room then
      modify (commit bs)
    else
      -- Too much for the buffer: what it holds goes first, to keep the order.
      empty
      through bs

def finish : EStateM Fault (BufferedOutput ω) Unit := do
  empty
  fun s =>
    match (Sink.flush : EStateM DeviceError ω Unit) s.sink with
    | .ok () sink => .ok () { s with sink := sink }
    | .error kind sink => .error (.device kind) { s with sink := sink }

end BufferedOutput

/-- A sink that takes all it is offered, behind a window of fixed size that the bytes leave only
when it is too full. -/
structure WindowOutput where
  taken : Array UInt8
  filled : Array UInt8
  capacity : Nat

namespace WindowOutput

def ofCapacity (capacity : Nat) : WindowOutput := ⟨#[], #[], capacity⟩

def room (s : WindowOutput) : Nat := s.capacity - s.filled.size

def ensure (n : Nat) : EStateM Fault WindowOutput Unit := fun s =>
  let t := if n ≤ s.room then s else { s with taken := s.taken ++ s.filled, filled := #[] }
  if n ≤ t.room then .ok () t else .error .endOfStream t

def commit (bs : Bytes) (s : WindowOutput) : WindowOutput :=
  { s with filled := s.filled ++ bs }

instance : Output WindowOutput where
  room := room
  ensure := ensure
  commit := commit
  room_of_ensure n s t h := by
    unfold ensure at h
    simp only at h
    split at h
    · cases h; assumption
    · split at h
      · cases h; assumption
      · cases h

def toBytes (s : WindowOutput) : Bytes := (s.taken ++ s.filled).toList

end WindowOutput

end CborCodec
