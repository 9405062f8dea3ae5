import CborCodec.Output
/-!
Outputs into memory: one that grows as it is written, and one of a fixed size.
-/

namespace CborCodec

/-- The bytes written so far and the size of the rest of the buffer they are in. -/
structure GrowingOutput where
  written : Array UInt8
  free : Nat

namespace GrowingOutput

def ofCapacity (capacity : Nat) : GrowingOutput := ⟨#[], capacity⟩

instance : Inhabited GrowingOutput := ⟨ofCapacity 0⟩

def capacity (s : GrowingOutput) : Nat := s.written.size + s.free

/-- What a buffer that lacks `lack` bytes grows by: it at least doubles, and never grows by less
than any head needs. -/
def growth (s : GrowingOutput) (lack : Nat) : Nat := max (max lack s.capacity) pieceRoom

def ensure (n : Nat) : EStateM Fault GrowingOutput Unit := fun s =>
  if n ≤ s.free then .ok () s
  else
    let more := s.growth (n - s.free)
    -- The limit is on the size that the whole buffer would have.
    if s.capacity + more < allocationLimit then .ok () { s with free := s.free + more }
    else .error .notEnoughMemory s

def commit (bs : Bytes) (s : GrowingOutput) : GrowingOutput :=
  ⟨s.written ++ bs, s.free - bs.length⟩

theorem free_of_ensure {n : Nat} {s t : GrowingOutput} (h : ensure n s = .ok () t) :
    n ≤ t.free := by
  unfold ensure at h
  split at h
  · next hn => cases h; exact hn
  · simp only at h
    split at h
    · cases h
      simp only [growth]
      omega
    · cases h

instance : Output GrowingOutput where
  room s := s.free
  ensure := ensure
  commit := commit
  room_of_ensure _ _ _ := free_of_ensure
  bulkWrite bs := do
    ensure bs.length
    modify (commit bs)

def toBytes (s : GrowingOutput) : Bytes := s.written.toList

end GrowingOutput

/-- The bytes written so far and the number that still fit. -/
structure FixedOutput where
  written : Array UInt8
  free : Nat

namespace FixedOutput

def ofCapacity (capacity : Nat) : FixedOutput := ⟨#[], capacity⟩

def ensure (n : Nat) : EStateM Fault FixedOutput Unit := fun s =>
  if n ≤ s.free then .ok () s else .error .endOfStream s

def commit (bs : Bytes) (s : FixedOutput) : FixedOutput :=
  ⟨s.written ++ bs, s.free - bs.length⟩

instance : Output FixedOutput where
  room s := s.free
  ensure := ensure
  commit := commit
  room_of_ensure n s t h := by
    unfold ensure at h
    split at h
    · next hn => cases h; exact hn
    · cases h
  bulkWrite bs := do
    ensure bs.length
    modify (commit bs)

def toBytes (s : FixedOutput) : Bytes := s.written.toList

end FixedOutput

end CborCodec
