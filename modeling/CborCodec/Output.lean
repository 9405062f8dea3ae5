import CborCodec.Action
import CborCodec.Bytes
import CborCodec.Error
/-!
Outputs: bytes are written in place into room that was made before, or handed over in bulk.
-/

namespace CborCodec

class Room (τ : Type) where
  /-- The number of bytes that can be written at once. -/
  room : τ → Nat
  /-- Makes room for at least `n` bytes. -/
  ensure : Nat → EStateM Fault τ Unit
  /-- Writes bytes for which there is room. -/
  commit : Bytes → τ → τ
  room_of_ensure : ∀ n s t, ensure n s = .ok () t → n ≤ room t

/-- The most room that writing in pieces asks for at a time. Every item head fits into it. -/
def pieceRoom : Nat := 16

namespace Room

variable {τ : Type} [Room τ]

/-- Writes bytes in pieces, each as large as the room found for it. -/
def writePieces (bs : Bytes) (s : τ) : EStateM.Result Fault τ Unit :=
  if _hb : bs = [] then .ok () s
  else
    match _h : ensure (bs.take pieceRoom).length s with
    | .error e t => .error e t
    | .ok () t => writePieces (bs.drop (room t)) (commit (bs.take (room t)) t)
termination_by bs.length
decreasing_by
  have := room_of_ensure _ _ _ ‹_›
  have := List.length_pos_iff.2 ‹¬bs = []›
  rw [List.length_take, pieceRoom] at *
  rw [List.length_drop]
  omega

end Room

class Output (τ : Type) extends Room τ where
  bulkWrite : Bytes → EStateM Fault τ Unit := Room.writePieces

namespace Output

variable {σ τ : Type} [Output τ]

def putHead (bs : Bytes) : EStateM Error τ Unit := do
  (Room.ensure bs.length).adaptExcept Error.ofFault
  modify (Room.commit bs)

def put (bs : Bytes) : EStateM Error τ Unit :=
  (bulkWrite bs).adaptExcept Error.ofFault

end Output

/-- The output that keeps nothing and never lacks room. -/
structure Nowhere where
  room : Nat := 0

instance : Output Nowhere where
  room s := s.room
  ensure n := fun s => .ok () ⟨max n s.room⟩
  commit _ s := s
  room_of_ensure n s t h := by cases h; exact Nat.le_max_left _ _
  bulkWrite _ := pure ()

end CborCodec
