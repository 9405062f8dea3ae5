import CborCodec.Input
/-!
Input from bytes that are all in memory. Its window is the whole rest, so a read either succeeds
at once or fails and consumes nothing.
-/

namespace CborCodec

/-- The bytes not yet consumed, and the number of those that were. -/
structure MemoryInput where
  rest : Window
  offset : Nat

namespace MemoryInput

def ofBytes (bs : Bytes) : MemoryInput := ⟨Window.ofList bs, 0⟩

def isEmpty (s : MemoryInput) : Bool := s.rest.size == 0

def advance (n : Nat) (s : MemoryInput) : MemoryInput :=
  ⟨s.rest.drop n, s.offset + min n s.rest.size⟩

def require (n : Nat) : EStateM Fault MemoryInput Unit := fun s =>
  if n ≤ s.rest.size then .ok () s else .error .endOfStream s

def bulkRead (n : Nat) : EStateM Fault MemoryInput Bytes := fun s =>
  if n ≤ s.rest.size then .ok (s.rest.toList.take n) (s.advance n) else .error .endOfStream s

theorem final_require (n : Nat) (s : MemoryInput) : final (require n s) = s := by
  unfold require; split <;> rfl

instance : Cursor MemoryInput where
  window s := s.rest
  available s := s.rest.size
  position s := s.offset
  stream s := s.rest.toList
  require := require
  discard := advance
  window_isPrefix s := List.prefix_rfl
  stream_require n s := by rw [final_require]
  position_require n s := by rw [final_require]
  size_of_require n s s' h := by
    unfold require at h
    split at h <;> simp_all
  stream_discard n s := by
    simp only [advance, Window.toList_drop, s.rest.size_eq]
    rcases Nat.le_total n s.rest.toList.length with h | h
    · rw [Nat.min_eq_left h]
    · rw [Nat.min_eq_right h, List.drop_of_length_le h, List.drop_length]
  position_discard n s := rfl

instance : Input MemoryInput where
  bulkRead := bulkRead
  advances_bulkRead n s := by
    unfold bulkRead
    split
    · next h =>
      refine ⟨s.rest.toList.take n, Cursor.advances_discard n s, ?_⟩
      rintro out t ⟨⟩
      rw [s.rest.size_eq] at h
      exact ⟨rfl, by rw [List.length_take]; omega⟩
    · exact ⟨[], Advances.rfl, by simp⟩

end MemoryInput

end CborCodec
