import CborCodec.Input.Buffered
/-!
A source that follows a schedule: it hands out given bytes in pieces of given sizes and may fail
once on the way, which is what a buffered input has to withstand.
-/

namespace CborCodec

/-- A source over `rest`. Successful read number `k` hands out at most `pieces[k]` bytes, the
pieces being taken round and round, and a failure fires once, when the number of bytes handed out
is the scheduled one. -/
structure ScheduledSource where
  rest : Bytes
  pieces : Array Nat
  failure : Option (Nat × DeviceError)
  handed : Nat
  turn : Nat

namespace ScheduledSource

def ofBytes (data : Bytes) (pieces : Array Nat) (failure : Option (Nat × DeviceError)) :
    ScheduledSource :=
  ⟨data, pieces, failure, 0, 0⟩

def allowance (s : ScheduledSource) (room : Nat) : Nat :=
  let piece := if 0 < s.pieces.size then
    min room (s.pieces.getD (s.turn % s.pieces.size) 0) else room
  match s.failure with
  | some (point, _) => min piece (point - s.handed)
  | none => piece

def give (room : Nat) (s : ScheduledSource) : EStateM.Result DeviceError ScheduledSource Bytes :=
  let n := s.allowance room
  let bs := s.rest.take n
  .ok bs { s with rest := s.rest.drop n, handed := s.handed + bs.length, turn := s.turn + 1 }

def read (room : Nat) : EStateM DeviceError ScheduledSource Bytes := fun s =>
  match s.failure with
  | some (point, kind) =>
    if s.handed = point then .error kind { s with failure := none } else s.give room
  | none => s.give room

theorem allowance_le (s : ScheduledSource) (room : Nat) : s.allowance room ≤ room := by
  unfold allowance
  simp only
  split <;> split <;> omega

/-- A read hands out a front of what is left. -/
theorem read_ok {s t : ScheduledSource} {room : Nat} {bs : Bytes} (h : read room s = .ok bs t) :
    s.rest = bs ++ t.rest ∧ bs.length ≤ room := by
  have hg : ∀ {bs t}, give room s = .ok bs t → s.rest = bs ++ t.rest ∧ bs.length ≤ room := by
    rintro bs t ⟨⟩
    have := s.allowance_le room
    exact ⟨by simp, by rw [List.length_take]; omega⟩
  unfold read at h
  repeat' split at h
  · cases h
  · exact hg h
  · exact hg h

/-- A read that fails hands out nothing. -/
theorem read_error {s t : ScheduledSource} {room : Nat} {e : DeviceError}
    (h : read room s = .error e t) : t.rest = s.rest := by
  unfold read at h
  repeat' split at h
  · cases h; rfl
  · cases h
  · cases h

instance : Source ScheduledSource where
  read := read
  pending s := s.rest
  pending_of_read _ _ _ _ h := (read_ok h).1
  length_of_read _ _ _ _ h := (read_ok h).2
  pending_of_failed_read _ _ _ _ h := read_error h

end ScheduledSource

end CborCodec
