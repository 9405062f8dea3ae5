import CborCodec.Output.Buffered
/-!
A sink that follows a schedule of limits and failures, which is what a buffered output has to
withstand.
-/

namespace CborCodec

/-- A sink that takes at most `limit` bytes in all and `piece` at a time. A failure fires once,
when the number of bytes taken is the scheduled one; flushing fails as `flushFailure` says. -/
structure ScheduledSink where
  taken : Array UInt8
  limit : Option Nat
  piece : Option Nat
  failure : Option (Nat × DeviceError)
  flushFailure : Option DeviceError

namespace ScheduledSink

def least : Option Nat → Option Nat → Option Nat
  | some m, some n => some (min m n)
  | some m, none => some m
  | none, n => n

def allowance (s : ScheduledSink) : Option Nat :=
  least (least s.piece (s.limit.map (· - s.taken.size)))
    (s.failure.map (fun f => f.1 - s.taken.size))

def allowed (s : ScheduledSink) (bs : Bytes) : Bytes :=
  match s.allowance with
  | none => bs
  | some n => bs.take n

def take (bs : Bytes) (s : ScheduledSink) : EStateM.Result DeviceError ScheduledSink Nat :=
  let part := s.allowed bs
  .ok part.length { s with taken := s.taken ++ part }

theorem take_length_allowed (s : ScheduledSink) (bs : Bytes) :
    bs.take (s.allowed bs).length = s.allowed bs := by
  unfold allowed
  split
  · simp
  · rw [List.length_take, ← List.take_eq_take_min]

def write (bs : Bytes) : EStateM DeviceError ScheduledSink Nat := fun s =>
  match s.failure with
  | some (point, kind) =>
    if s.taken.size = point then .error kind { s with failure := none } else s.take bs
  | none => s.take bs

def flush : EStateM DeviceError ScheduledSink Unit := fun s =>
  match s.flushFailure with
  | some kind => .error kind s
  | none => .ok () s

/-- A sink takes a front of what it is offered. -/
theorem write_ok {s t : ScheduledSink} {bs : Bytes} {n : Nat} (h : write bs s = .ok n t) :
    n ≤ bs.length ∧ t.taken.toList = s.taken.toList ++ bs.take n := by
  have ht : ∀ {n t}, take bs s = .ok n t →
      n ≤ bs.length ∧ t.taken.toList = s.taken.toList ++ bs.take n := by
    rintro n t ⟨⟩
    have hp := s.take_length_allowed bs
    refine ⟨?_, by simp [hp]⟩
    rw [← hp, List.length_take]
    exact Nat.min_le_right _ _
  unfold write at h
  repeat' split at h
  · cases h
  · exact ht h
  · exact ht h

instance : Sink ScheduledSink where
  write := write
  flush := flush
  taken s := s.taken.toList
  taken_of_write _ _ _ _ h := write_ok h
  taken_of_failed_write bs s e t h := by
    unfold write at h
    repeat' split at h
    · cases h; rfl
    · cases h
    · cases h
  taken_flush s := by unfold flush; split <;> rfl

end ScheduledSink

end CborCodec
