import CborCodec.Action
import CborCodec.Bytes
import CborCodec.Error
/-!
Inputs: a cursor over a stream of bytes of which a contiguous window is resident. The stream is
the window followed by what can still be fetched; every operation moves along it and none loses,
repeats or invents a byte. Those laws are part of the classes, because loops over an input end
for the reason that the stream grows shorter.
-/

namespace CborCodec

class Cursor (σ : Type) where
  /-- The bytes that are resident, from the cursor on. -/
  window : σ → Window
  /-- An upper bound on the bytes left: exact where the end is known, else the greatest word. -/
  available : σ → Nat
  /-- The number of bytes consumed so far. -/
  position : σ → Nat
  /-- All bytes from the cursor on, resident or not. -/
  stream : σ → Bytes
  /-- Makes at least `n` bytes resident. -/
  require : Nat → EStateM Fault σ Unit
  /-- Moves past `n` resident bytes. -/
  discard : Nat → σ → σ
  window_isPrefix : ∀ s, (window s).toList <+: stream s
  stream_require : ∀ n s, stream (final (require n s)) = stream s
  position_require : ∀ n s, position (final (require n s)) = position s
  size_of_require : ∀ n s s', require n s = .ok () s' → n ≤ (window s').size
  stream_discard : ∀ n s, stream (discard n s) = (stream s).drop (min n (window s).size)
  position_discard : ∀ n s, position (discard n s) = position s + min n (window s).size

export Cursor (window available position stream)

/-- The bound reported while the end of a stream has not been seen. -/
def unknownLength : Nat := 0xFFFFFFFFFFFFFFFF

/-- The state `t` stands after `bs` in the stream that `s` is at the start of. -/
def Advances {σ : Type} [Cursor σ] (s : σ) (bs : Bytes) (t : σ) : Prop :=
  stream s = bs ++ stream t ∧ position t = position s + bs.length

namespace Advances

variable {σ : Type} [Cursor σ] {s t u : σ} {bs cs : Bytes}

theorem rfl : Advances s [] s := ⟨by simp, by simp⟩

theorem trans (h : Advances s bs t) (k : Advances t cs u) : Advances s (bs ++ cs) u :=
  ⟨by rw [h.1, k.1, List.append_assoc], by rw [k.2, h.2, List.length_append, Nat.add_assoc]⟩

theorem length_le (h : Advances s bs t) : (stream t).length ≤ (stream s).length := by
  rw [h.1, List.length_append]; omega

theorem length_eq (h : Advances s bs t) :
    (stream s).length = bs.length + (stream t).length := by
  rw [h.1, List.length_append]

end Advances

namespace Cursor

variable {σ : Type} [Cursor σ]

theorem advances_require (n : Nat) (s : σ) : Advances s [] (final (require n s)) :=
  ⟨by simp [stream_require], by simp [position_require]⟩

theorem size_le_length (s : σ) : (window s).size ≤ (stream s).length := by
  rw [(window s).size_eq]
  exact (window_isPrefix s).length_le

theorem take_window (n : Nat) (s : σ) :
    (window s).toList.take n = (stream s).take (min n (window s).size) := by
  obtain ⟨rest, h⟩ := window_isPrefix s
  rw [← h, (window s).size_eq, List.take_append_of_le_length (Nat.min_le_right _ _),
    List.take_eq_take_min]

/-- Dropping resident bytes moves along the stream. -/
theorem advances_discard (n : Nat) (s : σ) :
    Advances s ((window s).toList.take n) (discard n s) := by
  refine ⟨?_, ?_⟩
  · rw [take_window, stream_discard, List.take_append_drop]
  · rw [position_discard, List.length_take, (window s).size_eq]

/-- Reads `n` bytes a resident window at a time onto `acc`. What was read before a failure is
consumed. -/
def gather (n : Nat) (acc : Array UInt8) (s : σ) : EStateM.Result Fault σ Bytes :=
  if n = 0 then .ok acc.toList s
  else
    match _h : require 1 s with
    | .error e s' => .error e s'
    | .ok () s' =>
      let k := min n (window s').size
      gather (n - k) (acc ++ (window s').toList.take k) (discard k s')
termination_by n
decreasing_by
  have := size_of_require _ _ _ ‹_›
  omega

/-- What an action that only moves along the stream leaves behind. -/
theorem exists_advances_gather (n : Nat) (acc : Array UInt8) (s : σ) :
    ∃ bs, Advances s bs (final (gather n acc s)) ∧
      ∀ out t, gather n acc s = .ok out t → out = acc.toList ++ bs ∧ bs.length = n := by
  fun_induction gather n acc s with
  | case1 acc s => exact ⟨[], Advances.rfl, by simp_all⟩
  | case2 n acc s hn e s' h =>
    have h1 := advances_require 1 s
    rw [h] at h1
    exact ⟨[], h1, by simp⟩
  | case3 n acc s hn s' h k ih =>
    obtain ⟨bs, hadv, hok⟩ := ih
    -- The piece that is resident, and then what the induction reads.
    have h1 := advances_require 1 s
    rw [h] at h1
    refine ⟨(window s').toList.take k ++ bs, ?_, fun out t ho => ?_⟩
    · simpa using (h1.trans (advances_discard k s')).trans hadv
    · obtain ⟨rfl, hlen⟩ := hok out t ho
      have : k ≤ (window s').toList.length := by rw [← (window s').size_eq]; omega
      refine ⟨by simp, ?_⟩
      rw [List.length_append, List.length_take, hlen]
      omega

end Cursor

class Input (σ : Type) extends Cursor σ where
  /-- Reads exactly `n` bytes. -/
  bulkRead : Nat → EStateM Fault σ Bytes := fun n => Cursor.gather n #[]
  advances_bulkRead : ∀ n s, ∃ bs, Advances s bs (final (bulkRead n s)) ∧
    ∀ out t, bulkRead n s = .ok out t → out = bs ∧ out.length = n := by
      intro n s
      obtain ⟨bs, h, k⟩ := Cursor.exists_advances_gather n #[] s
      exact ⟨bs, h, fun out t ho => by obtain ⟨rfl, hl⟩ := k out t ho; simpa using hl⟩

namespace Input

variable {σ τ : Type} [Input σ]

/-- An input stays an input when something travels with it. -/
instance : Input (σ × τ) where
  window s := window s.1
  available s := available s.1
  position s := position s.1
  stream s := stream s.1
  require n := onFirst (Cursor.require n)
  discard n s := (Cursor.discard n s.1, s.2)
  window_isPrefix s := Cursor.window_isPrefix s.1
  stream_require n s := by simp [Cursor.stream_require]
  position_require n s := by simp [Cursor.position_require]
  size_of_require n s s' h := Cursor.size_of_require n s.1 s'.1 (onFirst_eq_ok.1 h).1
  stream_discard n s := Cursor.stream_discard n s.1
  position_discard n s := Cursor.position_discard n s.1
  bulkRead n := onFirst (Input.bulkRead n)
  advances_bulkRead n s := by
    obtain ⟨bs, h, k⟩ := Input.advances_bulkRead n s.1
    refine ⟨bs, ?_, fun out t ho => k out t.1 (onFirst_eq_ok.1 ho).1⟩
    simpa [Advances] using h

def need (n : Nat) : EStateM Error σ Unit :=
  (Cursor.require n).adaptExcept Error.ofFault

def skip (n : Nat) : EStateM Error σ Unit :=
  modify (Cursor.discard n)

def read (n : Nat) : EStateM Error σ Bytes :=
  (bulkRead n).adaptExcept Error.ofFault

end Input

end CborCodec
