import CborCodec.Input
/-!
Input from a source of bytes through a buffer. Bytes are fetched behind the resident ones; where
the buffer has no room for what is asked, the resident bytes first move to its front, and only a
request larger than the whole buffer makes it grow. The end of the source, once seen, is final.
-/

namespace CborCodec

/-- A source that hands out its bytes in pieces of its own choosing. A read of `n` bytes gives at
most `n`; one that gives none says that the source has ended. -/
class Source (ρ : Type) where
  read : Nat → EStateM DeviceError ρ Bytes
  /-- All bytes still to be handed out. -/
  pending : ρ → Bytes
  pending_of_read : ∀ n s bs t, read n s = .ok bs t → pending s = bs ++ pending t
  length_of_read : ∀ n s bs t, read n s = .ok bs t → bs.length ≤ n
  pending_of_failed_read : ∀ n s e t, read n s = .error e t → pending t = pending s

/-- The room every buffer has at least, which holds any item head. -/
def minimumRoom : Nat := 16

def defaultCapacity : Nat := 4096

/-- A source with the buffer over it: `resident` stands at offset `start` of `capacity` bytes. -/
structure BufferedInput (ρ : Type) where
  source : ρ
  resident : Window
  start : Nat
  capacity : Nat
  ended : Bool
  consumed : Nat

namespace BufferedInput

variable {ρ : Type}

def ofSource (source : ρ) (capacity : Nat) : BufferedInput ρ where
  source := source
  resident := Window.ofList []
  start := 0
  capacity := max capacity minimumRoom
  ended := false
  consumed := 0

def free (s : BufferedInput ρ) : Nat := s.capacity - (s.start + s.resident.size)

/-- Makes room for `n` bytes from the start of the resident ones. The comparison is one of machine
words, in which offsets wrap. -/
def makeRoom (n : Nat) : EStateM Fault (BufferedInput ρ) Unit := fun s =>
  if (s.start + n) % UInt64.size ≤ s.capacity then .ok () s
  -- Enough room in all, but not behind the cursor: the resident bytes move to the front.
  else if n ≤ s.capacity then .ok () { s with start := 0 }
  -- Not enough room at all: the buffer becomes as large as the request.
  else if n < allocationLimit then .ok () { s with start := 0, capacity := n }
  else .error .notEnoughMemory { s with start := 0 }

def fetch [Source ρ] : EStateM Fault (BufferedInput ρ) Unit := fun s =>
  match Source.read s.free s.source with
  | .error kind source => .error (.device kind) { s with source := source }
  -- A read of nothing is the end, also where it was the room that was missing.
  | .ok [] source => .ok () { s with source := source, ended := true }
  | .ok bs source => .ok () { s with source := source, resident := s.resident.append bs }

def fill [Source ρ] (n : Nat) : EStateM Fault (BufferedInput ρ) Unit := do
  makeRoom n
  fetch

theorem resident_makeRoom (n : Nat) (s : BufferedInput ρ) :
    (final (makeRoom n s)).resident = s.resident := by
  unfold makeRoom
  repeat' split
  all_goals rfl

theorem source_makeRoom (n : Nat) (s : BufferedInput ρ) :
    (final (makeRoom n s)).source = s.source := by
  unfold makeRoom
  repeat' split
  all_goals rfl

theorem consumed_makeRoom (n : Nat) (s : BufferedInput ρ) :
    (final (makeRoom n s)).consumed = s.consumed := by
  unfold makeRoom
  repeat' split
  all_goals rfl

variable [Source ρ]

/-- The resident bytes and then what the source still holds. -/
def rest (s : BufferedInput ρ) : Bytes := s.resident.toList ++ Source.pending s.source

/-- A byte that leaves the source is resident, in success and in failure. -/
theorem rest_fetch (s : BufferedInput ρ) : rest (final (fetch s)) = rest s := by
  unfold fetch
  split
  · next kind source h => simp [rest, Source.pending_of_failed_read _ _ _ _ h]
  · next source h => simp [rest, Source.pending_of_read _ _ _ _ h]
  · next bs source _ h => simp [rest, Source.pending_of_read _ _ _ _ h]

theorem consumed_fetch (s : BufferedInput ρ) : (final (fetch s)).consumed = s.consumed := by
  unfold fetch; split <;> rfl

/-- A refill that succeeds brings at least a byte, or the end. -/
theorem progress_fetch {s t : BufferedInput ρ} (h : fetch s = .ok () t) :
    t.ended = true ∧ t.resident = s.resident ∨
      t.ended = s.ended ∧ s.resident.size < t.resident.size := by
  unfold fetch at h
  split at h
  · cases h
  · cases h; exact .inl ⟨rfl, rfl⟩
  · next bs source hne _ =>
    cases h
    refine .inr ⟨rfl, ?_⟩
    have : bs ≠ [] := fun hb => hne (hb ▸ rfl)
    have := List.length_pos_iff.2 this
    simp only [Window.size_append]
    omega

theorem fill_eq (n : Nat) (s : BufferedInput ρ) :
    fill n s = match makeRoom n s with
      | .ok () t => fetch t
      | .error e t => .error e t := by
  cases h : makeRoom n s <;> simp [fill, bind, EStateM.bind, h]

theorem rest_fill (n : Nat) (s : BufferedInput ρ) : rest (final (fill n s)) = rest s := by
  have hr := resident_makeRoom n s
  have hs := source_makeRoom n s
  rw [fill_eq]
  split
  · next t h =>
    rw [h] at hr hs
    rw [rest_fetch]
    simp_all [rest]
  · next e t h =>
    rw [h] at hr hs
    simp_all [rest]

theorem consumed_fill (n : Nat) (s : BufferedInput ρ) :
    (final (fill n s)).consumed = s.consumed := by
  have hc := consumed_makeRoom n s
  rw [fill_eq]
  split
  · next t h => rw [consumed_fetch, ← hc, h]; rfl
  · next e t h => rw [← hc, h]

/-- A refill that succeeds makes more bytes resident, or has met the end. -/
theorem progress_fill {n : Nat} {s t : BufferedInput ρ} (h : fill n s = .ok () t) :
    t.ended = true ∧ t.resident = s.resident ∨ s.resident.size < t.resident.size := by
  have hr := resident_makeRoom n s
  rw [fill_eq] at h
  split at h
  · next u hu =>
    rw [hu, final_ok] at hr
    rcases progress_fetch h with ⟨he, hw⟩ | ⟨-, hw⟩
    · exact .inl ⟨he, hw.trans hr⟩
    · exact .inr (hr ▸ hw)
  · cases h

def require (n : Nat) (s : BufferedInput ρ) : EStateM.Result Fault (BufferedInput ρ) Unit :=
  if n ≤ s.resident.size then .ok () s
  else if s.ended then .error .endOfStream s
  else
    match _h : fill n s with
    | .error e t => .error e t
    | .ok () t => require n t
termination_by (if s.ended then 0 else 1) + (n - s.resident.size)
decreasing_by
  -- A refill either sees the end, which happens once, or brings a byte that was missing.
  rcases progress_fill ‹_› with ⟨he, hw⟩ | hw
  · simp_all
  · simp only [*, Bool.false_eq_true, if_false]
    split <;> omega

/-- A request loses no byte, in success and in failure. -/
theorem rest_require (n : Nat) (s : BufferedInput ρ) : rest (final (require n s)) = rest s := by
  fun_induction require n s with
  | case1 => rfl
  | case2 => rfl
  | case3 s _ _ e t h => rw [← rest_fill n s, h, final_error]
  | case4 s _ _ t h ih => rw [ih, ← rest_fill n s, h, final_ok]

theorem consumed_require (n : Nat) (s : BufferedInput ρ) :
    (final (require n s)).consumed = s.consumed := by
  fun_induction require n s with
  | case1 => rfl
  | case2 => rfl
  | case3 s _ _ e t h => rw [← consumed_fill n s, h, final_error]
  | case4 s _ _ t h ih => rw [ih, ← consumed_fill n s, h, final_ok]

theorem size_of_require {n : Nat} {s t : BufferedInput ρ} (h : require n s = .ok () t) :
    n ≤ t.resident.size := by
  fun_induction require n s with
  | case1 s hn => cases h; exact hn
  | case2 => cases h
  | case3 => cases h
  | case4 s _ _ u _ ih => exact ih h

/-- Moves past `n` resident bytes; an empty window moves to the front of the buffer. -/
def advance (n : Nat) (s : BufferedInput ρ) : BufferedInput ρ :=
  let k := min n s.resident.size
  let resident := s.resident.drop k
  { s with
    resident := resident
    start := if resident.size = 0 then 0 else s.start + k
    consumed := s.consumed + k }

instance : Cursor (BufferedInput ρ) where
  window s := s.resident
  available s := if s.ended then s.resident.size else unknownLength
  position s := s.consumed
  stream := rest
  require := require
  discard := advance
  window_isPrefix s := List.prefix_append _ _
  stream_require := rest_require
  position_require := consumed_require
  size_of_require _ _ _ := size_of_require
  stream_discard n s := by
    have h : min n s.resident.size ≤ s.resident.toList.length := by
      rw [← s.resident.size_eq]; omega
    simp only [rest, advance, Window.toList_drop]
    rw [List.drop_append_of_le_length h]
  position_discard n s := rfl

instance : Input (BufferedInput ρ) where

/-- True once the source has ended and every resident byte is consumed. Looks for the end if
nothing is resident. -/
def atEnd : EStateM Fault (BufferedInput ρ) Bool := do
  let s ← get
  if s.resident.size = 0 ∧ !s.ended then fill 1
  let s ← get
  return s.resident.size == 0 && s.ended

end BufferedInput

end CborCodec
