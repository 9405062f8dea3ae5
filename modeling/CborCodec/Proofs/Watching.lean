import CborCodec.Proofs.Following
/-!
A buffer under watch. All that ever happens to a buffer over a source is that room is made in it,
that it is refilled, or that it is moved past some bytes; a watched one keeps a list of these moves
and does nothing else. Whatever items are read, room is made for no more bytes than a head has, and
so the buffer stays as large as it was made.
-/

namespace CborCodec

namespace BufferedInput

inductive Move where
  | makeRoom (n : Nat)
  | fetch
  | advance (n : Nat)
  deriving DecidableEq

/-- Room is made for no more bytes than a head can have. -/
def Move.Small : Move → Prop
  | makeRoom n => n ≤ 9
  | fetch | advance _ => True

variable {ρ : Type} [Source ρ] {s t : BufferedInput ρ} {n size : Nat}

def Move.make : Move → EStateM Fault (BufferedInput ρ) Unit
  | makeRoom n => BufferedInput.makeRoom n
  | fetch => BufferedInput.fetch
  | advance n => modify (BufferedInput.advance n)

def perform : List Move → BufferedInput ρ → BufferedInput ρ
  | [], s => s
  | m :: ms, s => perform ms (final (m.make s))

theorem perform_append (ms ns : List Move) (s : BufferedInput ρ) :
    perform (ms ++ ns) s = perform ns (perform ms s) := by
  induction ms generalizing s with
  | nil => rfl
  | cons m ms ih => exact ih (final (m.make s))

section Fitting

structure Fits (size : Nat) (s : BufferedInput ρ) : Prop where
  capacity_eq : s.capacity = size
  within : s.start + s.resident.size ≤ s.capacity

omit [Source ρ] in
theorem fits_ofSource (source : ρ) (capacity : Nat) :
    Fits (max capacity minimumRoom) (ofSource source capacity) :=
  ⟨rfl, Nat.zero_le _⟩

omit [Source ρ] in
/-- Where the buffer is large enough for a request it is at most moved to the front. -/
theorem Fits.makeRoom (h : Fits size s) (hn : n ≤ size) :
    Fits size (final (makeRoom n s)) ∧ ∀ t, makeRoom n s ≠ .error .notEnoughMemory t := by
  have hwithin := h.within
  have hcapacity := h.capacity_eq
  unfold BufferedInput.makeRoom
  split
  -- Also where the comparison wraps: then nothing moves, and less room is left to read into.
  · exact ⟨h, nofun⟩
  · rw [if_pos (hcapacity ▸ hn)]
    refine ⟨⟨hcapacity, ?_⟩, nofun⟩
    dsimp only [final_ok]
    omega

/-- What a read brings was given room behind what is resident. -/
theorem Fits.fetch (h : Fits size s) :
    Fits size (final (fetch s)) ∧ ∀ t, fetch s ≠ .error .notEnoughMemory t := by
  unfold BufferedInput.fetch
  cases hread : Source.read s.free s.source with
  | error kind source => exact ⟨⟨h.capacity_eq, h.within⟩, nofun⟩
  | ok bs source =>
    have hlength := Source.length_of_read _ _ _ _ hread
    cases bs with
    | nil => exact ⟨⟨h.capacity_eq, h.within⟩, nofun⟩
    | cons b bs =>
      exact ⟨⟨h.capacity_eq, within_append h.within hlength⟩, nofun⟩

omit [Source ρ] in
theorem Fits.advance (h : Fits size s) (n : Nat) : Fits size (s.advance n) :=
  ⟨h.capacity_eq, within_advance h.within n⟩

/-- No small move changes the size, or asks for memory. -/
theorem Fits.make (h : Fits size s) (hsize : 9 ≤ size) {m : Move} (hm : m.Small) :
    Fits size (final (m.make s)) ∧ ∀ t, m.make s ≠ .error .notEnoughMemory t := by
  cases m with
  | makeRoom n => exact h.makeRoom (Nat.le_trans hm hsize)
  | fetch => exact h.fetch
  | advance n => exact ⟨h.advance n, nofun⟩

/-- By induction on the moves, small ones leave the size as it is. -/
theorem Fits.perform (h : Fits size s) (hsize : 9 ≤ size) {ms : List Move}
    (hms : ∀ m ∈ ms, m.Small) : Fits size (perform ms s) := by
  induction ms generalizing s with
  | nil => exact h
  | cons m ms ih =>
    rw [List.forall_mem_cons] at hms
    exact ih (h.make hsize hms.1).1 hms.2

end Fitting

section Refills

def refill (n : Nat) (s : BufferedInput ρ) : List Move :=
  match makeRoom n s with
  | .ok () _ => [.makeRoom n, .fetch]
  | .error _ _ => [.makeRoom n]

def refills (n : Nat) (s : BufferedInput ρ) : List Move :=
  if n ≤ s.resident.size then []
  else if s.ended then []
  else
    match _h : fill n s with
    | .error _ _ => refill n s
    | .ok () t => refill n s ++ refills n t
termination_by (if s.ended then 0 else 1) + (n - s.resident.size)
decreasing_by
  rcases progress_fill ‹_› with ⟨he, hw⟩ | hw
  · simp_all
  · simp only [*, Bool.false_eq_true, if_false]
    split <;> omega

/-- The moves of a refill lead to where it leads. -/
theorem perform_refill (n : Nat) (s : BufferedInput ρ) :
    perform (refill n s) s = final (fill n s) := by
  rw [fill_eq]
  unfold refill
  cases h : makeRoom n s with
  | error e t => simp only [perform, Move.make, h, final_error]
  | ok _ t => simp only [perform, Move.make, h, final_ok]

/-- The moves of a request lead to where it leads. -/
theorem perform_refills (n : Nat) (s : BufferedInput ρ) :
    perform (refills n s) s = final (require n s) := by
  fun_induction BufferedInput.require n s with
  | case1 s hsize =>
    rw [refills, if_pos hsize]
    rfl
  | case2 s hsize hended =>
    rw [refills, if_neg hsize, if_pos hended]
    rfl
  | case3 s hsize hended e t hfill =>
    have hmoves : refills n s = refill n s := by
      rw [refills, if_neg hsize, if_neg hended]
      split
      · rfl
      · next u hu =>
        rw [hfill] at hu
        cases hu
    rw [hmoves, perform_refill, hfill]
  | case4 s hsize hended t hfill ih =>
    have hmoves : refills n s = refill n s ++ refills n t := by
      rw [refills, if_neg hsize, if_neg hended]
      split
      · next e u hu =>
        rw [hfill] at hu
        cases hu
      · next u hu =>
        rw [hfill] at hu
        cases hu
        rfl
    rw [hmoves, perform_append, perform_refill, hfill, final_ok, ih]

omit [Source ρ] in
theorem small_refill (hn : n ≤ 9) (s : BufferedInput ρ) : ∀ m ∈ refill n s, m.Small := by
  unfold refill
  split <;> simp [Move.Small, hn]

/-- A request for no more than a head can have makes small moves only. -/
theorem small_refills (hn : n ≤ 9) (s : BufferedInput ρ) : ∀ m ∈ refills n s, m.Small := by
  fun_induction refills n s with
  | case1 | case2 => simp
  | case3 s => exact small_refill hn s
  | case4 s _ _ t _ ih =>
    rw [List.forall_mem_append]
    exact ⟨small_refill hn s, ih⟩

end Refills

end BufferedInput

open BufferedInput

/-- A buffer with a list of its moves, the first one first. -/
structure Watched (ρ : Type) where
  input : BufferedInput ρ
  moves : List Move

namespace Watched

variable {ρ α : Type} [Source ρ] {start : BufferedInput ρ} {n : Nat}

def ofSource (source : ρ) (capacity : Nat) : Watched ρ := ⟨.ofSource source capacity, []⟩

def noted (x : EStateM Fault (BufferedInput ρ) α) (moves : BufferedInput ρ → List Move) :
    EStateM Fault (Watched ρ) α := fun w =>
  match x w.input with
  | .ok a t => .ok a ⟨t, w.moves ++ moves w.input⟩
  | .error e t => .error e ⟨t, w.moves ++ moves w.input⟩

omit [Source ρ] in
theorem final_noted (x : EStateM Fault (BufferedInput ρ) α)
    (moves : BufferedInput ρ → List Move) (w : Watched ρ) :
    final (noted x moves w) = ⟨final (x w.input), w.moves ++ moves w.input⟩ := by
  unfold noted
  cases x w.input <;> rfl

omit [Source ρ] in
theorem input_of_noted {x : EStateM Fault (BufferedInput ρ) α}
    {moves : BufferedInput ρ → List Move} {w v : Watched ρ} {a : α}
    (h : noted x moves w = .ok a v) : x w.input = .ok a v.input := by
  unfold noted at h
  cases hx : x w.input <;> rw [hx] at h <;> cases h
  rfl

instance : Cursor (Watched ρ) where
  window w := window w.input
  available w := available w.input
  position w := position w.input
  stream w := stream w.input
  require n := noted (Cursor.require n) (refills n)
  discard n w := ⟨Cursor.discard n w.input, w.moves ++ [.advance n]⟩
  window_isPrefix w := Cursor.window_isPrefix w.input
  stream_require n w := by rw [final_noted, Cursor.stream_require]
  position_require n w := by rw [final_noted, Cursor.position_require]
  size_of_require n w v h := Cursor.size_of_require n w.input v.input (input_of_noted h)
  stream_discard n w := Cursor.stream_discard n w.input
  position_discard n w := Cursor.position_discard n w.input

instance : Input (Watched ρ) where

/-- A buffer beside the same one under watch. All its moves since the start were small, and have
led to where it is. -/
def beside (start : BufferedInput ρ) : Comparison (BufferedInput ρ) (Watched ρ) where
  rel s w := w.input = s ∧ perform w.moves start = s ∧ ∀ m ∈ w.moves, m.Small
  excused _ := False
  live _ := True
  live_of_advances _ h := h

/-- Watching changes nothing, and a request for the bytes of a head takes small moves only. -/
theorem mirrors (start : BufferedInput ρ) : Mirrors (beside start) where
  window_eq := by
    rintro _ w ⟨rfl, -⟩
    rfl
  available_eq := by
    rintro _ w ⟨rfl, -⟩
    rfl
  need n hn := by
    refine ⟨.need n, ?_⟩
    rintro _ w ⟨rfl, hperform, hsmall⟩
    have hmoves : perform (w.moves ++ refills n w.input) start = final (require n w.input) := by
      rw [perform_append, hperform, perform_refills]
    have hall : ∀ m ∈ w.moves ++ refills n w.input, m.Small :=
      List.forall_mem_append.mpr ⟨hsmall, small_refills hn w.input⟩
    have hnoted : Cursor.require n w = noted (Cursor.require n) (refills n) w := rfl
    cases h : (Cursor.require n w.input : EStateM.Result Fault (BufferedInput ρ) Unit) with
    | ok _ t =>
      rw [noted, h] at hnoted
      have hfinal : final (require n w.input) = t := congrArg final h
      exact .of_ok (adaptExcept_eq_ok.2 h) fun _ =>
        ⟨⟨t, _⟩, adaptExcept_eq_ok.2 hnoted, rfl, hmoves.trans hfinal, hall⟩
    | error e t =>
      rw [noted, h] at hnoted
      have hfinal : final (require n w.input) = t := congrArg final h
      have hs : Input.need n w.input = .error (Error.ofFault e) t := by
        simp only [Input.need, EStateM.adaptExcept, h]
      have hw : Input.need n w = .error (Error.ofFault e) ⟨t, w.moves ++ refills n w.input⟩ := by
        simp only [Input.need, EStateM.adaptExcept, hnoted]
      exact .of_error hs fun _ => ⟨⟨t, _⟩, hw, rfl, hmoves.trans hfinal, hall⟩
  skip n := by
    refine ⟨.skip n, ?_⟩
    rintro _ w ⟨rfl, hperform, hsmall⟩
    refine .of_ok rfl fun _ => ⟨_, rfl, rfl, ?_, ?_⟩
    · change perform (w.moves ++ [.advance n]) start = w.input.advance n
      rw [perform_append, hperform]
      rfl
    · change ∀ m ∈ w.moves ++ [.advance n], m.Small
      rw [List.forall_mem_append]
      exact ⟨hsmall, by simp [Move.Small]⟩

theorem decoding (start : BufferedInput ρ) (options : Options) :
    DecodeFollows (beside start) options :=
  (mirrors start).decoding (fun n => (mirrors start).gather n #[]) options

end Watched

/-- One item is taken from an input: skipped or copied by a walker that may have served before, or
decoded to a type. -/
inductive Reading : Type 1 where
  | skip (walker : Transcriber)
  | copy {τ : Type} [Output τ] (walker : Transcriber) (output : τ)
  | decode (options : Options) (target : Target)

namespace Reading

/-- What a reading gives, in success or in failure; a copy gives its output too. -/
def Answer : Reading → Type
  | skip _ => Except Error Unit
  | @copy τ _ _ _ => Except Error Unit × τ
  | decode _ target => Except Error target.Carrier

variable {σ : Type} [Input σ]

def answer : (r : Reading) → σ → r.Answer
  | skip walker, s => outcome (Transcriber.skipItem (walker, s))
  | copy walker output, s =>
    (outcome (Transcriber.copyItem (walker, s, output)),
      (final (Transcriber.copyItem (walker, s, output))).2.2)
  | decode options target, s => outcome (target.decode options s)

def leave : Reading → σ → σ
  | skip walker, s => (final (Transcriber.skipItem (walker, s))).2
  | copy walker output, s => (final (Transcriber.copyItem (walker, s, output))).2.1
  | decode options target, s => final (target.decode options s)

def leaveAll : List Reading → σ → σ
  | [], s => s
  | r :: rs, s => leaveAll rs (r.leave s)

end Reading

section Readings

variable {ρ : Type} [Source ρ] {start s : BufferedInput ρ} {w : Watched ρ}

/-- A reading of a watched buffer gives what it gives without a watch, and leaves the same. -/
theorem Watched.reading (r : Reading) (hrel : (beside start).rel s w) :
    r.answer w = r.answer s ∧ (beside start).rel (r.leave s) (r.leave w) := by
  -- A walker that served before walks like a fresh one, and those walk abreast.
  cases r with
  | skip walker =>
    obtain ⟨hanswer, hleave⟩ := Transcriber.skipItem_eq walker s
    obtain ⟨hanswer', hleave'⟩ := Transcriber.skipItem_eq walker w
    have hwalk := ((mirrors start).walking (τ := Nowhere) walker.options).walkItem []
    obtain ⟨houtcome, hrel', -⟩ :=
      (hwalk.at_rel (s, {}) (w, {}) ⟨hrel, rfl⟩).ends trivial fun _ => id
    rw [outcome_skipItem] at hanswer hanswer'
    rw [final_skipItem] at hleave hleave'
    simp only [Reading.answer, Reading.leave]
    rw [hanswer, hanswer', hleave, hleave']
    exact ⟨houtcome, hrel'⟩
  | @copy τ _ walker output =>
    obtain ⟨hanswer, hleave⟩ := Transcriber.copyItem_eq walker (s, output)
    obtain ⟨hanswer', hleave'⟩ := Transcriber.copyItem_eq walker (w, output)
    have hwalk := ((mirrors start).walking (τ := τ) walker.options).walkItem []
    obtain ⟨houtcome, hrel', hwritten⟩ :=
      (hwalk.at_rel (s, output) (w, output) ⟨hrel, rfl⟩).ends trivial fun _ => id
    simp only [Reading.answer, Reading.leave]
    rw [hanswer, hanswer', hleave, hleave']
    exact ⟨congrArg₂ Prod.mk houtcome hwritten, hrel'⟩
  | decode options target =>
    exact (((Watched.decoding start options).decode target).at_rel s w hrel).ends trivial
      fun _ => id

theorem Watched.readings (rs : List Reading) (hrel : (beside start).rel s w) :
    (beside start).rel (Reading.leaveAll rs s) (Reading.leaveAll rs w) := by
  induction rs generalizing s w with
  | nil => exact hrel
  | cons r rs ih => exact ih (Watched.reading r hrel).2

/-- Reading items never makes a buffer grow. Whatever the source hands out and wherever it fails,
and whatever items are skipped, copied and decoded one after another, by whatever options and with
whatever results, the buffer is at every moment as large as it was made and holds what is resident;
no refill lacks memory, for none is for more bytes than a head has. The moments are those between
the moves of a watched run, which gives the same answers and leads to the same place. -/
theorem BufferedInput.keeps_its_size (source : ρ) (capacity : Nat) (readings : List Reading) :
    let start := ofSource source capacity
    let s := Reading.leaveAll readings start
    let w := Reading.leaveAll readings (Watched.ofSource source capacity)
    w.input = s ∧ (∀ r : Reading, r.answer w = r.answer s) ∧ perform w.moves start = s ∧
      (∀ n, .makeRoom n ∈ w.moves → n ≤ 9) ∧
      ∀ before, before <+: w.moves →
        (perform before start).capacity = max capacity minimumRoom ∧
        (perform before start).start + (perform before start).resident.size ≤
          (perform before start).capacity ∧
        ∀ m t, before ++ [m] <+: w.moves →
          m.make (perform before start) ≠ .error .notEnoughMemory t := by
  intro start s w
  have hrel : (Watched.beside start).rel s w :=
    Watched.readings readings ⟨rfl, rfl, by simp [Watched.ofSource]⟩
  have hanswers (r : Reading) : r.answer w = r.answer s := (Watched.reading r hrel).1
  obtain ⟨hinput, hperform, hsmall⟩ := hrel
  refine ⟨hinput, hanswers, hperform, fun n hn => hsmall _ hn, fun before hbefore => ?_⟩
  have hsize : 9 ≤ max capacity minimumRoom := Nat.le_trans (by decide) (Nat.le_max_right _ _)
  have hfits := (fits_ofSource source capacity).perform hsize
    fun m hm => hsmall m (hbefore.subset hm)
  refine ⟨hfits.capacity_eq, hfits.within, fun m t hnext => ?_⟩
  have hm : m ∈ w.moves := hnext.subset (List.mem_append_right before (List.mem_singleton_self m))
  exact (hfits.make hsize (hsmall m hm)).2 t

/-- A string of ten bytes, and behind it one that declares far more than comes. Its head begins
where the buffer has room for five of its nine bytes, and nothing grows for it or for the rest. -/
example :
    let input := ofSource (ScheduledSource.ofBytes ([0x4A, 0, 1, 2, 3, 4, 5, 6, 7, 8, 9] ++
      [0x5B, 0x40, 0, 0, 0, 0, 0, 0, 0, 1, 2]) #[] none) 0
    let before := final (readBytes {} input)
    let declared := readBytes { maxStringSize := 0xFFFFFFFFFFFFFFFF } before
    (before.capacity, before.start, before.resident.size) = (16, 11, 5) ∧
      outcome declared = .error .endOfStream ∧ (final declared).capacity = 16 := by
  decide +kernel

end Readings

end CborCodec
