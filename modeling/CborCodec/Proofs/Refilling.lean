import CborCodec.Proofs.Supply
/-!
What a buffer over a source holds, whatever calls were made and whichever of them failed. The bytes
that have left it and then those that are resident are the ones that the source has handed out, in
order. The source is never asked to read into no room at all, so where a read brings nothing the
source has ended.
-/

namespace CborCodec

namespace Source

variable {ρ : Type} [Source ρ] {r s t : ρ} {bs : Bytes} {ended : Bool}

/-- Reads into room for at least a byte lead from the first source to the second, and have handed
out the bytes. Some of them may have failed; `ended` says whether one of them brought nothing. -/
inductive Hands (r : ρ) : Bytes → Bool → ρ → Prop
  | start : Hands r [] false r
  | brought {bs cs : Bytes} {ended : Bool} {n : Nat} {s t : ρ} (h : Hands r bs ended s) (hn : 0 < n)
      (hread : read n s = .ok cs t) : Hands r (bs ++ cs) (ended || cs.isEmpty) t
  | failed {bs : Bytes} {ended : Bool} {n : Nat} {e : DeviceError} {s t : ρ}
      (h : Hands r bs ended s) (hn : 0 < n) (hread : read n s = .error e t) : Hands r bs ended t

/-- A source that may fail at any read, and brings nothing only when all of its bytes are handed
out. -/
def Truthful (r : ρ) : Prop :=
  ∃ P : ρ → Prop, P r ∧ ∀ s n, P s → 0 < n →
    P (final (read n s)) ∧ ∀ t, read n s = .ok [] t → pending s = []

/-- What a source has handed out is gone from the front of what it held. -/
theorem Hands.pending_eq (h : Hands r bs ended t) : pending r = bs ++ pending t := by
  induction h with
  | start => rfl
  | brought _ _ hread ih => rw [ih, pending_of_read _ _ _ _ hread, List.append_assoc]
  | failed _ _ hread ih => rw [ih, pending_of_failed_read _ _ _ _ hread]

/-- The end that was seen is the end. -/
theorem Hands.pending_eq_nil (h : Hands r bs true t) (hr : Truthful r) : pending t = [] := by
  obtain ⟨P, hPr, hP⟩ := hr
  suffices hall : ∀ {bs ended t}, Hands r bs ended t → P t ∧ (ended = true → pending t = []) from
    (hall h).2 rfl
  intro bs ended t h
  induction h with
  | start => exact ⟨hPr, nofun⟩
  | @brought bs cs ended n s t _ hn hread ih =>
    obtain ⟨hPs, hend⟩ := ih
    obtain ⟨hPt, hnil⟩ := hP s n hPs hn
    have hpending := pending_of_read _ _ _ _ hread
    rw [hread, final_ok] at hPt
    refine ⟨hPt, fun hended => ?_⟩
    have hs : pending s = [] := by
      rcases Bool.or_eq_true_iff.mp hended with hbefore | hnow
      · exact hend hbefore
      · rw [List.isEmpty_iff.mp hnow] at hread
        exact hnil t hread
    rw [hs] at hpending
    exact (List.append_eq_nil_iff.mp hpending.symm).2
  | @failed bs ended n e s t _ hn hread ih =>
    obtain ⟨hPs, hend⟩ := ih
    have hPt := (hP s n hPs hn).1
    rw [hread, final_error] at hPt
    refine ⟨hPt, fun hended => ?_⟩
    rw [pending_of_failed_read _ _ _ _ hread]
    exact hend hended

end Source

/-- A schedule without empty pieces is truthful, wherever it fails. -/
theorem ScheduledSource.truthful (data : Bytes) {pieces : Array Nat} (h : ∀ k ∈ pieces, 0 < k)
    (failure : Option (Nat × DeviceError)) : Source.Truthful (ofBytes data pieces failure) := by
  -- No more is given than up to a failure, so a failure to come is not yet passed.
  refine ⟨fun s => s.pieces = pieces ∧ ∀ f, s.failure = some f → s.handed ≤ f.1,
    ⟨rfl, fun _ _ => Nat.zero_le _⟩, ?_⟩
  intro s n hs hn
  obtain ⟨hpieces, hhanded⟩ := hs
  have hgiven : ∀ f, s.failure = some f →
      s.handed + (s.rest.take (s.allowance n)).length ≤ f.1 := by
    intro f hf
    have hle : s.allowance n ≤ f.1 - s.handed := by
      unfold allowance
      simp only [hf]
      exact Nat.min_le_right _ _
    have htaken := List.length_take_le (s.allowance n) s.rest
    have hbefore := hhanded f hf
    omega
  have hgive (hdue : ∀ f, s.failure = some f → s.handed < f.1) (hread : read n s = s.give n) :
      ((final (read n s)).pieces = pieces ∧
        ∀ f, (final (read n s)).failure = some f → (final (read n s)).handed ≤ f.1) ∧
      ∀ t, read n s = .ok [] t → s.rest = [] := by
    rw [hread]
    have hallowance := allowance_pos (hpieces ▸ h) hn hdue
    exact ⟨⟨hpieces, hgiven⟩, fun t ht => rest_eq_nil_of_give hallowance ht⟩
  cases hf : s.failure with
  | none =>
    apply hgive
    · intro f hsome
      rw [hf] at hsome
      cases hsome
    · simp only [read, hf]
  | some f =>
    by_cases hdue : s.handed = f.1
    · have hread : read n s = .error f.2 { s with failure := none } := by
        simp only [read, hf, if_pos hdue]
      have hread' : Source.read n s = .error f.2 { s with failure := none } := hread
      rw [hread']
      refine ⟨⟨hpieces, ?_⟩, ?_⟩
      · intro g hsome
        cases hsome
      · intro t ht
        cases ht
    · apply hgive
      · intro g hsome
        have hle := hhanded g hsome
        rw [hf] at hsome
        cases hsome
        omega
      · simp only [read, hf, if_neg hdue]

namespace Cursor

variable {σ : Type} [Cursor σ] {n : Nat} {s t : σ}

/-- The bytes that `gather` has copied out when it ends, in success or in failure. -/
def poured (n : Nat) (s : σ) : Bytes :=
  if n = 0 then []
  else
    match _h : require 1 s with
    | .error _ _ => []
    | .ok () t =>
      let k := min n (window t).size
      (window t).toList.take k ++ poured (n - k) (discard k t)
termination_by n
decreasing_by
  have := size_of_require _ _ _ ‹_›
  omega

theorem poured_zero (s : σ) : poured 0 s = [] := by
  rw [poured, if_pos rfl]

theorem poured_error {e : Fault} (hn : n ≠ 0) (h : require 1 s = .error e t) :
    poured n s = [] := by
  rw [poured, if_neg hn]
  split
  · rfl
  · next u hu =>
    rw [h] at hu
    cases hu

theorem poured_turn (hn : n ≠ 0) (h : require 1 s = .ok () t) :
    poured n s = (window t).toList.take (min n (window t).size) ++
      poured (n - min n (window t).size) (discard (min n (window t).size) t) := by
  rw [poured, if_neg hn]
  split
  · next e u hu =>
    rw [h] at hu
    cases hu
  · next u hu =>
    rw [h] at hu
    cases hu
    rfl

/-- A bulk read that succeeds answers with the bytes it has copied out. -/
theorem gather_eq_ok {acc : Array UInt8} {out : Bytes} (h : gather n acc s = .ok out t) :
    out = acc.toList ++ poured n s := by
  fun_induction gather n acc s with
  | case1 acc s =>
    cases h
    rw [poured_zero, List.append_nil]
  | case2 => cases h
  | case3 n acc s hn u hrequire k ih =>
    rw [ih h, poured_turn hn hrequire]
    simp [k]

end Cursor

namespace BufferedInput

variable {ρ : Type} [Source ρ] {source : ρ} {gone : Bytes} {s t : BufferedInput ρ} {n : Nat}

/-- After `gone` has left the buffer it holds what else its source has handed out. -/
structure Holds (source : ρ) (gone : Bytes) (s : BufferedInput ρ) : Prop where
  hands : Source.Hands source (gone ++ s.resident.toList) s.ended s.source
  consumed_eq : s.consumed = gone.length
  room : minimumRoom ≤ s.capacity
  allocated : s.capacity ≤ allocationLimit
  within : s.start + s.resident.size ≤ s.capacity

theorem holds_ofSource {capacity : Nat} (hcapacity : capacity ≤ allocationLimit) :
    Holds source [] (ofSource source capacity) where
  hands := .start
  consumed_eq := rfl
  room := Nat.le_max_right _ _
  allocated := Nat.max_le.mpr ⟨hcapacity, by decide⟩
  within := Nat.zero_le _

/-- Making room moves or enlarges the buffer, and where it succeeds there is some. -/
theorem Holds.makeRoom (h : Holds source gone s) (hn : n ≤ 2 ^ 63)
    (hlack : s.resident.size < n) :
    Holds source gone (final (makeRoom n s)) ∧ ∀ t, makeRoom n s = .ok () t → 0 < t.free := by
  have hroom := h.room
  have hallocated := h.allocated
  have hwithin := h.within
  -- The end of such a request is a word, wherever in the buffer it begins.
  have hword : (s.start + n) % UInt64.size = s.start + n := by
    refine Nat.mod_eq_of_lt ?_
    unfold allocationLimit at hallocated
    unfold UInt64.size
    omega
  have hfront : Holds source gone { s with start := 0 } :=
    { h with within := by dsimp only; omega }
  unfold BufferedInput.makeRoom
  rw [hword]
  by_cases hfits : s.start + n ≤ s.capacity
  · rw [if_pos hfits]
    refine ⟨h, ?_⟩
    rintro t ⟨⟩
    unfold free
    omega
  rw [if_neg hfits]
  by_cases hmoved : n ≤ s.capacity
  · rw [if_pos hmoved]
    refine ⟨hfront, ?_⟩
    rintro t ⟨⟩
    unfold free
    dsimp only
    omega
  rw [if_neg hmoved]
  by_cases hlimit : n < allocationLimit
  · rw [if_pos hlimit]
    have hgrown : Holds source gone { s with start := 0, capacity := n } :=
      { h with
        room := hroom.trans (Nat.le_of_not_le hmoved)
        allocated := hlimit.le
        within := by dsimp only; omega }
    refine ⟨hgrown, ?_⟩
    rintro t ⟨⟩
    unfold free
    dsimp only
    omega
  · rw [if_neg hlimit]
    exact ⟨hfront, nofun⟩

/-- A read into some room brings bytes behind the resident ones, or the end, or fails. -/
theorem Holds.fetch (h : Holds source gone s) (hfree : 0 < s.free) :
    Holds source gone (final (fetch s)) := by
  unfold BufferedInput.fetch
  cases hread : Source.read s.free s.source with
  | error e u => exact { h with hands := h.hands.failed hfree hread }
  | ok bs u =>
    have hhands := h.hands.brought hfree hread
    have hlength := Source.length_of_read _ _ _ _ hread
    cases bs with
    | nil =>
      rw [List.append_nil, List.isEmpty_nil, Bool.or_true] at hhands
      exact { h with hands := hhands }
    | cons b bs =>
      rw [List.isEmpty_cons, Bool.or_false, List.append_assoc] at hhands
      exact { h with hands := hhands, within := within_append h.within hlength }

/-- A refill puts what the source hands out behind the resident bytes, and fails without a loss. -/
theorem Holds.fill (h : Holds source gone s) (hn : n ≤ 2 ^ 63)
    (hlack : s.resident.size < n) : Holds source gone (final (fill n s)) := by
  obtain ⟨hmade, hfree⟩ := h.makeRoom hn hlack
  rw [fill_eq]
  cases hmake : BufferedInput.makeRoom n s with
  | error e t =>
    rw [hmake] at hmade
    exact hmade
  | ok _ t =>
    rw [hmake] at hmade
    exact Holds.fetch hmade (hfree t hmake)

/-- A request keeps every byte, in success and in failure. -/
theorem Holds.require (h : Holds source gone s) (hn : n ≤ 2 ^ 63) :
    Holds source gone (final (require n s)) := by
  fun_induction BufferedInput.require n s with
  | case1 => exact h
  | case2 => exact h
  | case3 s hsize _ e t hfill =>
    have hfilled := h.fill hn (Nat.lt_of_not_le hsize)
    rw [hfill] at hfilled
    exact hfilled
  | case4 s hsize _ t hfill ih =>
    have hfilled := h.fill hn (Nat.lt_of_not_le hsize)
    rw [hfill] at hfilled
    exact ih hfilled

/-- Bytes that are moved past leave at the front. -/
theorem Holds.advance (h : Holds source gone s) (n : Nat) :
    Holds source (gone ++ s.resident.toList.take n) (s.advance n) := by
  have hcounted := h.consumed_eq
  have hsize := s.resident.size_eq
  refine { h with hands := ?_, consumed_eq := ?_, within := within_advance h.within n }
  · have hwhole : gone ++ s.resident.toList.take n ++
        s.resident.toList.drop (min n s.resident.size) = gone ++ s.resident.toList := by
      rw [hsize, List.append_assoc, List.take_eq_take_min, List.take_append_drop]
    show Source.Hands source (gone ++ s.resident.toList.take n ++
      s.resident.toList.drop (min n s.resident.size)) s.ended s.source
    rw [hwhole]
    exact h.hands
  · show s.consumed + min n s.resident.size = (gone ++ s.resident.toList.take n).length
    rw [List.length_append, List.length_take, hcounted, hsize]

/-- A bulk read takes out what it has copied, also where it fails. -/
theorem Holds.gather (h : Holds source gone s) (n : Nat) (acc : Array UInt8) :
    Holds source (gone ++ Cursor.poured n s) (final (Cursor.gather n acc s)) := by
  fun_induction Cursor.gather n acc s generalizing gone with
  | case1 acc s =>
    rw [Cursor.poured_zero, List.append_nil]
    exact h
  | case2 n acc s hn e t hrequire =>
    have hrequired : Holds source gone (final (BufferedInput.require 1 s)) := h.require (by decide)
    change BufferedInput.require 1 s = .error e t at hrequire
    rw [hrequire] at hrequired
    rw [Cursor.poured_error hn hrequire, List.append_nil]
    exact hrequired
  | case3 n acc s hn t hrequire k =>
    rename_i ih
    have hrequired : Holds source gone (final (BufferedInput.require 1 s)) := h.require (by decide)
    change BufferedInput.require 1 s = .ok () t at hrequire
    rw [hrequire] at hrequired
    rw [Cursor.poured_turn hn hrequire, ← List.append_assoc]
    exact ih (Holds.advance hrequired k)

theorem final_atEnd (s : BufferedInput ρ) :
    final (atEnd s) = if s.resident.size = 0 ∧ s.ended = false then final (fill 1 s) else s := by
  unfold atEnd
  simp only [bind_apply, get_apply, Bool.not_eq_true']
  by_cases hlook : s.resident.size = 0 ∧ s.ended = false
  · rw [if_pos hlook, if_pos hlook, bind_apply]
    cases fill 1 s <;> rfl
  · rw [if_neg hlook, if_neg hlook]
    rfl

theorem Holds.atEnd (h : Holds source gone s) : Holds source gone (final (atEnd s)) := by
  rw [final_atEnd]
  split
  · next hlook =>
    apply h.fill (by decide)
    omega
  · exact h

inductive Call where
  | require (n : Nat)
  | discard (n : Nat)
  | bulkRead (n : Nat)
  | atEnd
  deriving DecidableEq

namespace Call

def make : Call → EStateM Fault (BufferedInput ρ) Unit
  | require n => Cursor.require n
  | discard n => modify (Cursor.discard n)
  | bulkRead n => do let _ ← Input.bulkRead n
  | atEnd => do let _ ← BufferedInput.atEnd

/-- The bytes that a call takes out of the buffer, to pass over them or to copy them out. A bulk
read that fails has copied some out before. -/
def released : Call → BufferedInput ρ → Bytes
  | require _, _ => []
  | discard n, s => (window s).toList.take n
  | bulkRead n, s =>
    match Input.bulkRead n s with
    | .ok out _ => out
    | .error _ _ => Cursor.poured n s
  | atEnd, _ => []

/-- No request ends beyond the greatest word, wherever in a buffer it begins. -/
def Addressable : Call → Prop
  | require n => n ≤ 2 ^ 63
  | _ => True

/-- A call takes bytes out of the buffer and loses none. -/
theorem holds_make (c : Call) (hc : c.Addressable) (h : Holds source gone s) :
    Holds source (gone ++ c.released s) (final (c.make s)) := by
  cases c with
  | require n =>
    rw [released, List.append_nil]
    exact h.require hc
  | discard n => exact h.advance n
  | bulkRead n =>
    have hgather := h.gather n #[]
    have hmake : (bulkRead n).make s = (Input.bulkRead n >>= fun _ => pure ()) s := rfl
    have hbulk : Input.bulkRead n s = Cursor.gather n #[] s := rfl
    rw [hmake, bind_apply, released, hbulk]
    cases hread : Cursor.gather n #[] s with
    | ok out t =>
      rw [hread] at hgather
      have hout := Cursor.gather_eq_ok hread
      rw [List.nil_append] at hout
      rw [hout]
      exact hgather
    | error e t =>
      rw [hread] at hgather
      exact hgather
  | atEnd =>
    have hend := h.atEnd
    have hmake : atEnd.make s = (BufferedInput.atEnd >>= fun _ => pure ()) s := rfl
    rw [hmake, bind_apply, released, List.append_nil]
    cases hlook : BufferedInput.atEnd s with
    | ok b t =>
      rw [hlook] at hend
      exact hend
    | error e t =>
      rw [hlook] at hend
      exact hend

end Call

def after : List Call → BufferedInput ρ → BufferedInput ρ
  | [], s => s
  | c :: cs, s => after cs (final (c.make s))

def released : List Call → BufferedInput ρ → Bytes
  | [], _ => []
  | c :: cs, s => c.released s ++ released cs (final (c.make s))

/-- By induction on the calls, no byte is lost, whichever of them fail. -/
theorem holds_after {calls : List Call} (hcalls : ∀ c ∈ calls, c.Addressable)
    (h : Holds source gone s) : Holds source (gone ++ released calls s) (after calls s) := by
  induction calls generalizing gone s with
  | nil =>
    rw [released, List.append_nil]
    exact h
  | cons c cs ih =>
    rw [List.forall_mem_cons] at hcalls
    rw [released, after, ← List.append_assoc]
    exact ih hcalls.2 (c.holds_make hcalls.1 h)

/-- A refill that fails does so for want of memory, or because the source failed. -/
theorem fill_ne_endOfStream (n : Nat) (s t : BufferedInput ρ) :
    fill n s ≠ .error .endOfStream t := by
  intro h
  rw [fill_eq] at h
  split at h
  · next u _ =>
    unfold fetch at h
    split at h <;> cases h
  · next e u hmake =>
    cases h
    unfold makeRoom at hmake
    repeat' split at hmake
    all_goals cases hmake

/-- A request finds the end only where there is too little before it. -/
theorem require_endOfStream (h : require n s = .error .endOfStream t) :
    t.ended = true ∧ t.resident.size < n := by
  fun_induction BufferedInput.require n s with
  | case1 => cases h
  | case2 s hsize hended =>
    cases h
    exact ⟨hended, Nat.lt_of_not_le hsize⟩
  | case3 s _ _ e u hfill =>
    cases h
    exact absurd hfill (fill_ne_endOfStream n s t)
  | case4 _ _ _ _ _ ih => exact ih h

theorem Holds.length_rest (h : Holds source gone s) (hsource : Source.Truthful source)
    (hended : s.ended = true) : (rest s).length = s.resident.size := by
  have hhands := h.hands
  rw [hended] at hhands
  rw [rest, hhands.pending_eq_nil hsource, List.append_nil, s.resident.size_eq]

/-- Through a buffer of any capacity over a source that may fail and go on, the bytes that calls
took out of the buffer and those that are resident are, whatever calls were made and whichever of
them failed, the ones that the source has handed out, in reads into some room each, and the rest is
still to come. The end is seen only where it is, and from there on the bound on what is left is
exact. -/
theorem keeps_every_byte (source : ρ) (capacity : Nat) (calls : List Call)
    (hsource : Source.Truthful source) (hcapacity : capacity ≤ allocationLimit)
    (hcalls : ∀ c ∈ calls, c.Addressable) :
    let s := after calls (ofSource source capacity)
    let gone := released calls (ofSource source capacity)
    Source.Hands source (gone ++ (window s).toList) s.ended s.source ∧
      Source.pending source = gone ++ stream s ∧
      position s = gone.length ∧
      (s.ended = true → Source.pending s.source = []) ∧
      available s = (if s.ended then (stream s).length else unknownLength) ∧
      ∀ n ≤ 2 ^ 63,
        (∀ t, Cursor.require n s = .ok () t → n ≤ (window t).size) ∧
        ∀ t, Cursor.require n s = .error .endOfStream t →
          t.ended = true ∧ Source.pending t.source = [] ∧ (stream t).length < n := by
  intro s gone
  have hholds : Holds source gone s := holds_after hcalls (holds_ofSource hcapacity)
  refine ⟨hholds.hands, ?_, hholds.consumed_eq, ?_, ?_, ?_⟩
  · rw [hholds.hands.pending_eq, List.append_assoc]
    rfl
  · intro hended
    have hhands := hholds.hands
    rw [hended] at hhands
    exact hhands.pending_eq_nil hsource
  · show (if s.ended then s.resident.size else unknownLength) =
      if s.ended then (rest s).length else unknownLength
    split
    · next hended => rw [hholds.length_rest hsource hended]
    · rfl
  · intro n hn
    refine ⟨fun t ht => Cursor.size_of_require n s t ht, ?_⟩
    intro t ht
    have hrequired := hholds.require hn
    obtain ⟨hended, hsize⟩ := require_endOfStream ht
    change require n s = .error .endOfStream t at ht
    rw [ht, final_error] at hrequired
    have hhands := hrequired.hands
    rw [hended] at hhands
    refine ⟨hended, hhands.pending_eq_nil hsource, ?_⟩
    show (rest t).length < n
    rw [hrequired.length_rest hsource hended]
    exact hsize

theorem keeps_every_byte_of_failing_source :
    let source := ScheduledSource.ofBytes [1, 2, 3, 4, 5, 6, 7, 8] #[1, 2] (some (3, .other))
    let calls := [.require 4, .discard 1, .require 4, .bulkRead 3, .bulkRead 9, .atEnd]
    let s := after calls (ofSource source 0)
    (∀ c ∈ calls, c.Addressable) ∧ s.ended = true ∧
      released calls (ofSource source 0) = [1, 2, 3, 4, 5, 6, 7, 8] ∧
      Source.Hands source ([1, 2, 3, 4, 5, 6, 7, 8] ++ (window s).toList) true s.source := by
  intro source calls s
  have hcalls : ∀ c ∈ calls, c.Addressable := by
    simp [calls, Call.Addressable]
  have hkept := keeps_every_byte source 0 calls (ScheduledSource.truthful _ (by decide) _)
    (by decide) hcalls
  have hreleased : released calls (ofSource source 0) = [1, 2, 3, 4, 5, 6, 7, 8] := by
    decide +kernel
  have hended : s.ended = true := by decide +kernel
  refine ⟨hcalls, hended, hreleased, ?_⟩
  have hhands := hkept.1
  rw [hreleased] at hhands
  change Source.Hands source _ s.ended s.source at hhands
  rw [hended] at hhands
  exact hhands

end BufferedInput

end CborCodec
