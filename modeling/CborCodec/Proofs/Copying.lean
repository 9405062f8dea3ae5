import CborCodec.Proofs.Agreement
import CborCodec.Proofs.Recognition
import CborCodec.Proofs.Simulation
import CborCodec.Proofs.Writing
import CborCodec.Transcriber
/-!
Copying is exact, also where it fails. Whatever the input does, the output gains the bytes that
the input moves past, no more and no fewer, at every way out of the walk. As long as there is room
for them the copy ends as skipping does, and in the same place.
-/

namespace CborCodec

section Peeking

variable {σ α β : Type} [Input σ]

/-- However the action ends, nothing has been consumed. -/
def Still (x : EStateM Error σ α) : Prop := ∀ s, Advances s [] (final (x s))

namespace Still

theorem pure (a : α) : Still (Pure.pure a : EStateM Error σ α) := fun _ => Advances.rfl

theorem get : Still (MonadState.get : EStateM Error σ σ) := fun _ => Advances.rfl

theorem known (e : Except Error α) : Still (known e : EStateM Error σ α) := by
  cases e <;> exact fun _ => Advances.rfl

theorem bind {x : EStateM Error σ α} {f : α → EStateM Error σ β} (hx : Still x)
    (hf : ∀ a, Still (f a)) : Still (x >>= f) := by
  intro s
  have hstill := hx s
  rw [bind_apply]
  cases h : x s with
  | error e t =>
    rw [h] at hstill
    exact hstill
  | ok a t =>
    rw [h] at hstill
    exact hstill.trans (hf a t)

theorem need (n : Nat) : Still (Input.need n : EStateM Error σ Unit) := by
  intro s
  have hstill := Cursor.advances_require n s
  unfold Input.need
  cases h : (Cursor.require n s : EStateM.Result Fault σ Unit) <;>
    simpa [EStateM.adaptExcept, h] using hstill

theorem atBreak : Still (atBreak : EStateM Error σ Bool) :=
  (need 1).bind fun _ => get.bind fun _ => pure _

theorem peekHead (mode : Mode) : Still (peekHead mode : EStateM Error σ Head) := by
  have hexact : Still (peekHeadExactly : EStateM Error σ Head) :=
    (need 1).bind fun _ => get.bind fun _ => (need _).bind fun _ => get.bind fun _ => known _
  have hany : Still (peekAnyHead : EStateM Error σ Head) := by
    intro s
    unfold peekAnyHead
    split
    · exact known _ s
    · exact hexact s
  exact hany.bind fun _ => (known _).bind fun _ => pure _

end Still

end Peeking

section Outputs

/-- Outputs that keep what is written to them, and take a write as a whole or not at all. -/
class Recording (τ : Type) [Output τ] where
  written : τ → Bytes
  /-- So many bytes more can be written. -/
  HasSpace : τ → Nat → Prop
  written_ensure : ∀ n (o : τ), written (final (Room.ensure n o)) = written o
  written_commit : ∀ bs (o : τ), written (Room.commit bs o) = written o ++ bs
  bulkWrite_eq : ∀ bs, (Output.bulkWrite bs : EStateM Fault τ Unit) = (do
    Room.ensure bs.length
    modify (Room.commit bs))
  ensure_ok : ∀ (bs : Bytes) m (o : τ), HasSpace o (bs.length + m) →
    ∃ o', Room.ensure bs.length o = .ok () o' ∧ HasSpace (Room.commit bs o') m

open Recording

instance : Recording GrowingOutput where
  written := GrowingOutput.toBytes
  HasSpace := GrowingOutput.HasRoom
  written_ensure n o := by
    rcases GrowingOutput.ensure_cases n o with ⟨o', ho', hbytes⟩ | ho
    · exact (congrArg (fun r => GrowingOutput.toBytes (final r)) ho').trans hbytes
    · exact congrArg (fun r => GrowingOutput.toBytes (final r)) ho
  written_commit bs o := Array.toList_appendList ..
  bulkWrite_eq _ := rfl
  ensure_ok bs m o h := by
    unfold GrowingOutput.HasRoom at h
    obtain ⟨o', ho', hbytes⟩ := GrowingOutput.ensure_ok (o := o) (n := bs.length)
      (by unfold GrowingOutput.HasRoom; omega)
    refine ⟨o', ho', ?_⟩
    have hwritten : (GrowingOutput.commit bs o').toBytes = o'.toBytes ++ bs :=
      Array.toList_appendList ..
    unfold GrowingOutput.HasRoom
    change 2 * ((GrowingOutput.commit bs o').toBytes.length + m) + pieceRoom < allocationLimit
    rw [hwritten, hbytes, List.length_append]
    omega

instance : Recording FixedOutput where
  written := FixedOutput.toBytes
  HasSpace o n := n ≤ o.free
  written_ensure n o := by
    change FixedOutput.toBytes (final (FixedOutput.ensure n o)) = _
    unfold FixedOutput.ensure
    split <;> rfl
  written_commit bs o := Array.toList_appendList ..
  bulkWrite_eq _ := rfl
  ensure_ok bs m o h := by
    refine ⟨o, if_pos (by omega), ?_⟩
    change m ≤ o.free - bs.length
    omega

variable {τ : Type} [Output τ] [Recording τ]

theorem put_eq (bs : Bytes) : (Output.put bs : EStateM Error τ Unit) = Output.putHead bs :=
  put_eq_putHead (bulkWrite_eq bs)

/-- A write adds its bytes, or fails and adds nothing. -/
theorem putHead_cases (bs : Bytes) (o : τ) :
    (∃ o', Output.putHead bs o = .ok () o' ∧ written o' = written o ++ bs) ∨
      ∃ e o', Output.putHead bs o = .error e o' ∧ written o' = written o := by
  have hensure := written_ensure bs.length o
  simp only [Output.putHead, bind_apply, EStateM.adaptExcept]
  cases h : (Room.ensure bs.length o : EStateM.Result Fault τ Unit) with
  | ok u o' =>
    rw [h, final_ok] at hensure
    exact Or.inl ⟨_, rfl, by rw [written_commit, hensure]⟩
  | error e o' =>
    rw [h, final_error] at hensure
    exact Or.inr ⟨_, o', rfl, hensure⟩

theorem putHead_ok {bs : Bytes} {m : Nat} {o : τ} (h : HasSpace o (bs.length + m)) :
    ∃ o', Output.putHead bs o = .ok () o' ∧ HasSpace o' m := by
  obtain ⟨o', ho', hspace⟩ := ensure_ok bs m o h
  exact ⟨_, bind_eq_ok.2 ⟨(), o', adaptExcept_eq_ok.2 ho', rfl⟩, hspace⟩

/-- Pieces that are put are written in order. -/
theorem written_putAll {pieces : List Bytes} {o o' : τ}
    (h : putAll Output.putHead pieces o = .ok () o') :
    written o' = written o ++ pieces.flatten := by
  induction pieces generalizing o with
  | nil =>
    cases h
    rw [List.flatten_nil, List.append_nil]
  | cons bs pieces ih =>
    obtain ⟨_, u, hput, hrest⟩ := bind_eq_ok.mp h
    rcases putHead_cases bs o with ⟨u', hu', hwritten⟩ | ⟨e, u', hu', -⟩
    · rw [hu'] at hput
      cases hput
      rw [ih hrest, hwritten, List.flatten_cons, List.append_assoc]
    · rw [hu'] at hput
      cases hput

theorem Emits.written {α : Type} {x : EStateM Error τ α} {P : Prop} {bs : Bytes} {a c : α}
    {o o' : τ} (h : Emits Output.putHead x P bs a) (hx : x o = .ok c o') :
    P ∧ c = a ∧ Recording.written o' = Recording.written o ++ bs := by
  obtain ⟨hP, hc, pieces, hpieces, rfl⟩ := h.ok hx
  exact ⟨hP, hc, written_putAll hpieces⟩

end Outputs

section Steps

variable {σ τ : Type} [Input σ] [Output τ]

/-- Taking a head: it is seen in the input, written to the output, and then passed over. -/
theorem takeHead_apply (mode : Mode) (i : σ) (o : τ) :
    takeHead mode (i, o) = match peekHead mode i with
      | .error e t => .error e (t, o)
      | .ok h t =>
        match Output.putHead ((window t).toList.take h.encodedLength) o with
        | .error e o' => .error e (t, o')
        | .ok () o' => .ok h (Cursor.discard h.encodedLength t, o') := by
  unfold takeHead emitHead
  rw [← onFirst_peekHead, bind_apply]
  simp only [onFirst]
  cases peekHead mode i with
  | error e t => rfl
  | ok h t =>
    have hwindow : window (t, o) = window t := rfl
    simp only [bind_apply, get_apply, onSecond, hwindow]
    cases Output.putHead ((window t).toList.take h.encodedLength) o <;> rfl

theorem takeHead_error {mode : Mode} {e : Error} {i t : σ} (hp : peekHead mode i = .error e t)
    (o : τ) : takeHead mode (i, o) = .error e (t, o) := by
  rw [takeHead_apply, hp]

theorem takeHead_ok {mode : Mode} {h : Head} {i t : σ} {o o' : τ} (hp : peekHead mode i = .ok h t)
    (ho : Output.putHead ((window t).toList.take h.encodedLength) o = .ok () o') :
    takeHead mode (i, o) = .ok h (Cursor.discard h.encodedLength t, o') := by
  rw [takeHead_apply, hp]
  simp only [ho]

theorem tryClose_apply (frame : Frame) (i : σ) (o : τ) :
    tryClose frame (i, o) = match atBreak i with
      | .error e t => .error e (t, o)
      | .ok false t => .ok false (t, o)
      | .ok true t =>
        if frame.owed = true then .error .itemTypeMismatch (t, o)
        else
          match Output.putHead [breakByte] o with
          | .error e o' => .error e (t, o')
          | .ok () o' => .ok true (Cursor.discard 1 t, o') := by
  unfold tryClose closeContainer emitHead
  rw [← onFirst_atBreak, bind_apply]
  simp only [onFirst]
  cases atBreak i with
  | error e t => rfl
  | ok ended t =>
    cases ended with
    | false => rfl
    | true =>
      simp only [if_true, bind_apply, failIf]
      by_cases howed : frame.owed = true
      · rw [if_pos howed, if_pos howed]
        rfl
      · rw [if_neg howed, if_neg howed]
        simp only [pure_apply, onSecond]
        cases Output.putHead [breakByte] o <;> rfl

theorem tryClose_error {frame : Frame} {e : Error} {i t : σ} (hb : atBreak i = .error e t)
    (o : τ) : tryClose frame (i, o) = .error e (t, o) := by
  rw [tryClose_apply, hb]

theorem tryClose_false {frame : Frame} {i t : σ} (hb : atBreak i = .ok false t) (o : τ) :
    tryClose frame (i, o) = .ok false (t, o) := by
  rw [tryClose_apply, hb]

theorem tryClose_owed {frame : Frame} {i t : σ} (hb : atBreak i = .ok true t)
    (howed : frame.owed = true) (o : τ) :
    tryClose frame (i, o) = .error .itemTypeMismatch (t, o) := by
  rw [tryClose_apply, hb]
  exact if_pos howed

theorem tryClose_ok {frame : Frame} {i t : σ} {o o' : τ} (hb : atBreak i = .ok true t)
    (howed : ¬frame.owed = true) (ho : Output.putHead [breakByte] o = .ok () o') :
    tryClose frame (i, o) = .ok true (Cursor.discard 1 t, o') := by
  rw [tryClose_apply, hb]
  simp only [if_neg howed, ho]

theorem checkAvailable_apply {σ : Type} [Input σ] (major : Major) (count : Nat) (s : σ) :
    checkAvailable major count s =
      if capacityFor major (available s) < count then .error .missingData s else .ok () s := by
  change failIf (capacityFor major (available s) < count) Error.missingData s = _
  unfold failIf
  split <;> rfl

theorem transfer_zero (s : σ × τ) : transfer 0 s = .ok () s := by
  rw [transfer, if_pos rfl]

theorem transfer_apply {n : Nat} (hn : n ≠ 0) (i : σ) (o : τ) :
    transfer n (i, o) = match (Input.need 1 i : EStateM.Result Error σ Unit) with
      | .error e t => .error e (t, o)
      | .ok () t =>
        match Output.put ((window t).toList.take (min (window t).size n)) o with
        | .error e o' => .error e (t, o')
        | .ok () o' =>
          transfer (n - min (window t).size n)
            (Cursor.discard (min (window t).size n) t, o') := by
  rw [transfer_of_ne hn, ← onFirst_need, bind_apply]
  simp only [onFirst]
  cases (Input.need 1 i : EStateM.Result Error σ Unit) with
  | error e t => rfl
  | ok u t =>
    have hwindow : window (t, o) = window t := rfl
    simp only [bind_apply, get_apply, onSecond, hwindow]
    cases Output.put ((window t).toList.take (min (window t).size n)) o <;> rfl

theorem transfer_error {n : Nat} {e : Error} {i t : σ} (hn : n ≠ 0)
    (hneed : (Input.need 1 i : EStateM.Result Error σ Unit) = .error e t) (o : τ) :
    transfer n (i, o) = .error e (t, o) := by
  rw [transfer_apply hn, hneed]

theorem transfer_turn {n : Nat} {i t : σ} {o o' : τ} (hn : n ≠ 0)
    (hneed : (Input.need 1 i : EStateM.Result Error σ Unit) = .ok () t)
    (hput : Output.put ((window t).toList.take (min (window t).size n)) o = .ok () o') :
    transfer n (i, o) = transfer (n - min (window t).size n)
      (Cursor.discard (min (window t).size n) t, o') := by
  rw [transfer_apply hn, hneed]
  simp only [hput]

end Steps

section Exact

variable {σ τ : Type} [Input σ] [Output τ] [Recording τ]

open Recording

/-- From one state to the other the output has gained the bytes that the input moved past. -/
def Copied (s t : σ × τ) : Prop := ∃ bs, Advances s bs t ∧ written t.2 = written s.2 ++ bs

namespace Copied

variable {i j : σ} {o o' : τ} {s t u : σ × τ}

theorem trans (h : Copied s t) (k : Copied t u) : Copied s u := by
  obtain ⟨bs, hadv, hw⟩ := h
  obtain ⟨cs, hadv', hw'⟩ := k
  exact ⟨bs ++ cs, hadv.trans hadv', by rw [hw', hw, List.append_assoc]⟩

/-- The input has not moved, and nothing was written. -/
theorem still (hi : Advances i [] j) (ho : written o' = written o) : Copied (i, o) (j, o') :=
  ⟨[], hi, by rw [ho, List.append_nil]⟩

/-- What was at the front of the window is written and passed over. -/
theorem piece {n : Nat} (hi : Advances i [] j)
    (ho : written o' = written o ++ (window j).toList.take n) :
    Copied (i, o) (Cursor.discard n j, o') :=
  ⟨(window j).toList.take n, hi.trans (Cursor.advances_discard n j), ho⟩

end Copied

/-- A head is written before it is moved past, so a failure leaves it in both places or in none. -/
theorem copied_takeHead (mode : Mode) (i : σ) (o : τ) :
    Copied (i, o) (final (takeHead mode (i, o))) := by
  have hpeek := Still.peekHead mode i
  rw [takeHead_apply]
  cases hp : peekHead mode i with
  | error e t =>
    rw [hp] at hpeek
    exact .still hpeek rfl
  | ok h t =>
    rw [hp] at hpeek
    rcases putHead_cases ((window t).toList.take h.encodedLength) o with
      ⟨o', ho', hw⟩ | ⟨e, o', ho', hw⟩
    · simp only [ho', final_ok]
      exact .piece hpeek hw
    · simp only [ho', final_error]
      exact .still hpeek hw

theorem copied_tryClose (frame : Frame) (i : σ) (o : τ) :
    Copied (i, o) (final (tryClose frame (i, o))) := by
  have hbreak := Still.atBreak i
  rw [tryClose_apply]
  cases hb : atBreak i with
  | error e t =>
    rw [hb] at hbreak
    exact .still hbreak rfl
  | ok ended t =>
    rw [hb] at hbreak
    cases ended with
    | false => exact .still hbreak rfl
    | true =>
      by_cases howed : frame.owed = true
      · simp only [if_pos howed, final_error]
        exact .still hbreak rfl
      · simp only [if_neg howed]
        rcases putHead_cases [breakByte] o with ⟨o', ho', hw⟩ | ⟨e, o', ho', hw⟩
        · simp only [ho', final_ok]
          exact ⟨[breakByte], advances_break hb, hw⟩
        · simp only [ho', final_error]
          exact .still hbreak hw

/-- Each window of a payload is written before it is moved past. -/
theorem copied_transfer (n : Nat) (i : σ) (o : τ) :
    Copied (i, o) (final (transfer n (i, o))) := by
  induction n using Nat.strong_induction_on generalizing i o with
  | _ n ih =>
    by_cases hn : n = 0
    · rw [hn, transfer_zero]
      exact .still Advances.rfl rfl
    have hneed := Still.need 1 i
    rw [transfer_apply hn]
    cases h : (Input.need 1 i : EStateM.Result Error σ Unit) with
    | error e t =>
      rw [h] at hneed
      exact .still hneed rfl
    | ok u t =>
      rw [h] at hneed
      have hsize := size_of_need h
      simp only [put_eq]
      rcases putHead_cases ((window t).toList.take (min (window t).size n)) o with
        ⟨o', ho', hw⟩ | ⟨e, o', ho', hw⟩
      · simp only [ho']
        exact (Copied.piece hneed hw).trans (ih _ (by omega) _ o')
      · simp only [ho', final_error]
        exact .still hneed hw

/-- Every way out of the walk leaves the output with the bytes that were consumed. -/
theorem copied_walkItem (options : Options) (below : List Frame) (s : σ × τ) :
    Copied s (final (walkItem options below s)) := by
  have hpieces : WalkFollows (.invariant (Copied s)) options :=
    { takeHead := .of_invariant ((Consumes.takeHead _).mono (Nat.zero_le 1)) fun t ht =>
        ht.trans (copied_takeHead _ t.1 t.2)
      checkAvailable := fun major count => .of_invariant (.checkAvailable _ _) fun t ht => by
        rw [checkAvailable_apply]
        split <;> exact ht
      tryClose := fun frame => .of_invariant (.tryClose frame) fun t ht =>
        ht.trans (copied_tryClose frame t.1 t.2)
      transfer := fun n => .of_invariant ((Consumes.transfer n).mono (Nat.zero_le n)) fun t ht =>
        ht.trans (copied_transfer n t.1 t.2) }
  exact (hpieces.walkItem below).invariant (.still Advances.rfl rfl)

theorem copied_copyItem (options : Options) (s : σ × τ) :
    Copied s (final (copyItem options s)) :=
  copied_walkItem options [] s

/-- Copies that begin and end at one place of one stream have written the same bytes. -/
theorem written_eq_of_position_eq {σ' : Type} [Input σ'] {options : Options} {s : σ} {r : σ'}
    {o : τ} (hstream : stream s = stream r) (hstart : position s = position r)
    (hend : position (final (copyItem options (r, o))) =
      position (final (copyItem options (s, o)))) :
    written (final (copyItem options (r, o))).2 = written (final (copyItem options (s, o))).2 := by
  obtain ⟨bs, hadv, hbs⟩ := copied_copyItem options (s, o)
  obtain ⟨cs, hadv', hcs⟩ := copied_copyItem options (r, o)
  have hlength : cs.length = bs.length := by
    have hposition : position s + bs.length = position r + cs.length :=
      (hadv.2.symm.trans hend.symm).trans hadv'.2
    omega
  have heq : cs ++ _ = bs ++ _ := (hadv'.1.symm.trans hstream.symm).trans hadv.1
  rw [hbs, hcs, (List.append_inj heq hlength).1]

end Exact

section Beside

variable {σ τ : Type} [Input σ] [Output τ] [Recording τ] {limit : Nat}

open Recording

/-- A walk that keeps nothing, beside one that writes. Both stand at one place of the input, and
while that is not beyond the limit there is space for the bytes up to the limit. -/
def Comparison.copying (σ τ : Type) [Input σ] [Output τ] [Recording τ] (limit : Nat) :
    Comparison (σ × Nowhere) (σ × τ) where
  rel s r := s.1 = r.1 ∧ HasSpace r.2 (limit - position s)
  excused _ := False
  live s := position s ≤ limit
  live_of_advances h hl := by
    have hposition := h.2
    omega

/-- What is passed over on the way to the limit can be written, and so can what is left. -/
theorem putHead_upTo {i j : σ} {bs : Bytes} {o : τ} (hadv : Advances i bs j)
    (h : HasSpace o (limit - position i)) (hl : position j ≤ limit) :
    ∃ o', Output.putHead bs o = .ok () o' ∧ HasSpace o' (limit - position j) := by
  have hposition := hadv.2
  refine putHead_ok ?_
  rwa [show bs.length + (limit - position j) = limit - position i by omega]

theorem HasSpace.still {i j : σ} {o : τ} (hadv : Advances i [] j)
    (h : HasSpace o (limit - position i)) : HasSpace o (limit - position j) := by
  rwa [hadv.2, List.length_nil, Nat.add_zero]

/-- With space for the bytes up to the limit a head is copied as it is skipped. -/
theorem copying_takeHead (mode : Mode) :
    Follows (.copying σ τ limit) (takeHead mode) (takeHead mode) := by
  refine ⟨(Consumes.takeHead mode).mono (Nat.zero_le 1), ?_⟩
  rintro ⟨i, k⟩ ⟨_, o⟩ ⟨rfl, hspace⟩
  have hpeek := Still.peekHead mode i
  cases hp : peekHead mode i with
  | error e t =>
    rw [hp] at hpeek
    exact .of_error (takeHead_error hp k)
      fun _ => ⟨_, takeHead_error hp o, rfl, HasSpace.still hpeek hspace⟩
  | ok h t =>
    rw [hp, final_ok] at hpeek
    obtain ⟨k', hk⟩ := Endless.putHead_ok ((window t).toList.take h.encodedLength) k
    refine .of_ok (takeHead_ok hp hk) fun hl => ?_
    obtain ⟨o', ho, hleft⟩ :=
      putHead_upTo (hpeek.trans (Cursor.advances_discard h.encodedLength t)) hspace hl
    exact ⟨_, takeHead_ok hp ho, rfl, hleft⟩

theorem copying_tryClose (frame : Frame) :
    Follows (.copying σ τ limit) (tryClose frame) (tryClose frame) := by
  refine ⟨.tryClose frame, ?_⟩
  rintro ⟨i, k⟩ ⟨_, o⟩ ⟨rfl, hspace⟩
  have hbreak := Still.atBreak i
  cases hb : atBreak i with
  | error e t =>
    rw [hb] at hbreak
    exact .of_error (tryClose_error hb k)
      fun _ => ⟨_, tryClose_error hb o, rfl, HasSpace.still hbreak hspace⟩
  | ok ended t =>
    rw [hb] at hbreak
    cases ended with
    | false =>
      exact .of_ok (tryClose_false hb k)
        fun _ => ⟨_, tryClose_false hb o, rfl, HasSpace.still hbreak hspace⟩
    | true =>
      by_cases howed : frame.owed = true
      · exact .of_error (tryClose_owed hb howed k)
          fun _ => ⟨_, tryClose_owed hb howed o, rfl, HasSpace.still hbreak hspace⟩
      · obtain ⟨k', hk⟩ := Endless.putHead_ok [breakByte] k
        refine .of_ok (tryClose_ok hb howed hk) fun hl => ?_
        obtain ⟨o', ho, hleft⟩ := putHead_upTo (advances_break hb) hspace hl
        exact ⟨_, tryClose_ok hb howed ho, rfl, hleft⟩

/-- With space for the bytes up to the limit a payload is copied as it is skipped. -/
theorem copying_transfer (n : Nat) :
    Follows (.copying σ τ limit) (transfer n) (transfer n) := by
  refine ⟨(Consumes.transfer n).mono (Nat.zero_le n), ?_⟩
  rintro ⟨i, k⟩ ⟨_, o⟩ ⟨rfl, hspace⟩
  -- Both loops take the same turns, for the input decides the size of each piece.
  induction n using Nat.strong_induction_on generalizing i k o with
  | _ n ih =>
    by_cases hn : n = 0
    · rw [hn]
      exact .of_ok (transfer_zero _) fun _ => ⟨_, transfer_zero _, rfl, hspace⟩
    have hneed := Still.need 1 i
    cases h : (Input.need 1 i : EStateM.Result Error σ Unit) with
    | error e t =>
      rw [h] at hneed
      exact .of_error (transfer_error hn h k)
        fun _ => ⟨_, transfer_error hn h o, rfl, HasSpace.still hneed hspace⟩
    | ok u t =>
      rw [h, final_ok] at hneed
      have hsize := size_of_need h
      have hadv := hneed.trans (Cursor.advances_discard (min (window t).size n) t)
      obtain ⟨k', hk⟩ := Endless.put_ok ((window t).toList.take (min (window t).size n)) k
      intro hl
      rw [transfer_turn hn h hk] at hl ⊢
      obtain ⟨bs, hrest, -⟩ := Consumes.transfer (n - min (window t).size n)
        (Cursor.discard (min (window t).size n) t, k')
      have hpiece := (Comparison.copying σ τ limit).live_of_advances hrest hl
      obtain ⟨o', ho, hleft⟩ := putHead_upTo (τ := τ) hadv hspace hpiece
      rw [List.nil_append, ← put_eq] at ho
      rw [transfer_turn hn h ho]
      exact ih _ (by omega) _ k' o' hleft hl

theorem copying_walk (limit : Nat) (options : Options) :
    WalkFollows (.copying σ τ limit) options where
  takeHead := copying_takeHead _
  checkAvailable major count := by
    refine ⟨.checkAvailable _ _, ?_⟩
    rintro ⟨i, k⟩ ⟨_, o⟩ ⟨rfl, hspace⟩
    by_cases hc : capacityFor major (available i) < count
    · exact .of_error ((checkAvailable_apply ..).trans (if_pos hc))
        fun _ => ⟨_, (checkAvailable_apply ..).trans (if_pos hc), rfl, hspace⟩
    · exact .of_ok ((checkAvailable_apply ..).trans (if_neg hc))
        fun _ => ⟨_, (checkAvailable_apply ..).trans (if_neg hc), rfl, hspace⟩
  tryClose := copying_tryClose
  transfer := copying_transfer

omit [Output τ] [Recording τ] in
theorem final_skipItem (options : Options) (i : σ) :
    final (skipItem options i) = (final (copyItem options (i, ({} : Nowhere)))).1 := by
  unfold skipItem
  cases copyItem options (i, ({} : Nowhere)) <;> rfl

omit [Output τ] [Recording τ] in
theorem outcome_skipItem (options : Options) (i : σ) :
    outcome (skipItem options i) = outcome (copyItem options (i, ({} : Nowhere))) := by
  unfold skipItem
  cases copyItem options (i, ({} : Nowhere)) <;> rfl

/-- With space for what skipping passes over, copying ends as skipping does and where it does. -/
theorem copyItem_eq_skipItem {options : Options} {i : σ} {o : τ}
    (h : HasSpace o (position (final (skipItem options i)) - position i)) :
    outcome (copyItem options (i, o)) = outcome (skipItem options i) ∧
      (final (copyItem options (i, o))).1 = final (skipItem options i) := by
  rw [final_skipItem] at h
  rw [outcome_skipItem, final_skipItem]
  have hfollows := (copying_walk (σ := σ) (τ := τ)
    (position (final (copyItem options (i, ({} : Nowhere))))) options).walkItem []
  obtain ⟨houtcome, hrel, -⟩ :=
    (hfollows.at_rel (i, {}) (i, o) ⟨rfl, h⟩).ends (Nat.le_refl _) fun _ => id
  exact ⟨houtcome, hrel.symm⟩

end Beside

namespace Transcriber

variable {σ τ : Type} [Input σ] [Output τ] {w w' : Transcriber} {i : σ} {o : τ}

/-- What the kept walker was left with does not matter to a copy. -/
theorem copyItem_eq (w : Transcriber) (s : σ × τ) :
    outcome (copyItem (w, s)) = outcome (CborCodec.copyItem w.options s) ∧
      (final (copyItem (w, s))).2 = final (CborCodec.copyItem w.options s) := by
  rw [copyItem_apply, onSecond]
  cases CborCodec.copyItem w.options s <;> exact ⟨rfl, rfl⟩

omit [Output τ] in
theorem skipItem_eq (w : Transcriber) (i : σ) :
    outcome (skipItem (w, i)) = outcome (CborCodec.skipItem w.options i) ∧
      (final (skipItem (w, i))).2 = final (CborCodec.skipItem w.options i) := by
  rw [skipItem_apply, onSecond]
  cases CborCodec.skipItem w.options i <;> exact ⟨rfl, rfl⟩

/-- A copy from `i` to `o` is exact: what the output gains, success or not, is what the input moved
past, and an item if the copy succeeds. With space for what a walker of the same options skips, the
copy gives the same answer or failure as skipping and leaves the input in the same state. -/
structure CopiesExactly (w : Transcriber) (i : σ) (o : τ) (bytesOf : τ → Bytes)
    (hasSpace : τ → Nat → Prop) : Prop where
  gained : ∃ bs, Advances i bs (final (copyItem (w, i, o))).2.1 ∧
    bytesOf (final (copyItem (w, i, o))).2.2 = bytesOf o ++ bs ∧
    (outcome (copyItem (w, i, o)) = .ok () → WellFormed w.options bs)
  skips : ∀ w' : Transcriber, w'.options = w.options →
    hasSpace o (position (final (skipItem (w', i))).2 - position i) →
    outcome (copyItem (w, i, o)) = outcome (skipItem (w', i)) ∧
      (final (copyItem (w, i, o))).2.1 = (final (skipItem (w', i))).2

/-- Every output that takes a write as a whole or not at all gets an exact copy. -/
theorem copiesExactly [Recording τ] (w : Transcriber) (i : σ) (o : τ) :
    CopiesExactly w i o Recording.written Recording.HasSpace := by
  obtain ⟨houtcome, hfinal⟩ := copyItem_eq w (i, o)
  constructor
  · obtain ⟨bs, hadv, hwritten⟩ := copied_copyItem w.options (i, o)
    refine ⟨bs, by rw [hfinal]; exact hadv, by rw [hfinal]; exact hwritten, fun hok => ?_⟩
    rw [houtcome] at hok
    cases h : CborCodec.copyItem w.options (i, o) with
    | error e t =>
      rw [h] at hok
      cases hok
    | ok u t =>
      obtain ⟨item, hitem, hwell⟩ := Reads.copyItem w.options _ _ _ h
      rw [h] at hadv
      rwa [hadv.eq_left hitem]
  · intro w' hw hspace
    obtain ⟨hskip, hskipped⟩ := skipItem_eq w' i
    rw [hw] at hskip hskipped
    rw [hskipped] at hspace ⊢
    rw [houtcome, hfinal, hskip]
    exact copyItem_eq_skipItem hspace

/-- Copying is exact from any input, whatever the walker was left with, to a growing output whose
growth stays within the memory there is and to one of a fixed size. -/
theorem copyItem_exact (w : Transcriber) (i : σ) :
    (∀ o : GrowingOutput, CopiesExactly w i o GrowingOutput.toBytes GrowingOutput.HasRoom) ∧
      ∀ o : FixedOutput, CopiesExactly w i o FixedOutput.toBytes fun o n => n ≤ o.free :=
  ⟨fun o => copiesExactly w i o, fun o => copiesExactly w i o⟩

end Transcriber

end CborCodec
