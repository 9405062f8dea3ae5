import CborCodec.Proofs.Abreast
import CborCodec.Proofs.Refilling
/-!
Peeking at a head. Whether its bytes are resident already, or how many refills it takes until they
are, depends on all that was read before; the head that is seen, or the error, does not. It is that
of the bytes to come, which stay to come, and then the head is read from what is resident.
-/

namespace CborCodec

section States

variable {σ : Type} [Input σ] {P : σ → Prop} {s : σ} {mode : Mode}

/-- Peeking at a head from this state answers by the stream alone and moves nothing along it. All
bytes of a head that is seen are resident then, and a read that follows gives the same head and
moves past exactly these bytes. -/
structure SeesHead (mode : Mode) (s : σ) : Prop where
  answers : outcome (peekHead mode s) = headIn mode (stream s)
  stream_eq : stream (final (peekHead mode s)) = stream s
  position_eq : position (final (peekHead mode s)) = position s
  resident : ∀ head t, peekHead mode s = .ok head t → head.encodedLength ≤ (window t).size
  reads : ∀ head t, peekHead mode s = .ok head t → ∃ u, readHead mode t = .ok head u ∧
    stream u = (stream s).drop head.encodedLength ∧
    position u = position s + head.encodedLength

/-- An input that answers for its stream shows the head of it and is left where it was. -/
theorem Answering.seesHead (hP : Answering P) (hs : P s) : SeesHead mode s := by
  obtain ⟨t, ht, hstill, hpeek, hsize⟩ := Sees.peekHead hP mode s hs
  have hanswer : outcome (peekHead mode s) = headIn mode (stream s) := by
    rw [hpeek, outcome_known]
  have hfinal : final (peekHead mode s) = t := by
    rw [hpeek, final_known]
  refine ⟨hanswer, hfinal ▸ hstill.of_nil, ?_, ?_, ?_⟩
  · rw [hfinal]
    exact hstill.2
  · intro head u hu
    rw [hu] at hanswer hfinal
    obtain rfl : u = t := hfinal
    exact hsize head hanswer.symm
  · intro head u hu
    rw [hu] at hanswer hfinal
    obtain rfl : u = t := hfinal
    obtain ⟨v, -, hstill', hagain, hsize'⟩ := Sees.peekHead hP mode u ht
    rw [hstill.of_nil, ← hanswer] at hagain
    have hresident : head.encodedLength ≤ (window v).size := by
      apply hsize' head
      rw [hstill.of_nil, ← hanswer]
      rfl
    have hpast := Cursor.advances_discard head.encodedLength v
    have hwhole := hstill.trans hstill'
    refine ⟨_, readHead_ok hagain, ?_, ?_⟩
    · rw [Cursor.stream_discard, Nat.min_eq_left hresident, hwhole.of_nil]
    · rw [Cursor.position_discard, Nat.min_eq_left hresident, hwhole.2]
      rfl

end States

theorem exists_lookahead {bs : Bytes} (h : 9 ≤ bs.length) :
    ∃ ahead, Lookahead.ofBytes? bs = some ahead := by
  match bs, h with
  | _ :: _ :: _ :: _ :: _ :: _ :: _ :: _ :: _ :: _, _ => exact ⟨_, rfl⟩

namespace BufferedInput

variable {ρ : Type} [Source ρ] {source : ρ} {gone : Bytes} {s : BufferedInput ρ}

/-- A buffer that has kept what its source handed out is sound, if the source is steady from here
on; what it did before does not matter. -/
theorem Holds.sound (h : Holds source gone s) (hsource : Source.Truthful source)
    (hsteady : Source.Steady s.source) : s.Sound where
  steady := hsteady
  ended := by
    intro hended
    have hhands := h.hands
    rw [hended] at hhands
    exact hhands.pending_eq_nil hsource
  room := h.room
  allocated := h.allocated
  within := h.within

end BufferedInput

open BufferedInput in
/-- From memory, and through a buffer in any state that calls have left it in, peeking at a head
answers by the bytes to come and not by how many of them are resident: it is the end that is seen
if they are fewer than the first of them announces, and else what the bytes decode to, held against
the mode. Calls before may have failed; from here on the source does not. Where nine bytes are
resident the shift of a word finds the head that decoding them finds. -/
theorem peeking_sees_the_stream (mode : Mode) :
    (∀ s : MemoryInput, SeesHead mode s) ∧
    (∀ {ρ : Type} [Source ρ] (source : ρ) (capacity : Nat) (calls : List Call),
      Source.Truthful source → capacity ≤ allocationLimit → (∀ c ∈ calls, c.Addressable) →
      Source.Steady (after calls (ofSource source capacity)).source →
      SeesHead mode (after calls (ofSource source capacity))) ∧
    ∀ bs : Bytes, 9 ≤ bs.length →
      ∃ ahead, Lookahead.ofBytes? bs = some ahead ∧ ahead.head = Head.decode bs := by
  refine ⟨fun s => ?_, ?_, ?_⟩
  · exact Answering.seesHead (Supplying.answering (σ := MemoryInput)) trivial
  · intro ρ _ source capacity calls hsource hcapacity hcalls hsteady
    have hfresh : Holds source [] (ofSource source capacity) := holds_ofSource hcapacity
    have hholds := holds_after hcalls hfresh
    exact answering_sound.seesHead (hholds.sound hsource hsteady)
  · intro bs hbs
    obtain ⟨ahead, hahead⟩ := exists_lookahead hbs
    exact ⟨ahead, hahead, head_ofBytes? hahead⟩

open BufferedInput in
/-- A head of three bytes of which one is resident, behind a failed read and a move to the front. -/
theorem peeking_behind_failure :
    let source := ScheduledSource.ofBytes [0x82, 0x19, 0x01, 0x02, 0x00] #[1, 2]
      (some (2, .other))
    let calls := [.require 2, .require 3, .discard 1]
    let s := after calls (ofSource source 0)
    (window s).toList = [0x19] ∧ outcome (peekHead .strict s) = .ok ⟨.unsigned, false, 3, 258⟩ ∧
      stream (final (peekHead .strict s)) = [0x19, 0x01, 0x02, 0x00] := by
  intro source calls s
  have hsource : Source.Truthful source := ScheduledSource.truthful _ (by decide) _
  have hcalls : ∀ c ∈ calls, c.Addressable := by
    simp [calls, Call.Addressable]
  have hsteady : Source.Steady s.source :=
    ScheduledSource.steady_of_failure_eq_none (by decide +kernel) (by decide +kernel)
  have hsees := (peeking_sees_the_stream .strict).2.1 source 0 calls hsource (by decide) hcalls
    hsteady
  have hstream : stream s = [0x19, 0x01, 0x02, 0x00] := by decide +kernel
  refine ⟨by decide +kernel, hsees.answers.trans ?_, hsees.stream_eq.trans hstream⟩
  change headIn .strict (stream s) = _
  rw [hstream]
  decide

end CborCodec
