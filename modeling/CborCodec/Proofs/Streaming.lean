import CborCodec.Proofs.Abreast
/-!
Bytes in memory and the same bytes through a buffer. Skipping, copying and decoding succeed on both
or on neither, in whatever pieces the source hands out, and then with the same result in the same
place. They fail alike too, but where the length of what is in memory gave a count away at once:
the buffer may only find at the end of its source that the bytes are missing.
-/

namespace CborCodec

section Runs

variable {σ σ' α : Type} [Input σ] [Input σ']

/-- What the first of two runs says of the second: both succeed or neither does, with one answer
and at one place; and a failure of the first is that of the second, unless data was missing, where
the second fails in some way. -/
structure BearsOut (x : EStateM.Result Error σ α) (y : EStateM.Result Error σ' α) : Prop where
  answers : ∀ a, outcome y = .ok a ↔ outcome x = .ok a
  position_eq : ∀ a, outcome x = .ok a → position (final y) = position (final x)
  fails : ∀ e, outcome x = .error e → e ≠ .missingData → outcome y = .error e
  missing : outcome x = .error .missingData → ∃ e, outcome y = .error e

/-- A run that follows the first and never succeeds alone is borne out. -/
theorem BearsOut.of_followsAt {C : Comparison σ σ'} {x : EStateM Error σ α} {y : EStateM Error σ' α}
    {s : σ} {r : σ'} (h : FollowsAt C x y s r) (hlive : ∀ s, C.live s)
    (hexcused : ∀ e, C.excused e → e = .missingData)
    (hposition : ∀ t u, C.rel t u → position u = position t)
    (halone : ∀ a u, y r = .ok a u → ∃ b t, x s = .ok b t) : BearsOut (x s) (y r) := by
  cases hx : x s with
  | ok a t =>
    obtain ⟨u, hu, hrel⟩ := h.ok hx (hlive t)
    rw [hu]
    exact ⟨fun _ => Iff.rfl, fun _ _ => hposition t u hrel, nofun, nofun⟩
  | error e t =>
    obtain ⟨e', u, hu⟩ : ∃ e' u, y r = .error e' u := by
      cases hy : y r with
      | error e' u => exact ⟨e', u, rfl⟩
      | ok a u =>
        obtain ⟨b, v, hv⟩ := halone a u hy
        rw [hx] at hv
        cases hv
    rw [hu]
    refine ⟨fun _ => ⟨nofun, nofun⟩, nofun, ?_, fun _ => ⟨e', rfl⟩⟩
    rintro _ ⟨⟩ hne
    obtain ⟨v, hv, -⟩ := (h.error hx (hlive t)).resolve_left fun he => hne (hexcused e he)
    rw [hu] at hv
    cases hv
    rfl

theorem BearsOut.of_eq {σ₀ σ₁ : Type} [Input σ₀] [Input σ₁] {x : EStateM.Result Error σ α}
    {y : EStateM.Result Error σ' α} {x' : EStateM.Result Error σ₀ α}
    {y' : EStateM.Result Error σ₁ α} (h : BearsOut x y) (hx : outcome x' = outcome x)
    (hx' : position (final x') = position (final x)) (hy : outcome y' = outcome y)
    (hy' : position (final y') = position (final y)) : BearsOut x' y' := by
  obtain ⟨hanswers, hposition, hfails, hmissing⟩ := h
  rw [← hx, ← hy] at hanswers hfails hmissing
  rw [← hx, ← hx', ← hy'] at hposition
  exact ⟨hanswers, hposition, hfails, hmissing⟩

end Runs

section Buffered

def Standing.streaming (σ : Type) [Input σ] [Supplying σ] : Standing σ :=
  ⟨0, [], True, fun _ _ _ => Or.inl trivial⟩

theorem Standing.excused_streaming {σ : Type} [Input σ] [Supplying σ] {e : Error}
    (h : (streaming σ).Excused e) : e = .missingData := by
  rcases h with ⟨he, -⟩ | ⟨-, hmore⟩
  · exact he
  · exact absurd rfl hmore

namespace Abreast

variable {σ σ' : Type} [Input σ] [Supplying σ] [Input σ'] [Supplying σ'] {s : σ} {r : σ'}

theorem same_stream (h : Abreast 0 [] s r) : stream r = stream s :=
  h.stream_eq.trans (List.append_nil _)

theorem same_position (h : Abreast 0 [] s r) : position r = position s :=
  h.position_eq.trans (Nat.zero_add _)

end Abreast

variable {ρ : Type} [Source ρ]

/-- A new buffer over a source stands abreast of the same bytes in memory. -/
theorem abreast_ofSource {source : ρ} {capacity : Nat} {data : Bytes}
    (hsteady : Source.Steady source) (hpending : Source.pending source = data)
    (hdata : data.length ≤ allocationLimit) (hcapacity : capacity ≤ allocationLimit) :
    Abreast 0 [] (MemoryInput.ofBytes data) (BufferedInput.ofSource source capacity) := by
  have hstream : stream (BufferedInput.ofSource source capacity) = data := hpending
  refine ⟨trivial, ⟨BufferedInput.sound_ofSource hsteady hcapacity, ?_⟩,
    hstream.trans (List.append_nil data).symm, rfl⟩
  rw [hstream]
  exact hdata.trans (by decide)

variable {σ : Type} [Input σ] [Supplying σ] {data : Bytes} {r : σ}

/-- Items are skipped over a buffer as they are in memory. -/
theorem bearsOut_skipItem (options : Options) (h : Abreast 0 [] (MemoryInput.ofBytes data) r) :
    BearsOut (skipItem options (MemoryInput.ofBytes data)) (skipItem options r) := by
  have hfollows := (abreast_walk (c := .streaming σ) (τ := Nowhere) options).walkItem []
  have hat := hfollows.at_rel (MemoryInput.ofBytes data, {}) (r, {}) h
  have hwalk := BearsOut.of_followsAt hat (fun _ => trivial)
    (fun _ => Standing.excused_streaming) (fun t u hrel => hrel.same_position) fun _ u hu => ?_
  · exact hwalk.of_eq (outcome_skipItem _ _) (congrArg position (final_skipItem _ _))
      (outcome_skipItem _ _) (congrArg position (final_skipItem _ _))
  · obtain ⟨bs, hadv, hitem⟩ := Reads.copyItem options _ _ u hu
    have hstream : stream (MemoryInput.ofBytes data) = bs ++ stream u :=
      h.same_stream.symm.trans hadv.1
    obtain ⟨t, ht, -⟩ :=
      Accepts.copyItem (τ := Nowhere) hitem (MemoryInput.ofBytes data, {}) _ hstream
    exact ⟨_, t, ht⟩

/-- Values are decoded over a buffer as they are in memory. -/
theorem bearsOut_decode (options : Options) (h : Abreast 0 [] (MemoryInput.ofBytes data) r)
    (hdata : data.length ≤ allocationLimit) :
    BearsOut (Value.decode options (MemoryInput.ofBytes data)) (Value.decode options r) := by
  refine BearsOut.of_followsAt ((abreast_decodeWithin (c := .streaming σ) options _).at_rel _ r h)
    (fun _ => trivial) (fun _ => Standing.excused_streaming) (fun t u hrel => hrel.same_position)
    fun v u hu => ?_
  -- What is decoded from the other input is spelled there, and so it is decoded in memory.
  obtain ⟨bs, hadv, hspells, hfits⟩ := reads_decodeWithin options _ _ v u hu
  have hstream : data = bs ++ stream u := h.same_stream.symm.trans hadv.1
  have hlength : bs.length ≤ allocationLimit := by
    rw [hstream, List.length_append] at hdata
    omega
  obtain ⟨t, ht, -⟩ :=
    accepts_decodeWithin hspells hfits hlength (MemoryInput.ofBytes data) _ hstream
  exact ⟨v, t, ht⟩

/-- Skipping moves over no more than there is. -/
theorem position_skipItem_le {σ : Type} [Input σ] (options : Options) (i : σ) :
    position (final (skipItem options i)) - position i ≤ (stream i).length := by
  obtain ⟨bs, hadv, -⟩ := Consumes.skipItem options i
  rw [hadv.2, hadv.length_eq]
  omega

theorem GrowingOutput.HasRoom.mono {o : GrowingOutput} {m n : Nat} (h : o.HasRoom n) (hm : m ≤ n) :
    o.HasRoom m := by
  unfold GrowingOutput.HasRoom at *
  omega

/-- Items are copied from a buffer as they are from memory. -/
theorem bearsOut_copyItem (options : Options) (h : Abreast 0 [] (MemoryInput.ofBytes data) r)
    {o : GrowingOutput} (ho : o.HasRoom data.length) :
    BearsOut (copyItem options (MemoryInput.ofBytes data, o)) (copyItem options (r, o)) := by
  have hlength : (stream r).length = data.length := congrArg List.length h.same_stream
  obtain ⟨hx, hx'⟩ := copyItem_eq_skipItem (o := o)
    (ho.mono (position_skipItem_le options (MemoryInput.ofBytes data)))
  obtain ⟨hy, hy'⟩ := copyItem_eq_skipItem (o := o)
    (ho.mono (hlength ▸ position_skipItem_le options r))
  exact (bearsOut_skipItem options h).of_eq hx (congrArg position hx') hy (congrArg position hy')

end Buffered

namespace BufferedInput

/-- Through a buffer of any capacity over a steady source, skipping, decoding and copying do what
they do on the same bytes in memory, whatever the pieces in which the source hands them out; and a
copy that succeeds has written the same bytes. The bytes, the buffer and the output are ones that
memory can hold. -/
theorem agrees_with_memory {ρ : Type} [Source ρ] (options : Options) (data : Bytes) (source : ρ)
    (capacity : Nat) (hsteady : Source.Steady source) (hpending : Source.pending source = data)
    (hdata : data.length ≤ allocationLimit) (hcapacity : capacity ≤ allocationLimit) :
    BearsOut (skipItem options (MemoryInput.ofBytes data))
        (skipItem options (ofSource source capacity)) ∧
      BearsOut (Value.decode options (MemoryInput.ofBytes data))
        (Value.decode options (ofSource source capacity)) ∧
      ∀ o : GrowingOutput, o.HasRoom data.length →
        BearsOut (copyItem options (MemoryInput.ofBytes data, o))
            (copyItem options (ofSource source capacity, o)) ∧
          (outcome (copyItem options (MemoryInput.ofBytes data, o)) = .ok () →
            (final (copyItem options (ofSource source capacity, o))).2.toBytes =
              (final (copyItem options (MemoryInput.ofBytes data, o))).2.toBytes) := by
  have h := abreast_ofSource hsteady hpending hdata hcapacity
  refine ⟨bearsOut_skipItem options h, bearsOut_decode options h hdata, fun o ho => ?_⟩
  have hcopy := bearsOut_copyItem options h ho
  exact ⟨hcopy, fun hok =>
    written_eq_of_position_eq h.same_stream.symm h.same_position.symm (hcopy.position_eq () hok)⟩

theorem decode_pieces :
    outcome (Value.decode {} (ofSource
      (ScheduledSource.ofBytes [0x82, 0x18, 0x64, 0x02] #[1, 2] none) 0)) =
      .ok (.array [.unsigned 100, .unsigned 2]) := by
  have h := agrees_with_memory {} [0x82, 0x18, 0x64, 0x02]
    (ScheduledSource.ofBytes [0x82, 0x18, 0x64, 0x02] #[1, 2] none) 0
    (ScheduledSource.steady _ (by decide)) rfl (by decide) (by decide)
  exact (h.2.1.answers _).2 rfl

end BufferedInput

end CborCodec
