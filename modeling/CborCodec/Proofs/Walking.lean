import CborCodec.Proofs.Grammar
import CborCodec.Proofs.Reading
import CborCodec.Walk
/-!
Equations of the walk. What a step does with the frame on top is said once here, for every input
and output: a frame that announces nothing more is taken off, a string is transferred, a container
opens its next element or ends, a tag makes way for its item. The rest of the module is what the
pieces of a step read and accept.
-/

namespace CborCodec

variable {σ τ : Type} [Input σ] [Output τ]

def resume (options : Options) (frames : List Frame) : EStateM Error (σ × τ) Unit :=
  walk options frames

def walkItem (options : Options) (below : List Frame) : EStateM Error (σ × τ) Unit := do
  let frame ← takeFrame options
  resume options (frame :: below)

theorem copyItem_eq (options : Options) :
    (copyItem options : EStateM Error (σ × τ) Unit) = walkItem options [] := rfl

section Equations

variable {options : Options} {frame : Frame} {below : List Frame}

theorem resume_nil : (resume options [] : EStateM Error (σ × τ) Unit) = pure () := by
  funext s
  rw [resume, walk]
  rfl

theorem resume_cons :
    (resume options (frame :: below) : EStateM Error (σ × τ) Unit) =
      step options frame below >>= resume options := by
  funext s
  rw [resume, walk, bind_apply]
  cases step options frame below s <;> rfl

theorem resume_integer (hm : frame.major = .unsigned ∨ frame.major = .negative) :
    (resume options (frame :: below) : EStateM Error (σ × τ) Unit) = resume options below := by
  rw [resume_cons]
  rcases hm with hm | hm <;> simp only [step, hm, pure_bind]

theorem resume_special (hm : frame.major = .special) :
    (resume options (frame :: below) : EStateM Error (σ × τ) Unit) = (do
      failIf (frame.indefinite = true) .itemTypeMismatch
      resume options below) := by
  rw [resume_cons]
  simp only [step, hm, bind_assoc, pure_bind]

theorem resume_string (hm : frame.major = .bytes ∨ frame.major = .text) :
    (resume options (frame :: below) : EStateM Error (σ × τ) Unit) = (do
      transferString options frame
      resume options below) := by
  rw [resume_cons]
  rcases hm with hm | hm <;> simp only [step, hm, bind_assoc, pure_bind]

theorem resume_tag (hm : frame.major = .tag) :
    (resume options (frame :: below) : EStateM Error (σ × τ) Unit) = walkItem options below := by
  rw [resume_cons, walkItem]
  simp only [step, hm, bind_assoc, pure_bind]

theorem openElement_bind :
    (openElement options frame below >>= resume options : EStateM Error (σ × τ) Unit) =
      walkItem options (frame.advance :: below) := by
  simp only [openElement, walkItem, bind_assoc, pure_bind]

theorem resume_container (hm : frame.major = .array ∨ frame.major = .map) :
    (resume options (frame :: below) : EStateM Error (σ × τ) Unit) =
      stepContainer options frame below >>= resume options := by
  rw [resume_cons]
  rcases hm with hm | hm <;> simp only [step, hm]

/-- A counted container ends when nothing remains, and else goes on with its next element. -/
theorem resume_definite (hm : frame.major = .array ∨ frame.major = .map)
    (hi : frame.indefinite = false) :
    (resume options (frame :: below) : EStateM Error (σ × τ) Unit) =
      if frame.remaining = 0 then resume options below
      else walkItem options (frame.advance :: below) := by
  rw [resume_container hm, stepContainer, if_neg (by simp [hi])]
  split
  · rw [pure_bind]
  · exact openElement_bind

/-- A container without a count ends at a break, and else goes on with its next element. -/
theorem resume_indefinite (hm : frame.major = .array ∨ frame.major = .map)
    (hi : frame.indefinite = true) :
    (resume options (frame :: below) : EStateM Error (σ × τ) Unit) = (do
      if ← atBreak then
        closeContainer frame
        resume options below
      else
        walkItem options (frame.advance :: below)) := by
  rw [resume_container hm, stepContainer, if_pos hi, bind_assoc]
  congr 1
  funext ended
  cases ended
  · exact openElement_bind
  · simp only [if_true, bind_assoc, pure_bind]

/-- A payload is transferred by making a byte resident and moving what is resident with it. -/
theorem transfer_of_ne {length : Nat} (h : length ≠ 0) :
    transfer length = ((do
      Input.need 1
      let t ← get
      onSecond (Output.put ((window t).toList.take (min (window t).size length)))
      Input.skip (min (window t).size length)
      transfer (length - min (window t).size length)) : EStateM Error (σ × τ) Unit) := by
  funext s
  rw [transfer, if_neg h, bind_apply]
  split
  · next hneed => rw [hneed]
  · next t hneed =>
    rw [hneed]
    refine Eq.trans ?_ (bind_apply (onSecond _) _ t).symm
    dsimp only
    split
    · next hput => rw [hput]
    · next hput =>
      rw [hput]
      rfl

theorem transferChunks_eq (options : Options) (major : Major) (total : Nat) :
    transferChunks options major total = ((do
      match ← takeChunkHead options major with
      | none => pure ()
      | some length => do
        transferChunk options length total
        transferChunks options major (total + length)) : EStateM Error (σ × τ) Unit) := by
  funext s
  rw [transferChunks, bind_apply]
  split
  · next hhead => rw [hhead]
  · next hhead =>
    rw [hhead]
    rfl
  · next hhead =>
    rw [hhead]
    refine Eq.trans ?_ (bind_apply _ _ _).symm
    split
    · next hchunk => rw [hchunk]
    · next hchunk => rw [hchunk]

end Equations

section Pieces

omit [Output τ] in
/-- Writing does not move the input. -/
theorem advances_onSecond {α : Type} {x : EStateM Error τ α} {s t : σ × τ} {a : α}
    (h : onSecond x s = .ok a t) : Advances s [] t ∧ window t = window s := by
  have hfst := fst_of_onSecond h
  have hstr : stream t = stream s := congrArg (fun i : σ => stream i) hfst
  have hpos : position t = position s := congrArg (fun i : σ => position i) hfst
  exact ⟨⟨by rw [hstr, List.nil_append], by rw [hpos]; rfl⟩,
    congrArg (fun i : σ => window i) hfst⟩

theorem Reads.takeHead (mode : Mode) :
    Reads (takeHead mode : EStateM Error (σ × τ) Head) fun h lead =>
      h.Spelled lead ∧ h.check mode = .ok () := by
  intro s h t e
  unfold CborCodec.takeHead at e
  obtain ⟨head, v, hv, e⟩ := bind_eq_ok.1 e
  obtain ⟨a, v', hg, e⟩ := bind_eq_ok.1 e
  obtain ⟨rfl, rfl⟩ := get_eq_ok.1 hg
  obtain ⟨_, w, hw, e⟩ := bind_eq_ok.1 e
  obtain ⟨_, x, hx, e⟩ := bind_eq_ok.1 e
  obtain ⟨rfl, rfl⟩ := pure_eq_ok.1 e
  cases hx
  obtain ⟨hc, hadv, lead, rest, hlead, hs⟩ := peekHead_spelled hv
  -- Copying leaves the input alone, so the head that is passed over is the one that was seen.
  obtain ⟨hcopy, hwindow⟩ := advances_onSecond hw
  rw [← hwindow] at hlead
  exact ⟨lead, (hadv.trans hcopy).trans (advances_discard_lead hlead hs.length_eq), hs, hc⟩

def Head.Declares (h : Head) : Prop :=
  (h.major = .array ∨ h.major = .map) ∧ h.indefinite = false

omit [Output τ] in
theorem checkDeclared_eq_ok {options : Options} {h : Head} {s t : σ} {u : Unit}
    (e : checkDeclared options h s = .ok u t) :
    s = t ∧ (h.Declares → h.value.toNat ≤ options.maxItems.toNat) := by
  unfold checkDeclared at e
  split at e
  · obtain ⟨_, v, hv, e⟩ := bind_eq_ok.1 e
    obtain ⟨-, rfl⟩ := checkAvailable_eq_ok.1 hv
    obtain ⟨hle, rfl⟩ := checkItems_eq_ok.1 e
    exact ⟨rfl, fun _ => hle⟩
  · next hc =>
    obtain ⟨-, rfl⟩ := pure_eq_ok.1 e
    refine ⟨rfl, fun hd => absurd ⟨hd.1, ?_⟩ hc⟩
    rw [hd.2]
    rfl

/-- A frame stands for a head that passes the mode and the limits. -/
theorem Reads.takeFrame (options : Options) :
    Reads (takeFrame options : EStateM Error (σ × τ) Frame) fun frame lead =>
      ∃ h : Head, frame = Frame.ofHead h ∧ h.Spelled lead ∧ h.check options.mode = .ok () ∧
        (h.Declares → h.value.toNat ≤ options.maxItems.toNat) := by
  intro s frame t e
  unfold CborCodec.takeFrame at e
  obtain ⟨h, v, hv, e⟩ := bind_eq_ok.1 e
  obtain ⟨_, w, hw, e⟩ := bind_eq_ok.1 e
  obtain ⟨rfl, rfl⟩ := pure_eq_ok.1 e
  obtain ⟨rfl, hle⟩ := checkDeclared_eq_ok hw
  obtain ⟨lead, hadv, hs, hc⟩ := Reads.takeHead options.mode s h v hv
  exact ⟨lead, hadv, h, rfl, hs, hc, hle⟩

theorem Reads.transfer (length : Nat) :
    Reads (transfer length : EStateM Error (σ × τ) Unit) fun _ bs => bs.length = length := by
  intro s u t e
  fun_induction CborCodec.transfer length s with
  | case1 s =>
    cases e
    exact ⟨[], Advances.rfl, rfl⟩
  | case2 length s hl err v h => cases e
  | case3 length s hl v h n err w hw => cases e
  | case4 length s hl v h n w hw ih =>
    obtain ⟨bs, hadv, hlen⟩ := ih e
    obtain ⟨hcopy, hwindow⟩ := advances_onSecond hw
    have hpiece := Cursor.advances_discard n w
    refine ⟨(window w).toList.take n ++ bs,
      (((advances_need h).trans hcopy).trans hpiece).trans hadv, ?_⟩
    change (_ ++ _ : Bytes).length = length
    rw [List.length_append, List.length_take, ← (window w).size_eq, hwindow, hlen]
    omega

theorem takeChunkHead_eq (options : Options) (major : Major) :
    (takeChunkHead options major : EStateM Error (σ × τ) (Option Nat)) =
      takeHead options.mode >>= chunkLength major := rfl

theorem Reads.takeChunkHead (options : Options) (major : Major) :
    Reads (takeChunkHead options major : EStateM Error (σ × τ) (Option Nat)) major.Leads := by
  rw [takeChunkHead_eq]
  exact reads_chunkLength (Reads.takeHead options.mode)

theorem Reads.transferChunk (options : Options) (length total : Nat) :
    Reads (transferChunk options length total : EStateM Error (σ × τ) Unit) fun _ bs =>
      bs.length = length ∧ total + length ≤ options.maxStringSize.toNat := by
  intro s u t e
  unfold CborCodec.transferChunk at e
  obtain ⟨_, v, hv, e⟩ := bind_eq_ok.1 e
  obtain ⟨-, hle, rfl⟩ := checkChunk_eq_ok.1 hv
  obtain ⟨bs, hadv, hlen⟩ := Reads.transfer length s u t e
  exact ⟨bs, hadv, hlen, hle⟩

/-- A run of chunks ends with the break, and its total stays within the limit. -/
theorem Reads.transferChunks (options : Options) (major : Major) (total : Nat)
    (htotal : total ≤ options.maxStringSize.toNat) :
    Reads (transferChunks options major total : EStateM Error (σ × τ) Unit) fun _ bs =>
      ∃ chunks : List (ArgumentWidth × Bytes), bs = chunks.flatMap major.chunk ++ [breakByte] ∧
        (∀ c ∈ chunks, c.1.Holds c.2.length) ∧
        total + (chunks.map (·.2.length)).sum ≤ options.maxStringSize.toNat := by
  intro s u t e
  fun_induction CborCodec.transferChunks options major total s with
  | case1 total s err v h => cases e
  | case2 total s v h =>
    cases e
    obtain ⟨lead, hadv, hlead⟩ := Reads.takeChunkHead options major s none _ h
    exact ⟨lead, hadv, [], hlead, by simp, by simpa using htotal⟩
  | case3 total s length v h err w k => cases e
  | case4 total s length v h w k ih =>
    obtain ⟨lead, hadv, width, hn, hlead⟩ := Reads.takeChunkHead options major s (some length) v h
    obtain ⟨payload, hadv', hlen, hle⟩ := Reads.transferChunk options length total v () w k
    obtain ⟨bs, hadv'', chunks, hbs, hall, hsum⟩ := ih hle e
    subst hlen
    refine ⟨lead ++ payload ++ bs, (hadv.trans hadv').trans hadv'', (width, payload) :: chunks,
      ?_, ?_, ?_⟩
    · rw [hbs, hlead, List.flatMap_cons, Major.chunk, List.append_assoc, List.append_assoc,
        List.append_assoc]
    · intro c hc
      rcases List.mem_cons.mp hc with rfl | hc
      · exact hn
      · exact hall c hc
    · rw [List.map_cons, List.sum_cons, ← Nat.add_assoc]
      exact hsum

theorem transferString_indefinite {options : Options} {frame : Frame}
    (hi : frame.indefinite = true) :
    (transferString options frame : EStateM Error (σ × τ) Unit) =
      transferChunks options frame.major 0 := if_pos hi

theorem transferString_definite {options : Options} {frame : Frame}
    (hi : frame.indefinite = false) :
    (transferString options frame : EStateM Error (σ × τ) Unit) =
      transferChunk options frame.remaining 0 := if_neg (by rw [hi]; exact Bool.false_ne_true)

/-- The break that was seen is copied, unless a value is owed. -/
theorem advances_closeContainer {frame : Frame} {s t u : σ × τ} (h : atBreak s = .ok true t)
    (e : closeContainer frame t = .ok () u) :
    frame.owed = false ∧ Advances s [breakByte] u := by
  unfold closeContainer at e
  obtain ⟨_, v, hv, e⟩ := bind_eq_ok.1 e
  obtain ⟨howed, rfl⟩ := failIf_eq_ok.1 hv
  obtain ⟨_, w, hw, e⟩ := bind_eq_ok.1 e
  cases e
  obtain ⟨hcopy, hwindow⟩ := advances_onSecond hw
  obtain ⟨hadv, hsize, hb⟩ := atBreak_eq_ok h
  have hhead : (stream t).head? = some breakByte := by simpa using hb.symm
  obtain ⟨rest, hrest⟩ := List.head?_eq_some_iff.mp hhead
  rw [← hwindow] at hsize
  have hstream : stream w = [breakByte] ++ rest := hcopy.of_nil.trans hrest
  have hskip := advances_discard_stream hstream rfl hsize
  exact ⟨Bool.eq_false_of_not_eq_true howed, (hadv.trans hcopy).trans hskip⟩

end Pieces

class Endless (τ : Type) [Output τ] : Prop where
  putHead_ok : ∀ bs (s : τ), ∃ t, Output.putHead bs s = .ok () t
  put_ok : ∀ bs (s : τ), ∃ t, Output.put bs s = .ok () t

instance : Endless Nowhere where
  putHead_ok bs s := ⟨⟨max bs.length s.room⟩, rfl⟩
  put_ok _ s := ⟨s, rfl⟩

section Complete

variable [Reliable σ] [Endless τ]

omit [Input σ] [Output τ] [Reliable σ] [Endless τ] in
theorem onSecond_ok {x : EStateM Error τ Unit} {s : σ × τ} (h : ∃ o, x s.2 = .ok () o) :
    ∃ t, onSecond x s = .ok () t := by
  obtain ⟨o, ho⟩ := h
  exact ⟨(s.1, o), by simp only [onSecond, ho]⟩

theorem Accepts.takeHead {mode : Mode} {h : Head} {lead : Bytes} (hs : h.Spelled lead)
    (hc : h.check mode = .ok ()) :
    Accepts (takeHead mode : EStateM Error (σ × τ) Head) h lead := by
  intro s rest hstream
  obtain ⟨t, hpeek, hadv, hsize⟩ := peekHead_ok hs hc hstream
  obtain ⟨u, hu⟩ := onSecond_ok (s := t)
    (Endless.putHead_ok ((window t).toList.take h.encodedLength) t.2)
  obtain ⟨hcopy, hwindow⟩ := advances_onSecond hu
  have hlen := hs.length_eq
  rw [hlen, ← hwindow] at hsize
  refine ⟨Cursor.discard h.encodedLength u, ?_, (hadv.trans hcopy).trans ?_⟩
  · exact bind_eq_ok.2 ⟨h, t, hpeek, bind_eq_ok.2 ⟨t, t, rfl,
      bind_eq_ok.2 ⟨(), u, hu, bind_eq_ok.2 ⟨(), _, rfl, rfl⟩⟩⟩⟩
  · exact advances_discard_stream (hcopy.of_nil.trans (hadv.of_nil.trans hstream)) hlen hsize

/-- A frame is taken in front of what the head declares. -/
theorem Accepts.takeFrame {α : Type} {options : Options} {h : Head} {lead more : Bytes}
    {f : Frame → EStateM Error (σ × τ) α} {a : α} (hs : h.Spelled lead)
    (hc : h.check options.mode = .ok ())
    (hd : h.Declares → h.value.toNat ≤ options.maxItems.toNat ∧
      h.value.toNat ≤ capacityFor h.major more.length)
    (hf : Accepts (f (Frame.ofHead h)) a more) :
    Accepts (takeFrame options >>= f) a (lead ++ more) := by
  have hdeclared : Accepts (checkDeclared options h >>= fun _ => f (Frame.ofHead h)) a more := by
    unfold checkDeclared
    split
    · next hdecl =>
      have hdecl' : h.Declares := ⟨hdecl.1, by simpa using hdecl.2⟩
      rw [bind_assoc]
      exact .checkAvailable (hd hdecl').2 (.seq (.checkItems (hd hdecl').1) hf)
    · exact hf
  have heq : CborCodec.takeFrame options >>= f = CborCodec.takeHead options.mode >>= fun h =>
      checkDeclared options h >>= fun _ => f (Frame.ofHead h) := by
    simp only [CborCodec.takeFrame, bind_assoc, pure_bind]
  rw [heq]
  exact (Accepts.takeHead hs hc).bind hdeclared

theorem Accepts.transfer {n : Nat} {bs : Bytes} (hn : bs.length = n) :
    Accepts (transfer n : EStateM Error (σ × τ) Unit) () bs := by
  -- A turn of the loop moves what is resident, at least a byte, and leaves the rest to the next.
  induction n using Nat.strong_induction_on generalizing bs with
  | _ n ih =>
    intro s rest hs
    by_cases h0 : n = 0
    · rw [h0, List.length_eq_zero_iff] at hn
      rw [h0, hn, CborCodec.transfer]
      exact ⟨s, if_pos rfl, Advances.rfl⟩
    obtain ⟨t, ht, hadv, hsize⟩ := need_ok (s := s) (n := 1)
      (by rw [hs, List.length_append]; omega)
    obtain ⟨u, hu⟩ := onSecond_ok (s := t)
      (Endless.put_ok ((window t).toList.take (min (window t).size n)) t.2)
    obtain ⟨hcopy, hwindow⟩ := advances_onSecond hu
    have hle : min (window t).size n ≤ (window u).size := by
      rw [hwindow]
      exact Nat.min_le_left _ _
    have hstream : stream u = bs.take (min (window t).size n) ++
        (bs.drop (min (window t).size n) ++ rest) := by
      rw [hcopy.of_nil, hadv.of_nil, hs, ← List.append_assoc, List.take_append_drop]
    have hpiece := advances_discard_stream hstream (by rw [List.length_take]; omega) hle
    have hremaining : (bs.drop (min (window t).size n)).length = n - min (window t).size n := by
      rw [List.length_drop, hn]
    obtain ⟨v, hv, hrest⟩ := ih (n - min (window t).size n) (by omega) hremaining _ rest
      (stream_of_advances hpiece hstream)
    refine ⟨v, ?_, ?_⟩
    · rw [transfer_of_ne h0]
      exact bind_eq_ok.2 ⟨(), t, ht, bind_eq_ok.2 ⟨t, t, rfl, bind_eq_ok.2 ⟨(), u, hu,
        bind_eq_ok.2 ⟨(), _, rfl, hv⟩⟩⟩⟩
    · have hall := ((hadv.trans hcopy).trans hpiece).trans hrest
      rwa [List.append_nil, List.nil_append, List.take_append_drop] at hall

/-- The break is accepted where a chunk might begin, in every mode. -/
theorem Accepts.takeChunkHead_break {options : Options} {major : Major} :
    Accepts (takeChunkHead options major : EStateM Error (σ × τ) (Option Nat)) none
      [breakByte] := by
  have hhead : Accepts (CborCodec.takeHead options.mode : EStateM Error (σ × τ) Head)
      ⟨.special, true, 1, 0⟩ Major.special.opening :=
    .takeHead (.opening .special rfl) (check_opening.2 (Or.inr rfl))
  rw [opening_special] at hhead
  exact accepts_chunkLength_break hhead

theorem Accepts.takeChunkHead {options : Options} {major : Major} {w : ArgumentWidth} {n : Nat}
    (hn : w.Holds n) (ha : options.mode.Admits major w n) :
    Accepts (takeChunkHead options major : EStateM Error (σ × τ) (Option Nat)) (some n)
      (major.spell w n) := by
  rw [takeChunkHead_eq]
  exact accepts_chunkLength hn (.takeHead (.definite major w n hn) ((check_definite hn).2 ha))

theorem Accepts.transferChunk {options : Options} {total : Nat} {payload : Bytes}
    (hl : total + payload.length ≤ options.maxStringSize.toNat) :
    Accepts (transferChunk options payload.length total : EStateM Error (σ × τ) Unit) () payload :=
  .checkChunk (Nat.le_refl _) hl (.transfer rfl)

/-- A run of chunks is accepted up to the break. -/
theorem Accepts.transferChunks {options : Options} {major : Major}
    (hmode : options.mode = .lenient) (chunks : List (ArgumentWidth × Bytes)) {total : Nat}
    (hn : ∀ c ∈ chunks, c.1.Holds c.2.length)
    (hs : total + (chunks.map (·.2.length)).sum ≤ options.maxStringSize.toNat) :
    Accepts (transferChunks options major total : EStateM Error (σ × τ) Unit) ()
      (chunks.flatMap major.chunk ++ [breakByte]) := by
  induction chunks generalizing total with
  | nil =>
    rw [transferChunks_eq, List.flatMap_nil, List.nil_append, ← List.append_nil [breakByte]]
    exact Accepts.takeChunkHead_break.bind (.pure ())
  | cons chunk chunks ih =>
    obtain ⟨w, payload⟩ := chunk
    rw [List.map_cons, List.sum_cons, ← Nat.add_assoc] at hs
    have hholds := hn (w, payload) (List.mem_cons_self ..)
    have hadmits : options.mode.Admits major w payload.length := by rw [hmode]; trivial
    have hrest := ih (fun c hc => hn c (List.mem_cons_of_mem _ hc)) hs
    rw [transferChunks_eq, List.flatMap_cons, Major.chunk, List.append_assoc, List.append_assoc]
    refine (Accepts.takeChunkHead hholds hadmits).bind ?_
    exact (Accepts.transferChunk (by omega)).bind hrest

/-- A break ends a container to which no value is owed. -/
theorem Accepts.closeContainer {α : Type} {frame : Frame} {x y : EStateM Error (σ × τ) α} {a : α}
    {more : Bytes} (howed : frame.owed = false) (hx : Accepts x a more) :
    Accepts (do if ← atBreak then do CborCodec.closeContainer frame; x else y) a
      (breakByte :: more) := by
  intro s rest hs
  obtain ⟨t, ht, -⟩ := atBreak_ok (s := s) (b := breakByte) hs
  rw [beq_self_eq_true] at ht
  obtain ⟨u, hu⟩ := onSecond_ok (s := t) (Endless.putHead_ok [breakByte] t.2)
  have hclose : CborCodec.closeContainer frame t = .ok () (Cursor.discard 1 u) :=
    bind_eq_ok.2 ⟨(), t, failIf_eq_ok.2 ⟨by simp [howed], rfl⟩,
      bind_eq_ok.2 ⟨(), u, hu, rfl⟩⟩
  have hbreak := (advances_closeContainer ht hclose).2
  obtain ⟨v, hv, hadv⟩ := hx _ rest (stream_of_advances hbreak hs)
  exact ⟨v, bind_eq_ok.2 ⟨Bool.true, t, ht, bind_eq_ok.2 ⟨(), _, hclose, hv⟩⟩, hbreak.trans hadv⟩

end Complete

end CborCodec
