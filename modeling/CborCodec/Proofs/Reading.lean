import CborCodec.Input.Memory
import CborCodec.Limits
import CborCodec.Proofs.Heads
/-!
What actions on an input read. `Reads x P` says that whatever `x` answers is related by `P` to the
bytes it has moved past; `Accepts x a bs` says that in front of `bs` it answers `a` and moves past
them. The second holds of inputs that supply all of their stream, such as bytes in memory, and the
two together say exactly what an action does when it succeeds.
-/

namespace CborCodec

variable {σ τ α β : Type} [Input σ]

/-- An answer is related to the bytes that were read for it. -/
def Reads (x : EStateM Error σ α) (P : α → Bytes → Prop) : Prop :=
  ∀ s a t, x s = .ok a t → ∃ bs, Advances s bs t ∧ P a bs

/-- In front of the bytes the action gives the answer and moves past them. -/
def Accepts (x : EStateM Error σ α) (a : α) (bs : Bytes) : Prop :=
  ∀ s rest, stream s = bs ++ rest → ∃ t, x s = .ok a t ∧ Advances s bs t

/-- Inputs that supply all of their stream. -/
class Reliable (σ : Type) [Input σ] : Prop where
  require_ok : ∀ n (s : σ), n ≤ (stream s).length → ∃ t, Cursor.require n s = .ok () t
  bulkRead_ok : ∀ n (s : σ), n ≤ (stream s).length → ∃ out t, Input.bulkRead n s = .ok out t
  length_le_available : ∀ s : σ, (stream s).length ≤ available s

instance : Reliable MemoryInput where
  require_ok n s h := by
    have hsize : n ≤ s.rest.size := by rwa [s.rest.size_eq]
    exact ⟨s, if_pos hsize⟩
  bulkRead_ok n s h := by
    have hsize : n ≤ s.rest.size := by rwa [s.rest.size_eq]
    exact ⟨_, _, if_pos hsize⟩
  length_le_available s := s.rest.size_eq.ge

instance [Reliable σ] : Reliable (σ × τ) where
  require_ok n s h := by
    obtain ⟨t, ht⟩ := Reliable.require_ok n s.1 h
    exact ⟨(t, s.2), onFirst_eq_ok.2 ⟨ht, rfl⟩⟩
  bulkRead_ok n s h := by
    obtain ⟨out, t, ht⟩ := Reliable.bulkRead_ok n s.1 h
    exact ⟨out, (t, s.2), onFirst_eq_ok.2 ⟨ht, rfl⟩⟩
  length_le_available s := Reliable.length_le_available s.1

theorem stream_of_advances {s t : σ} {bs rest : Bytes} (h : Advances s bs t)
    (hs : stream s = bs ++ rest) : stream t = rest :=
  (List.append_cancel_left (hs.symm.trans h.1)).symm

theorem Advances.of_nil {s t : σ} (h : Advances s [] t) : stream t = stream s := h.1.symm

theorem Advances.eq_left {s t : σ} {bs cs : Bytes} (h : Advances s bs t) (k : Advances s cs t) :
    bs = cs :=
  List.append_cancel_right (h.1.symm.trans k.1)

section Calculus

theorem Reads.mono {x : EStateM Error σ α} {P Q : α → Bytes → Prop} (h : Reads x P)
    (hpq : ∀ a bs, P a bs → Q a bs) : Reads x Q := by
  intro s a t hx
  obtain ⟨bs, hadv, hp⟩ := h s a t hx
  exact ⟨bs, hadv, hpq a bs hp⟩

theorem Reads.pure (a : α) :
    Reads (Pure.pure a : EStateM Error σ α) fun b bs => b = a ∧ bs = [] := by
  rintro s b t ⟨⟩
  exact ⟨[], Advances.rfl, rfl, rfl⟩

theorem Reads.known (e : Except Error α) :
    Reads (known e : EStateM Error σ α) fun a bs => e = .ok a ∧ bs = [] := by
  intro s a t h
  obtain ⟨ha, rfl⟩ := known_eq_ok.1 h
  exact ⟨[], Advances.rfl, ha, rfl⟩

theorem Accepts.pure (a : α) : Accepts (Pure.pure a : EStateM Error σ α) a [] :=
  fun s _ _ => ⟨s, rfl, Advances.rfl⟩

theorem Accepts.known {e : Except Error α} {a : α} (h : e = .ok a) :
    Accepts (known e : EStateM Error σ α) a [] := by
  intro s rest _
  exact ⟨s, known_eq_ok.2 ⟨h, rfl⟩, Advances.rfl⟩

theorem Accepts.failIf {c : Prop} [Decidable c] {e : Error} (h : ¬c) :
    Accepts (failIf c e : EStateM Error σ Unit) () [] := by
  intro s rest _
  exact ⟨s, failIf_eq_ok.2 ⟨h, rfl⟩, Advances.rfl⟩

/-- Bytes that are accepted one after the other are accepted end to end. -/
theorem Accepts.bind {x : EStateM Error σ α} {f : α → EStateM Error σ β} {a : α} {b : β}
    {l r : Bytes} (hx : Accepts x a l) (hf : Accepts (f a) b r) : Accepts (x >>= f) b (l ++ r) := by
  intro s rest hs
  obtain ⟨t, ht, hl⟩ := hx s (r ++ rest) (by rw [hs, List.append_assoc])
  obtain ⟨u, hu, hr⟩ := hf t rest (stream_of_advances hl (by rw [hs, List.append_assoc]))
  exact ⟨u, bind_eq_ok.2 ⟨a, t, ht, hu⟩, hl.trans hr⟩

theorem Accepts.map {x : EStateM Error σ α} {a : α} {bs : Bytes} (g : α → β)
    (h : Accepts x a bs) : Accepts (do return g (← x)) (g a) bs := by
  have hbind := Accepts.bind (f := fun a => Pure.pure (g a)) h (.pure (g a))
  rwa [List.append_nil] at hbind

/-- A step that reads nothing, such as a check, in front of another. -/
theorem Accepts.seq {x : EStateM Error σ Unit} {y : EStateM Error σ β} {b : β} {bs : Bytes}
    (hx : Accepts x () []) (hy : Accepts y b bs) : Accepts (x >>= fun _ => y) b bs :=
  hx.bind hy

end Calculus

section Steps

theorem advances_need {n : Nat} {s t : σ} {u : Unit} (h : Input.need n s = .ok u t) :
    Advances s [] t := by
  have hadv := Cursor.advances_require n s
  rwa [adaptExcept_eq_ok.1 h, final_ok] at hadv

theorem need_ok [Reliable σ] {n : Nat} {s : σ} (h : n ≤ (stream s).length) :
    ∃ t, Input.need n s = .ok () t ∧ Advances s [] t ∧ n ≤ (window t).size := by
  obtain ⟨t, ht⟩ := Reliable.require_ok n s h
  have hneed : Input.need n s = .ok () t := adaptExcept_eq_ok.2 ht
  exact ⟨t, hneed, advances_need hneed, size_of_need hneed⟩

theorem Reads.read (n : Nat) :
    Reads (Input.read n : EStateM Error σ Bytes) fun out bs => out = bs ∧ out.length = n := by
  intro s out t h
  obtain ⟨bs, hadv, hout⟩ := Input.advances_bulkRead n s
  rw [adaptExcept_eq_ok.1 h, final_ok] at hadv
  exact ⟨bs, hadv, hout out t (adaptExcept_eq_ok.1 h)⟩

theorem Accepts.read [Reliable σ] {n : Nat} {bs : Bytes} (hn : bs.length = n) :
    Accepts (Input.read n : EStateM Error σ Bytes) bs bs := by
  intro s rest hs
  obtain ⟨out, t, h⟩ := Reliable.bulkRead_ok n s (by rw [hs, List.length_append]; omega)
  have hread : Input.read n s = .ok out t := adaptExcept_eq_ok.2 h
  obtain ⟨cs, hadv, rfl, hlen⟩ := Reads.read n s out t hread
  have hout : out = bs := by
    have heq := hadv.1.symm.trans hs
    exact (List.append_inj heq (hlen.trans hn.symm)).1
  rw [hout] at hread hadv
  exact ⟨t, hread, hadv⟩

/-- A count passes just if the rest of the input can hold it. -/
theorem checkAvailable_eq_ok {major : Major} {count : Nat} {s t : σ} {u : Unit} :
    checkAvailable major count s = .ok u t ↔
      count ≤ capacityFor major (available s) ∧ s = t := by
  rw [checkAvailable, bind_eq_ok]
  constructor
  · rintro ⟨a, v, hget, h⟩
    obtain ⟨rfl, rfl⟩ := get_eq_ok.1 hget
    obtain ⟨hc, rfl⟩ := failIf_eq_ok.1 h
    exact ⟨Nat.le_of_not_lt hc, rfl⟩
  · rintro ⟨hc, rfl⟩
    exact ⟨s, s, rfl, failIf_eq_ok.2 ⟨Nat.not_lt_of_le hc, rfl⟩⟩

omit [Input σ] in
theorem checkItems_eq_ok {options : Options} {count : Nat} {s t : σ} {u : Unit} :
    checkItems options count s = .ok u t ↔ count ≤ options.maxItems.toNat ∧ s = t := by
  rw [checkItems, failIf_eq_ok, Nat.not_lt]

/-- A chunk passes just if the input can hold it and the string stays within its limit. -/
theorem checkChunk_eq_ok {options : Options} {length total : Nat} {s t : σ} {u : Unit} :
    checkChunk options length total s = .ok u t ↔
      length ≤ available s ∧ total + length ≤ options.maxStringSize.toNat ∧ s = t := by
  rw [checkChunk, bind_eq_ok]
  constructor
  · rintro ⟨a, v, h1, h2⟩
    obtain ⟨hc, rfl⟩ := checkAvailable_eq_ok.1 h1
    obtain ⟨hl, rfl⟩ := failIf_eq_ok.1 h2
    exact ⟨hc, Nat.le_of_not_lt hl, rfl⟩
  · rintro ⟨hc, hl, rfl⟩
    exact ⟨(), s, checkAvailable_eq_ok.2 ⟨hc, rfl⟩, failIf_eq_ok.2 ⟨Nat.not_lt_of_le hl, rfl⟩⟩

/-- The availability check passes in front of what is still to be read, whatever follows. -/
theorem Accepts.checkAvailable [Reliable σ] {major : Major} {count : Nat} {x : EStateM Error σ β}
    {b : β} {bs : Bytes} (hc : count ≤ capacityFor major bs.length) (hx : Accepts x b bs) :
    Accepts (checkAvailable major count >>= fun _ => x) b bs := by
  intro s rest hs
  obtain ⟨t, ht, hadv⟩ := hx s rest hs
  have hlen : bs.length ≤ available s := by
    have hall := Reliable.length_le_available s
    rw [hs, List.length_append] at hall
    omega
  have hle : count ≤ capacityFor major (available s) := by
    unfold capacityFor at hc ⊢
    by_cases hm : major = .map
    · rw [if_pos hm] at hc ⊢
      omega
    · rw [if_neg hm] at hc ⊢
      omega
  exact ⟨t, bind_eq_ok.2 ⟨(), s, checkAvailable_eq_ok.2 ⟨hle, rfl⟩, ht⟩, hadv⟩

theorem Accepts.checkItems {options : Options} {count : Nat}
    (h : count ≤ options.maxItems.toNat) :
    Accepts (checkItems options count : EStateM Error σ Unit) () [] :=
  .failIf (Nat.not_lt_of_le h)

theorem Accepts.checkChunk [Reliable σ] {options : Options} {length total : Nat}
    {x : EStateM Error σ β} {b : β} {bs : Bytes} (hlen : length ≤ bs.length)
    (hl : total + length ≤ options.maxStringSize.toNat) (hx : Accepts x b bs) :
    Accepts (checkChunk options length total >>= fun _ => x) b bs := by
  intro s rest hs
  obtain ⟨t, ht, hadv⟩ := hx s rest hs
  have hle : length ≤ available s := by
    have hall := Reliable.length_le_available s
    rw [hs, List.length_append] at hall
    omega
  exact ⟨t, bind_eq_ok.2 ⟨(), s, checkChunk_eq_ok.2 ⟨hle, hl, rfl⟩, ht⟩, hadv⟩

end Steps

section Heads

/-- A head that is seen is spelled at the front of the window, and nothing is consumed. -/
theorem peekAnyHead_spelled {s t : σ} {h : Head} (e : peekAnyHead s = .ok h t) :
    Advances s [] t ∧ ∃ lead rest, (window t).toList = lead ++ rest ∧ h.Spelled lead := by
  unfold peekAnyHead at e
  -- A head is decoded from nine resident bytes, or from the ones it is announced to have.
  split at e
  · next ahead hahead =>
    obtain ⟨hh, rfl⟩ := known_eq_ok.1 e
    rw [head_ofBytes? hahead] at hh
    exact ⟨Advances.rfl, Head.spelled_of_decode hh⟩
  · unfold peekHeadExactly at e
    obtain ⟨_, x1, h1, e⟩ := bind_eq_ok.1 e
    obtain ⟨a, x2, h2, e⟩ := bind_eq_ok.1 e
    obtain ⟨rfl, rfl⟩ := get_eq_ok.1 h2
    obtain ⟨_, x3, h3, e⟩ := bind_eq_ok.1 e
    obtain ⟨a, x4, h4, e⟩ := bind_eq_ok.1 e
    obtain ⟨rfl, rfl⟩ := get_eq_ok.1 h4
    obtain ⟨hd, rfl⟩ := known_eq_ok.1 e
    obtain ⟨lead, rest, hlead, hs⟩ := Head.spelled_of_decode hd
    obtain ⟨more, hmore⟩ := (List.prefix_append lead rest).trans (hlead ▸ List.take_prefix _ _)
    exact ⟨(advances_need h1).trans (advances_need h3), lead, more, hmore.symm, hs⟩

/-- A head that is seen is spelled by resident bytes and passes the mode. -/
theorem peekHead_spelled {mode : Mode} {s t : σ} {h : Head} (e : peekHead mode s = .ok h t) :
    h.check mode = .ok () ∧ Advances s [] t ∧
      ∃ lead rest, (window t).toList = lead ++ rest ∧ h.Spelled lead := by
  unfold peekHead at e
  obtain ⟨head, v, hv, e⟩ := bind_eq_ok.1 e
  obtain ⟨_, w, hw, e⟩ := bind_eq_ok.1 e
  obtain ⟨hc, rfl⟩ := known_eq_ok.1 hw
  obtain ⟨rfl, rfl⟩ := pure_eq_ok.1 e
  exact ⟨hc, peekAnyHead_spelled hv⟩

/-- Moving past bytes at the front of the window. -/
theorem advances_discard_lead {s : σ} {lead rest : Bytes} {n : Nat}
    (h : (window s).toList = lead ++ rest) (hn : lead.length = n) :
    Advances s lead (Cursor.discard n s) := by
  have hadv := Cursor.advances_discard n s
  rwa [h, List.take_left' hn] at hadv

/-- A head that is read is spelled by its bytes and passes the mode. -/
theorem Reads.readHead (mode : Mode) :
    Reads (readHead mode : EStateM Error σ Head) fun h lead =>
      h.Spelled lead ∧ h.check mode = .ok () := by
  intro s h t e
  unfold CborCodec.readHead at e
  obtain ⟨head, v, hv, e⟩ := bind_eq_ok.1 e
  obtain ⟨_, w, hw, e⟩ := bind_eq_ok.1 e
  obtain ⟨rfl, rfl⟩ := pure_eq_ok.1 e
  cases hw
  obtain ⟨hc, hadv, lead, rest, hlead, hs⟩ := peekHead_spelled hv
  exact ⟨lead, hadv.trans (advances_discard_lead hlead hs.length_eq), hs, hc⟩

/-- The initial byte announces the length of the head that it starts. -/
theorem announcedLength_spelled {h : Head} {lead rest : Bytes} (hs : h.Spelled lead) :
    Head.announcedLength ((lead ++ rest).headD 0) = lead.length := by
  cases hs with
  | definite m w n hn =>
    have hi := ArgumentWidth.info_lt hn
    rw [m.length_spell, Major.spell, List.cons_append, List.headD_cons, Head.announcedLength,
      m.info_initialByte hi]
    cases w with
    | inline => exact if_neg fun hc => Nat.not_lt_of_le hc.1 hn
    | one | two | four | eight => rfl
  | opening m hm =>
    rw [Major.opening, List.singleton_append, List.headD_cons, Head.announcedLength,
      m.info_initialByte (by decide)]
    rfl

theorem headD_window {s : σ} (h : 0 < (window s).size) :
    (window s).toList.headD 0 = (stream s).headD 0 := by
  obtain ⟨more, hmore⟩ := Cursor.window_isPrefix s
  rw [(window s).size_eq] at h
  obtain ⟨b, bs, hb⟩ := List.exists_cons_of_length_pos h
  rw [← hmore, hb]
  rfl

theorem take_window_eq {s : σ} {lead rest : Bytes} (hs : stream s = lead ++ rest)
    (hn : lead.length ≤ (window s).size) : (window s).toList.take lead.length = lead := by
  rw [Cursor.take_window, Nat.min_eq_left hn, hs, List.take_left]

/-- No head is longer than nine bytes. -/
theorem Head.Spelled.length_le {h : Head} {lead : Bytes} (s : h.Spelled lead) :
    lead.length ≤ 9 := by
  cases s with
  | definite m w n hn =>
    rw [m.length_spell]
    cases w <;> decide
  | opening m hm => exact Nat.le_of_ble_eq_true rfl

/-- A head at the front of the stream is seen, if the input supplies it. -/
theorem peekAnyHead_ok [Reliable σ] {s : σ} {h : Head} {lead rest : Bytes}
    (hs : h.Spelled lead) (hstream : stream s = lead ++ rest) :
    ∃ t, peekAnyHead s = .ok h t ∧ Advances s [] t ∧ lead.length ≤ (window t).size := by
  have hpos := hs.length_pos
  unfold peekAnyHead
  split
  · next ahead hahead =>
    have hsize : lead.length ≤ (window s).size := by
      have hnine := length_of_lookahead hahead
      rw [(window s).size_eq]
      exact hs.length_le.trans hnine
    have hwindow := List.take_append_drop lead.length (window s).toList
    rw [take_window_eq hstream hsize] at hwindow
    have hhead : ahead.head = .ok h := by
      rw [head_ofBytes? hahead, ← hwindow]
      exact Head.decode_spelled hs _
    exact ⟨s, known_eq_ok.2 ⟨hhead, rfl⟩, Advances.rfl, hsize⟩
  · have hlen : lead.length ≤ (stream s).length := by rw [hstream, List.length_append]; omega
    obtain ⟨t, hneed1, hadv1, hsize1⟩ := need_ok (s := s) (n := 1) (by omega)
    have hinitial : Head.announcedLength ((window t).toList.headD 0) = lead.length := by
      rw [headD_window hsize1, hadv1.of_nil, hstream, announcedLength_spelled hs]
    obtain ⟨u, hneed2, hadv2, hsize2⟩ := need_ok (s := t) (n := lead.length)
      (by rwa [hadv1.of_nil])
    have hdecode : Head.decode ((window u).toList.take lead.length) = .ok h := by
      rw [take_window_eq (by rw [hadv2.of_nil, hadv1.of_nil, hstream]) hsize2,
        ← List.append_nil lead]
      exact Head.decode_spelled hs []
    refine ⟨u, ?_, hadv1.trans hadv2, hsize2⟩
    rw [peekHeadExactly]
    refine bind_eq_ok.2 ⟨(), t, hneed1, bind_eq_ok.2 ⟨t, t, rfl, ?_⟩⟩
    simp only [hinitial]
    exact bind_eq_ok.2 ⟨(), u, hneed2, bind_eq_ok.2 ⟨u, u, rfl, known_eq_ok.2 ⟨hdecode, rfl⟩⟩⟩

theorem peekHead_ok [Reliable σ] {mode : Mode} {s : σ} {h : Head} {lead rest : Bytes}
    (hs : h.Spelled lead) (hc : h.check mode = .ok ()) (hstream : stream s = lead ++ rest) :
    ∃ t, peekHead mode s = .ok h t ∧ Advances s [] t ∧ lead.length ≤ (window t).size := by
  obtain ⟨t, hpeek, hadv, hsize⟩ := peekAnyHead_ok hs hstream
  refine ⟨t, ?_, hadv, hsize⟩
  exact bind_eq_ok.2 ⟨h, t, hpeek, bind_eq_ok.2 ⟨(), t, known_eq_ok.2 ⟨hc, rfl⟩, rfl⟩⟩

theorem advances_discard_stream {s : σ} {lead rest : Bytes} {n : Nat}
    (hs : stream s = lead ++ rest) (hn : lead.length = n) (hsize : n ≤ (window s).size) :
    Advances s lead (Cursor.discard n s) := by
  have hadv := Cursor.advances_discard n s
  rwa [← hn, take_window_eq hs (hn ▸ hsize), hn] at hadv

/-- Bytes that spell a head are read as it, if it passes the mode. -/
theorem Accepts.readHead [Reliable σ] {mode : Mode} {h : Head} {lead : Bytes}
    (hs : h.Spelled lead) (hc : h.check mode = .ok ()) :
    Accepts (readHead mode : EStateM Error σ Head) h lead := by
  intro s rest hstream
  obtain ⟨t, hpeek, hadv, hsize⟩ := peekHead_ok hs hc hstream
  have hlen := hs.length_eq
  refine ⟨Cursor.discard h.encodedLength t, ?_, hadv.trans ?_⟩
  · exact bind_eq_ok.2 ⟨h, t, hpeek, bind_eq_ok.2 ⟨(), _, rfl, rfl⟩⟩
  · exact advances_discard_stream (hadv.of_nil.trans hstream) hlen (hlen ▸ hsize)

end Heads

section Breaks

theorem atBreak_eq_ok {s t : σ} {b : Bool} (h : atBreak s = .ok b t) :
    Advances s [] t ∧ 0 < (window t).size ∧ b = ((stream t).head? == some breakByte) := by
  unfold atBreak at h
  obtain ⟨_, x1, h1, h⟩ := bind_eq_ok.1 h
  obtain ⟨a, x2, h2, h⟩ := bind_eq_ok.1 h
  obtain ⟨rfl, rfl⟩ := get_eq_ok.1 h2
  obtain ⟨rfl, rfl⟩ := pure_eq_ok.1 h
  have hsize := size_of_need h1
  obtain ⟨more, hmore⟩ := Cursor.window_isPrefix x1
  rw [(window x1).size_eq] at hsize
  obtain ⟨c, cs, hcs⟩ := List.exists_cons_of_length_pos hsize
  refine ⟨advances_need h1, by rwa [(window x1).size_eq], ?_⟩
  rw [← hmore, hcs]
  rfl

/-- The break that was seen can be moved past. -/
theorem advances_break {s t : σ} (h : atBreak s = .ok true t) :
    Advances s [breakByte] (Cursor.discard 1 t) := by
  obtain ⟨hadv, hsize, hb⟩ := atBreak_eq_ok h
  have hhead : (stream t).head? = some breakByte := by simpa using hb.symm
  obtain ⟨rest, hrest⟩ := List.head?_eq_some_iff.mp hhead
  have hstream : stream t = [breakByte] ++ rest := hrest
  exact hadv.trans (advances_discard_stream hstream rfl hsize)

theorem atBreak_ok [Reliable σ] {s : σ} {b : UInt8} {rest : Bytes} (hs : stream s = b :: rest) :
    ∃ t, atBreak s = .ok (b == breakByte) t ∧ Advances s [] t := by
  obtain ⟨t, hneed, hadv, hsize⟩ := need_ok (s := s) (n := 1) (by simp [hs])
  have h : atBreak s = .ok ((window t).toList.head? == some breakByte) t :=
    bind_eq_ok.2 ⟨(), t, hneed, rfl⟩
  obtain ⟨-, -, hb⟩ := atBreak_eq_ok h
  rw [hb, hadv.of_nil, hs] at h
  exact ⟨t, h, hadv⟩

/-- In front of anything else than a break, what is to be done without one is done. -/
theorem Accepts.unlessBreak [Reliable σ] {x y : EStateM Error σ α} {a : α} {b : UInt8} {bs : Bytes}
    (hb : b ≠ breakByte) (hy : Accepts y a (b :: bs)) :
    Accepts (do if ← atBreak then x else y) a (b :: bs) := by
  intro s rest hs
  obtain ⟨t, ht, hnone⟩ := atBreak_ok (s := s) (b := b) hs
  rw [beq_false_of_ne hb] at ht
  obtain ⟨u, hu, hadv⟩ := hy t rest (hnone.of_nil.trans hs)
  exact ⟨u, bind_eq_ok.2 ⟨Bool.false, t, ht, hu⟩, hnone.trans hadv⟩

end Breaks

section Chunks

/-- What a head is where a chunk might begin: that of a chunk of some length, or the break. -/
def chunkLength (major : Major) (head : Head) : EStateM Error σ (Option Nat) := do
  if head.isBreak then
    return none
  else
    failIf (head.major ≠ major ∨ head.indefinite) .invalidIndefiniteSubitem
    return some head.value.toNat

def Major.Leads (m : Major) : Option Nat → Bytes → Prop
  | none, lead => lead = [breakByte]
  | some n, lead => ∃ w : ArgumentWidth, w.Holds n ∧ lead = m.spell w n

variable {x : EStateM Error σ Head} {major : Major}

theorem reads_chunkLength {mode : Mode}
    (hx : Reads x fun h lead => h.Spelled lead ∧ h.check mode = .ok ()) :
    Reads (x >>= chunkLength major) major.Leads := by
  intro s r t e
  obtain ⟨h, v, hv, e⟩ := bind_eq_ok.1 e
  obtain ⟨lead, hadv, hs, -⟩ := hx s h v hv
  refine ⟨lead, ?_⟩
  unfold chunkLength at e
  split at e
  · next hb =>
    obtain ⟨rfl, rfl⟩ := pure_eq_ok.1 e
    exact ⟨hadv, hs.eq_break hb⟩
  · obtain ⟨_, w, hw, e⟩ := bind_eq_ok.1 e
    obtain ⟨hne, rfl⟩ := failIf_eq_ok.1 hw
    obtain ⟨rfl, rfl⟩ := pure_eq_ok.1 e
    simp only [not_or, not_not, Bool.not_eq_true] at hne
    obtain ⟨hmajor, hdefinite⟩ := hne
    obtain ⟨w, -, hn, hlead, -⟩ := hs.exists_spell hdefinite
    exact ⟨hadv, w, hn, hmajor ▸ hlead⟩

theorem accepts_chunkLength_break (hx : Accepts x ⟨.special, true, 1, 0⟩ [breakByte]) :
    Accepts (x >>= chunkLength major) none [breakByte] :=
  hx.bind (.pure none)

theorem accepts_chunkLength {w : ArgumentWidth} {n : Nat} (hn : w.Holds n)
    (hx : Accepts x (Head.definite major (UInt64.ofNat n) (1 + w.bytes)) (major.spell w n)) :
    Accepts (x >>= chunkLength major) (some n) (major.spell w n) := by
  have hval := ArgumentWidth.toNat_of_holds hn
  have hbreak : ¬(Head.definite major (UInt64.ofNat n) (1 + w.bytes)).isBreak = true := by
    simp [Head.isBreak, Head.definite]
  rw [← List.append_nil (major.spell w n)]
  refine hx.bind ?_
  rw [chunkLength, if_neg hbreak]
  simp only [Head.definite, hval]
  exact .seq (.failIf (by simp)) (.pure _)

end Chunks

section Memory

namespace MemoryInput

/-- Bytes that were consumed from the start are the first of the data. -/
theorem take_of_advances {data bs : Bytes} {t : MemoryInput} (h : Advances (ofBytes data) bs t) :
    t.offset ≤ data.length ∧ data.take t.offset = bs := by
  obtain ⟨hstream, hpos⟩ := h
  have hoffset : t.offset = bs.length := by
    rw [← Nat.zero_add bs.length]
    exact hpos
  change data = bs ++ stream t at hstream
  rw [hoffset, hstream, List.length_append, List.take_left]
  exact ⟨Nat.le_add_right _ _, rfl⟩

theorem stream_ofBytes (data : Bytes) (n : Nat) :
    stream (ofBytes data) = data.take n ++ data.drop n :=
  (List.take_append_drop n data).symm

theorem offset_of_advances {data : Bytes} {n : Nat} {t : MemoryInput} (hn : n ≤ data.length)
    (h : Advances (ofBytes data) (data.take n) t) : t.offset = n := by
  have hpos : t.offset = 0 + (data.take n).length := h.2
  rw [hpos, Nat.zero_add, List.length_take_of_le hn]

end MemoryInput

end Memory

end CborCodec
