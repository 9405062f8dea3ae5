import CborCodec.Consume
import CborCodec.Head
/-!
Reading heads from an input. Where nine bytes are resident the head is taken from a lookahead;
otherwise exactly the bytes that the first one announces are asked for.
-/

namespace CborCodec

variable {σ : Type} [Input σ]

/-- The next head, decoded from no more bytes than it has. -/
def peekHeadExactly : EStateM Error σ Head := do
  Input.need 1
  let initial := (window (← get)).toList.headD 0
  let length := Head.announcedLength initial
  Input.need length
  known (Head.decode ((window (← get)).toList.take length))

def peekAnyHead : EStateM Error σ Head := fun s =>
  match Lookahead.ofBytes? (window s).toList with
  | some ahead => known ahead.head s
  | none => peekHeadExactly s

def peekHead (mode : Mode) : EStateM Error σ Head := do
  let head ← peekAnyHead
  known (head.check mode)
  return head

def readHead (mode : Mode) : EStateM Error σ Head := do
  let head ← peekHead mode
  Input.skip head.encodedLength
  return head

def atBreak : EStateM Error σ Bool := do
  Input.need 1
  return (window (← get)).toList.head? == some breakByte

theorem Consumes.peekHeadExactly : Consumes 0 (peekHeadExactly : EStateM Error σ Head) :=
  .seq (.need 1) (.bind .get fun _ => .seq (.need _) (.bind .get fun _ => .known _))

theorem Consumes.peekAnyHead : Consumes 0 (peekAnyHead : EStateM Error σ Head) := by
  intro s
  unfold CborCodec.peekAnyHead
  split
  · exact Consumes.known _ s
  · exact Consumes.peekHeadExactly s

theorem Consumes.peekHead (mode : Mode) : Consumes 0 (peekHead mode : EStateM Error σ Head) :=
  .bind .peekAnyHead fun _ => .seq (.known _) (.pure _)

theorem Consumes.atBreak : Consumes 0 (atBreak : EStateM Error σ Bool) :=
  .seq (.need 1) (.bind .get fun _ => .pure _)

theorem encodedLength_pos_of_ofIndefinite {m : Major} {h : Head}
    (e : Head.ofIndefinite m = .ok h) : 0 < h.encodedLength := by
  unfold Head.ofIndefinite at e
  split at e <;> cases e
  exact Nat.one_pos

/-- No head is empty. -/
theorem encodedLength_pos_of_decode {bs : Bytes} {h : Head} (e : Head.decode bs = .ok h) :
    0 < h.encodedLength := by
  unfold Head.decode at e
  split at e
  · cases e
  · simp only at e
    split at e
    · cases e; exact Nat.one_pos
    · split at e
      · split at e <;> cases e
        exact Nat.add_pos_left Nat.one_pos _
      · split at e
        · exact encodedLength_pos_of_ofIndefinite e
        · cases e

theorem encodedLength_pos_of_lookahead {l : Lookahead} {h : Head} (e : l.head = .ok h) :
    0 < h.encodedLength := by
  unfold Lookahead.head at e
  simp only at e
  split at e
  · cases e; exact Nat.one_pos
  · split at e
    · cases e
      exact Nat.add_pos_left Nat.one_pos _
    · split at e
      · exact encodedLength_pos_of_ofIndefinite e
      · cases e

theorem size_of_need {n : Nat} {s t : σ} {u : Unit} (h : Input.need n s = .ok u t) :
    n ≤ (window t).size :=
  Cursor.size_of_require n s t (adaptExcept_eq_ok.1 h)

theorem length_of_lookahead {bs : Bytes} {l : Lookahead} (h : Lookahead.ofBytes? bs = some l) :
    9 ≤ bs.length := by
  unfold Lookahead.ofBytes? at h
  split at h
  · simp only [List.length_cons]; omega
  · cases h

theorem pos_of_peekAnyHead {s t : σ} {h : Head} (e : peekAnyHead s = .ok h t) :
    0 < h.encodedLength ∧ 0 < (window t).size := by
  unfold peekAnyHead at e
  split at e
  -- Seen in a lookahead, for which nine bytes are resident.
  · next l hl =>
    obtain ⟨hh, rfl⟩ := known_eq_ok.1 e
    have := length_of_lookahead hl
    exact ⟨encodedLength_pos_of_lookahead hh, by rw [(window _).size_eq]; omega⟩
  -- Seen in the bytes that its first one asked for, of which there is one at least.
  · unfold peekHeadExactly at e
    obtain ⟨_, x1, h1, e⟩ := bind_eq_ok.1 e
    obtain ⟨a, x2, h2, e⟩ := bind_eq_ok.1 e
    obtain ⟨rfl, rfl⟩ := get_eq_ok.1 h2
    obtain ⟨_, x3, h3, e⟩ := bind_eq_ok.1 e
    obtain ⟨a, x4, h4, e⟩ := bind_eq_ok.1 e
    obtain ⟨rfl, rfl⟩ := get_eq_ok.1 h4
    obtain ⟨hd, rfl⟩ := known_eq_ok.1 e
    refine ⟨encodedLength_pos_of_decode hd, Nat.lt_of_lt_of_le ?_ (size_of_need h3)⟩
    unfold Head.announcedLength
    simp only
    split
    · exact Nat.add_pos_left Nat.one_pos _
    · exact Nat.one_pos

/-- A head once seen is not empty, and neither is the window it was seen in. -/
theorem pos_of_peekHead {mode : Mode} {s t : σ} {h : Head} (e : peekHead mode s = .ok h t) :
    0 < h.encodedLength ∧ 0 < (window t).size := by
  unfold peekHead at e
  obtain ⟨head, v, hv, e⟩ := bind_eq_ok.1 e
  obtain ⟨c, w, hw, e⟩ := bind_eq_ok.1 e
  obtain ⟨-, rfl⟩ := known_eq_ok.1 hw
  obtain ⟨rfl, rfl⟩ := pure_eq_ok.1 e
  exact pos_of_peekAnyHead hv

/-- What follows a peek at a head and consumes a byte of it. -/
theorem Consumes.peekThen {α : Type} {mode : Mode} {f : Head → EStateM Error σ α}
    (h0 : ∀ head, Consumes 0 (f head))
    (h1 : ∀ head s a t, 0 < head.encodedLength → 0 < (window s).size → f head s = .ok a t →
      (stream t).length < (stream s).length) :
    Consumes 1 (CborCodec.peekHead mode >>= f) := by
  intro s
  obtain ⟨bs, hbs, -⟩ := Consumes.bind (.peekHead mode) h0 s
  refine ⟨bs, hbs, fun a t ht => ?_⟩
  have hend := hbs.length_eq
  rw [ht, final_ok] at hend
  -- The peek leaves the stream no longer than it was, and what follows makes it shorter.
  obtain ⟨head, u, hu, hf⟩ := bind_eq_ok.1 ht
  obtain ⟨hl, hw⟩ := pos_of_peekHead hu
  have := (Consumes.peekHead mode).le_of_ok hu
  have := h1 head u a t hl hw hf
  omega

/-- Moving past a head of which something is resident shortens the stream. -/
theorem length_skip_lt {n : Nat} {s : σ} (hn : 0 < n) (hs : 0 < (window s).size) :
    (stream (Cursor.discard n s)).length < (stream s).length := by
  have := (Cursor.advances_discard n s).length_eq
  rw [List.length_take, ← (window s).size_eq] at this
  omega

/-- A head takes a byte at least. -/
theorem Consumes.readHead (mode : Mode) : Consumes 1 (readHead mode : EStateM Error σ Head) := by
  refine .peekThen (fun head => .seq (.skip _) (.pure _)) ?_
  rintro head s a t hl hw ⟨⟩
  exact length_skip_lt hl hw

end CborCodec
