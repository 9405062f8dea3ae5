import CborCodec.Head.Read
import CborCodec.Proofs.Narrowing
import Mathlib.Data.List.Induction
import Mathlib.Tactic.IntervalCases
/-!
How heads are spelled. A definite head is a major, an argument and the width it is written in; the
spelling is the initial byte followed by the argument in big-endian bytes. Main statements: what
is decoded at the front of bytes is what is spelled there, and a mode accepts a head exactly if
its argument is in the narrowest width and, where floats matter, no narrower pattern is alike.
-/

namespace CborCodec

/-- Where the argument of a definite head is: in the initial byte, or in the bytes after it. -/
inductive ArgumentWidth where
  | inline
  | one
  | two
  | four
  | eight
  deriving DecidableEq, Repr

namespace ArgumentWidth

def bytes : ArgumentWidth → Nat
  | inline => 0
  | one => 1
  | two => 2
  | four => 4
  | eight => 8

def info : ArgumentWidth → Nat → Nat
  | inline, n => n
  | one, _ => 24
  | two, _ => 25
  | four, _ => 26
  | eight, _ => 27

def Holds : ArgumentWidth → Nat → Prop
  | inline, n => n < 24
  | w, n => n < 256 ^ w.bytes

instance : (w : ArgumentWidth) → (n : Nat) → Decidable (w.Holds n)
  | inline, n => Nat.decLt n 24
  | one, n => Nat.decLt n (256 ^ 1)
  | two, n => Nat.decLt n (256 ^ 2)
  | four, n => Nat.decLt n (256 ^ 4)
  | eight, n => Nat.decLt n (256 ^ 8)

/-- The double that a pattern of the width expands to, where the width is that of a float. -/
def expand? : ArgumentWidth → Nat → Option Double
  | two, n => some (Double.ofHalf (UInt16.ofNat n))
  | four, n => some (Double.ofSingle (UInt32.ofNat n))
  | eight, n => some ⟨UInt64.ofNat n⟩
  | _, _ => none

theorem lt_of_holds {w : ArgumentWidth} {n : Nat} (h : w.Holds n) : n < 2 ^ 64 := by
  cases w <;> simp only [Holds, bytes] at h <;> omega

/-- A number that a width holds is that of its word. -/
theorem toNat_of_holds {w : ArgumentWidth} {n : Nat} (h : w.Holds n) :
    (UInt64.ofNat n).toNat = n :=
  UInt64.toNat_ofNat_of_lt' (lt_of_holds h)

theorem info_lt {w : ArgumentWidth} {n : Nat} (h : w.Holds n) : w.info n < 32 := by
  cases w <;> simp only [Holds, info] at h ⊢ <;> omega

def shortest (n : Nat) : ArgumentWidth :=
  if n < 24 then inline
  else if n < 256 then one
  else if n < 256 ^ 2 then two
  else if n < 256 ^ 4 then four
  else eight

theorem holds_shortest {n : Nat} (h : n < 2 ^ 64) : (shortest n).Holds n := by
  unfold shortest
  split_ifs <;> assumption

theorem bytes_shortest_le {w : ArgumentWidth} {n : Nat} (h : w.Holds n) :
    (shortest n).bytes ≤ w.bytes := by
  unfold shortest
  cases w <;> simp only [Holds, bytes] at h ⊢ <;> split_ifs <;> simp only <;> omega

/-- Additional information from 24 to 27 announces a width, in which any argument of as many
bytes is held. -/
theorem exists_announced {info : Nat} (h : 24 ≤ info) (h' : info ≤ 27) :
    ∃ w : ArgumentWidth, w.bytes = twoPow (info - 24) ∧
      ∀ n, w.info n = info ∧ (n < 256 ^ w.bytes → w.Holds n) := by
  interval_cases info
  · exact ⟨one, rfl, fun _ => ⟨rfl, id⟩⟩
  · exact ⟨two, rfl, fun _ => ⟨rfl, id⟩⟩
  · exact ⟨four, rfl, fun _ => ⟨rfl, id⟩⟩
  · exact ⟨eight, rfl, fun _ => ⟨rfl, id⟩⟩

end ArgumentWidth

def Major.initialByte (m : Major) (info : Nat) : UInt8 := UInt8.ofNat (m.number * 32 + info)

def Major.spell (m : Major) (w : ArgumentWidth) (n : Nat) : Bytes :=
  m.initialByte (w.info n) :: Bytes.ofWord w.bytes n

/-- The byte that opens an item of indefinite length, and of the special major the break. -/
def Major.opening (m : Major) : Bytes := [m.initialByte 31]

namespace Major

theorem number_lt (m : Major) : m.number < 8 := by cases m <;> decide

theorem number_ofNumber {n : Nat} (h : n < 8) : (ofNumber n).number = n := by
  interval_cases n <;> rfl

theorem toNat_initialByte (m : Major) {info : Nat} (h : info < 32) :
    (m.initialByte info).toNat = m.number * 32 + info := by
  have hlt := m.number_lt
  rw [initialByte, UInt8.toNat_ofNat']
  omega

/-- The major of a head is in the three highest bits. -/
theorem ofNumber_initialByte (m : Major) {info : Nat} (h : info < 32) :
    ofNumber ((m.initialByte info).toNat / 32) = m := by
  have hd : (m.initialByte info).toNat / 32 = m.number := by
    rw [toNat_initialByte m h]
    omega
  rw [hd, ofNumber_number]

theorem info_initialByte (m : Major) {info : Nat} (h : info < 32) :
    (m.initialByte info).toNat % 32 = info := by
  rw [toNat_initialByte m h]
  omega

/-- Every byte is the initial byte of its major and additional information. -/
theorem initialByte_ofNumber (b : UInt8) :
    (ofNumber (b.toNat / 32)).initialByte (b.toNat % 32) = b := by
  have hb := b.toNat_lt
  rw [initialByte, number_ofNumber (by omega), Nat.mul_comm, Nat.div_add_mod, UInt8.ofNat_toNat]

theorem length_spell (m : Major) (w : ArgumentWidth) (n : Nat) :
    (m.spell w n).length = 1 + w.bytes := by
  rw [spell, List.length_cons, Bytes.length_ofWord, Nat.add_comm]

end Major

inductive Head.Spelled : Head → Bytes → Prop
  | definite (m : Major) (w : ArgumentWidth) (n : Nat) (hn : w.Holds n) :
      Spelled (Head.definite m (UInt64.ofNat n) (1 + w.bytes)) (m.spell w n)
  | opening (m : Major) (hm : m.allowsIndefinite = true) :
      Spelled ⟨m, true, 1, 0⟩ m.opening

namespace Head

theorem Spelled.length_eq {h : Head} {lead : Bytes} (s : h.Spelled lead) :
    lead.length = h.encodedLength := by
  cases s with
  | definite m w n hn => exact m.length_spell w n
  | opening m hm => rfl

theorem Spelled.length_pos {h : Head} {lead : Bytes} (s : h.Spelled lead) : 0 < lead.length := by
  cases s with
  | definite m w n hn => rw [m.length_spell]; omega
  | opening m hm => exact Nat.one_pos

/-- A definite head is decoded as what it spells, whatever is behind it. -/
theorem decode_spell (m : Major) {w : ArgumentWidth} {n : Nat} (hn : w.Holds n) (rest : Bytes) :
    decode (m.spell w n ++ rest) = .ok (definite m (UInt64.ofNat n) (1 + w.bytes)) := by
  have hi := w.info_lt hn
  have htake : (Bytes.ofWord w.bytes n ++ rest).take w.bytes = Bytes.ofWord w.bytes n :=
    List.take_left' (Bytes.length_ofWord _ _)
  have hword (hw : n < 256 ^ w.bytes) : Bytes.toWord (Bytes.ofWord w.bytes n) = n := by
    rw [Bytes.toWord_ofWord]
    exact Nat.mod_eq_of_lt hw
  rw [Major.spell, List.cons_append, decode, m.ofNumber_initialByte hi, m.info_initialByte hi]
  cases w with
  | inline => exact if_pos hn
  | one | two | four | eight =>
    have hwidth := hword hn
    simp only [ArgumentWidth.bytes] at htake hwidth ⊢
    simp [ArgumentWidth.info, twoPow, htake, hwidth]

theorem decode_opening (m : Major) (rest : Bytes) :
    decode (m.opening ++ rest) = ofIndefinite m := by
  rw [Major.opening, List.singleton_append, decode, m.ofNumber_initialByte (by decide),
    m.info_initialByte (by decide)]
  rfl

theorem decode_spelled {h : Head} {lead : Bytes} (s : h.Spelled lead) (rest : Bytes) :
    decode (lead ++ rest) = .ok h := by
  cases s with
  | definite m w n hn => exact decode_spell m hn rest
  | opening m hm => rw [decode_opening, ofIndefinite, if_pos hm]

/-- A head that was decoded is spelled at the front of the bytes. -/
theorem spelled_of_decode {bs : Bytes} {h : Head} (e : decode bs = .ok h) :
    ∃ lead rest, bs = lead ++ rest ∧ h.Spelled lead := by
  cases bs with
  | nil => cases e
  | cons b rest =>
    have hb := Major.initialByte_ofNumber b
    simp only [decode] at e
    generalize Major.ofNumber (b.toNat / 32) = m at hb e
    generalize b.toNat % 32 = info at hb e
    split at e
    · next hlt =>
      cases e
      exact ⟨m.spell .inline info, rest, by rw [← hb]; rfl, .definite m .inline info hlt⟩
    · split at e
      · next hge hle =>
        split at e
        · next hlen =>
          cases e
          obtain ⟨w, hw, hinfo⟩ := ArgumentWidth.exists_announced (Nat.le_of_not_lt hge) hle
          rw [← hw] at hlen ⊢
          have hword := Bytes.ofWord_toWord (rest.take w.bytes)
          have hlt := Bytes.toWord_lt (rest.take w.bytes)
          rw [hlen] at hword hlt
          obtain ⟨hi, hholds⟩ := hinfo (Bytes.toWord (rest.take w.bytes))
          refine ⟨m.spell w (Bytes.toWord (rest.take w.bytes)), rest.drop w.bytes, ?_,
            .definite m w _ (hholds hlt)⟩
          rw [Major.spell, hi, hword, hb, List.cons_append, List.take_append_drop]
        · cases e
      · split at e
        · next h31 =>
          simp only [ofIndefinite] at e
          split at e
          · next hm =>
            cases e
            exact ⟨m.opening, rest, by rw [← hb, h31]; rfl, .opening m hm⟩
          · cases e
        · cases e

end Head

theorem toWord_append (as bs : Bytes) :
    Bytes.toWord (as ++ bs) = Bytes.toWord as * 256 ^ bs.length + Bytes.toWord bs := by
  induction bs using List.reverseRecOn with
  | nil => simp [Bytes.toWord]
  | append_singleton bs b ih =>
    rw [← List.append_assoc, Bytes.toWord_append_singleton, ih, Bytes.toWord_append_singleton,
      List.length_append, List.length_singleton, pow_succ]
    ring

/-- The highest bytes of a word of eight are the word that they spell by themselves. -/
theorem shiftRight_toWord {bs : Bytes} (hb : bs.length = 8) {width : Nat} (hw : 0 < width)
    (hw8 : width ≤ 8) :
    UInt64.ofNat (Bytes.toWord bs) >>> UInt64.ofNat (64 - 8 * width) =
      UInt64.ofNat (Bytes.toWord (bs.take width)) := by
  -- The word is that of its highest bytes, shifted, and of the others, which are shifted out.
  have hlt : Bytes.toWord bs < 2 ^ 64 := by
    have h := Bytes.toWord_lt bs
    rwa [hb] at h
  have hlen : (bs.drop width).length = 8 - width := by rw [List.length_drop, hb]
  have hlow : Bytes.toWord (bs.drop width) < 256 ^ (8 - width) := by
    have h := Bytes.toWord_lt (bs.drop width)
    rwa [hlen] at h
  have hsplit : Bytes.toWord bs =
      Bytes.toWord (bs.take width) * 256 ^ (8 - width) + Bytes.toWord (bs.drop width) := by
    rw [← hlen, ← toWord_append, List.take_append_drop]
  have hpow : 2 ^ (64 - 8 * width) = 256 ^ (8 - width) := by
    rw [show 64 - 8 * width = 8 * (8 - width) by omega, pow_mul]
    rfl
  have hquot : Bytes.toWord bs / 256 ^ (8 - width) = Bytes.toWord (bs.take width) := by
    rw [hsplit, Nat.mul_comm, Nat.mul_add_div (Nat.pow_pos (by decide)), Nat.div_eq_of_lt hlow,
      Nat.add_zero]
  apply UInt64.toNat_inj.mp
  have hshift : (UInt64.ofNat (64 - 8 * width)).toNat % 64 = 64 - 8 * width := by
    rw [UInt64.toNat_ofNat']
    omega
  have hhigh : Bytes.toWord (bs.take width) < 2 ^ 64 := by
    rw [← hquot]
    exact (Nat.div_le_self _ _).trans_lt hlt
  calc (UInt64.ofNat (Bytes.toWord bs) >>> UInt64.ofNat (64 - 8 * width)).toNat
      = Bytes.toWord bs >>> (64 - 8 * width) := by
        rw [UInt64.toNat_shiftRight, hshift, UInt64.toNat_ofNat', Nat.mod_eq_of_lt hlt]
    _ = Bytes.toWord bs / 256 ^ (8 - width) := by rw [Nat.shiftRight_eq_div_pow, hpow]
    _ = Bytes.toWord (bs.take width) := hquot
    _ = (UInt64.ofNat (Bytes.toWord (bs.take width))).toNat := by
        rw [UInt64.toNat_ofNat', Nat.mod_eq_of_lt hhigh]

/-- A lookahead of nine bytes is decoded as the bytes themselves are. -/
theorem head_ofBytes? {bs : Bytes} {ahead : Lookahead} (h : Lookahead.ofBytes? bs = some ahead) :
    ahead.head = Head.decode bs := by
  unfold Lookahead.ofBytes? at h
  split at h
  · next b0 b1 b2 b3 b4 b5 b6 b7 b8 rest =>
    cases h
    simp only [Lookahead.head, Head.decode]
    by_cases hlt : b0.toNat % 32 < 24
    · rw [if_pos hlt, if_pos hlt]
    · rw [if_neg hlt, if_neg hlt]
      by_cases hle : b0.toNat % 32 ≤ 27
      · obtain ⟨w, hw, -⟩ := ArgumentWidth.exists_announced (Nat.le_of_not_lt hlt) hle
        have hpos : 0 < w.bytes := by rw [hw]; exact twoPow_pos _
        have hle8 : w.bytes ≤ 8 := by cases w <;> decide
        have htake : ([b1, b2, b3, b4, b5, b6, b7, b8] ++ rest).take w.bytes =
            [b1, b2, b3, b4, b5, b6, b7, b8].take w.bytes :=
          List.take_append_of_le_length hle8
        simp only [List.cons_append, List.nil_append] at htake
        have hlen : ([b1, b2, b3, b4, b5, b6, b7, b8].take w.bytes).length = w.bytes :=
          List.length_take_of_le hle8
        rw [if_pos hle, if_pos hle, ← hw, htake, if_pos hlen, shiftRight_toWord rfl hpos hle8]
      · rw [if_neg hle, if_neg hle]
  · cases h

/-- The argument is in the narrowest width that holds it. The width of a float belongs to its
value, but a simple value below 32 in a byte of its own is never narrow. -/
def Narrowest (m : Major) (w : ArgumentWidth) (n : Nat) : Prop :=
  if m = .special then w = .one → 32 ≤ n
  else ∀ u : ArgumentWidth, u.Holds n → w.bytes ≤ u.bytes

/-- If the argument is the pattern of a float, no narrower pattern expands to a double alike. -/
def ShortestFloat (w : ArgumentWidth) (n : Nat) : Prop :=
  ∀ (u : ArgumentWidth) (k : Nat) (d e : Double), u.bytes < w.bytes → u.Holds k →
    u.expand? k = some d → w.expand? n = some e → ¬d.Alike e

def Mode.Admits : Mode → Major → ArgumentWidth → Nat → Prop
  | lenient, _, _, _ => True
  | canonical, m, w, n => Narrowest m w n
  | strict, m, w, n => Narrowest m w n ∧ (m = .special → ShortestFloat w n)

/-- The shortest head of a value has its argument in the narrowest width. -/
theorem minimalLength_eq {n : Nat} (h : n < 2 ^ 64) :
    minimalLength (UInt64.ofNat n) = 1 + (ArgumentWidth.shortest n).bytes := by
  have hn : (UInt64.ofNat n).toNat = n := Nat.mod_eq_of_lt h
  rw [minimalLength, hn, ArgumentWidth.shortest]
  simp only [apply_ite ArgumentWidth.bytes, apply_ite (1 + ·)]
  rfl

/-- A definite head is minimal just if its argument is in the narrowest width. -/
theorem isMinimal_definite {m : Major} {w : ArgumentWidth} {n : Nat} (h : w.Holds n) :
    (Head.definite m (UInt64.ofNat n) (1 + w.bytes)).isMinimal = true ↔ Narrowest m w n := by
  have hlt := ArgumentWidth.lt_of_holds h
  have hn : (UInt64.ofNat n).toNat = n := Nat.mod_eq_of_lt hlt
  by_cases hm : m = .special
  · rw [Narrowest, if_pos hm, Head.isMinimal, Head.definite, if_pos hm]
    cases w <;> simp [ArgumentWidth.bytes, UInt64.le_iff_toNat_le, hn]
  · rw [Narrowest, if_neg hm, Head.isMinimal, Head.definite, if_neg hm, Bool.false_or]
    change (1 + w.bytes == minimalLength (UInt64.ofNat n)) = true ↔ _
    rw [beq_iff_eq, minimalLength_eq hlt]
    constructor
    · intro e u hu
      have hle := ArgumentWidth.bytes_shortest_le hu
      omega
    · intro hall
      have hle := hall _ (ArgumentWidth.holds_shortest hlt)
      have hge := ArgumentWidth.bytes_shortest_le h
      omega

theorem isNaN_ofHalf_quiet : (Double.ofHalf 0x7E00).isNaN = true := by decide

/-- A double has no half pattern alike it exactly if it is no NaN and is not narrowed to one. -/
theorem toHalf?_isNone_iff {d : Double} :
    (!d.isNaN && d.toHalf?.isNone) = true ↔ ∀ h, ¬(Double.ofHalf h).Alike d := by
  rw [Bool.and_eq_true, Bool.not_eq_true', Option.isNone_iff_eq_none]
  constructor
  · rintro ⟨hn, hnone⟩ h (heq | ⟨-, hd⟩)
    · rw [Double.toHalf?_eq_some_iff.mpr ⟨hn, heq⟩] at hnone
      cases hnone
    · rw [hn] at hd
      cases hd
  · intro hall
    have hn : d.isNaN = false := by
      by_contra hd
      exact hall 0x7E00 (Or.inr ⟨isNaN_ofHalf_quiet, by simpa using hd⟩)
    refine ⟨hn, Option.eq_none_iff_forall_ne_some.mpr fun h heq => hall h (Or.inl ?_)⟩
    exact (Double.toHalf?_eq_some_iff.mp heq).2

/-- A double has no narrower pattern alike it exactly if it is no NaN and has no single one. -/
theorem toSingle?_isNone_iff {d : Double} :
    (!d.isNaN && d.toSingle?.isNone) = true ↔
      (∀ h, ¬(Double.ofHalf h).Alike d) ∧ ∀ s, ¬(Double.ofSingle s).Alike d := by
  rw [Bool.and_eq_true, Bool.not_eq_true', Option.isNone_iff_eq_none]
  constructor
  · rintro ⟨hn, hnone⟩
    have hsingle (s : UInt32) : ¬(Double.ofSingle s).Alike d := by
      rintro (heq | ⟨-, hd⟩)
      · rw [Double.toSingle?_eq_some_iff.mpr ⟨hn, heq⟩] at hnone
        cases hnone
      · rw [hn] at hd
        cases hd
    refine ⟨fun h => ?_, hsingle⟩
    -- What a half pattern expands to, some single pattern does too.
    obtain ⟨s, hs⟩ := Double.exists_ofSingle_eq_ofHalf h
    rw [← hs]
    exact hsingle s
  · rintro ⟨hhalf, hsingle⟩
    have hn : d.isNaN = false := by
      by_contra hd
      exact hhalf 0x7E00 (Or.inr ⟨isNaN_ofHalf_quiet, by simpa using hd⟩)
    refine ⟨hn, Option.eq_none_iff_forall_ne_some.mpr fun s heq => hsingle s (Or.inl ?_)⟩
    exact (Double.toSingle?_eq_some_iff.mp heq).2

/-- A double that also has a narrower pattern is one of half or, in eight bytes, of single
precision. -/
theorem expand?_of_lt {u w : ArgumentWidth} {k : Nat} {d : Double} (hu : u.bytes < w.bytes)
    (hd : u.expand? k = some d) :
    2 < w.bytes ∧ ((∃ h, d = Double.ofHalf h) ∨ (w = .eight ∧ ∃ s, d = Double.ofSingle s)) := by
  cases u with
  | inline | one => cases hd
  | two =>
    cases hd
    exact ⟨hu, Or.inl ⟨_, rfl⟩⟩
  | four =>
    cases hd
    cases w with
    | inline | one | two | four => exact absurd hu (by decide)
    | eight => exact ⟨by decide, Or.inr ⟨rfl, _, rfl⟩⟩
  | eight => cases w <;> exact absurd hu (by decide)

theorem expand?_two (h : UInt16) : ArgumentWidth.two.expand? h.toNat = some (Double.ofHalf h) := by
  rw [ArgumentWidth.expand?, UInt16.ofNat_toNat]

theorem expand?_four (s : UInt32) :
    ArgumentWidth.four.expand? s.toNat = some (Double.ofSingle s) := by
  rw [ArgumentWidth.expand?, UInt32.ofNat_toNat]

theorem shortestFloat_of_le {w : ArgumentWidth} {n : Nat} (hw : w.bytes ≤ 2) :
    ShortestFloat w n := by
  intro u k d e hu _ hd _ _
  have hwide := (expand?_of_lt hu hd).1
  omega

/-- A single-precision pattern is the shortest unless half precision has the double. -/
theorem shortestFloat_four {n : Nat} :
    ShortestFloat .four n ↔ ∀ h, ¬(Double.ofHalf h).Alike (Double.ofSingle (UInt32.ofNat n)) := by
  constructor
  · intro hs h
    exact hs .two h.toNat _ _ (by decide) h.toNat_lt (expand?_two h) rfl
  · rintro hall u k d e hu _ hd ⟨⟩
    obtain ⟨-, ⟨h, rfl⟩ | ⟨hw, -⟩⟩ := expand?_of_lt hu hd
    · exact hall h
    · cases hw

/-- A double is the shortest unless half or single precision has it. -/
theorem shortestFloat_eight {n : Nat} :
    ShortestFloat .eight n ↔ (∀ h, ¬(Double.ofHalf h).Alike ⟨UInt64.ofNat n⟩) ∧
      ∀ s, ¬(Double.ofSingle s).Alike ⟨UInt64.ofNat n⟩ := by
  constructor
  · intro hs
    refine ⟨fun h => ?_, fun s => ?_⟩
    · exact hs .two h.toNat _ _ (by decide) h.toNat_lt (expand?_two h) rfl
    · exact hs .four s.toNat _ _ (by decide) s.toNat_lt (expand?_four s) rfl
  · rintro ⟨hhalf, hsingle⟩ u k d e hu _ hd ⟨⟩
    obtain ⟨-, ⟨h, rfl⟩ | ⟨-, s, rfl⟩⟩ := expand?_of_lt hu hd
    · exact hhalf h
    · exact hsingle s

/-- The float check of a head looks for a narrower pattern that is alike. -/
theorem isShortestFloat_definite (w : ArgumentWidth) (n : Nat) :
    (Head.definite .special (UInt64.ofNat n) (1 + w.bytes)).isShortestFloat = true ↔
      ShortestFloat w n := by
  have hsingle : (UInt64.ofNat n).toUInt32 = UInt32.ofNat n := by
    apply UInt32.toNat_inj.mp
    rw [UInt64.toNat_toUInt32, UInt64.toNat_ofNat', UInt32.toNat_ofNat']
    omega
  cases w with
  | inline | one | two => exact iff_of_true rfl (shortestFloat_of_le (by decide))
  | four =>
    rw [shortestFloat_four, ← toHalf?_isNone_iff, ← hsingle]
    rfl
  | eight =>
    rw [shortestFloat_eight, ← toSingle?_isNone_iff]
    rfl

theorem check_of_definite {h : Head} {mode : Mode} (hd : h.indefinite = false) :
    h.check mode = .ok () ↔
      mode = .lenient ∨ (h.isMinimal = true ∧ (mode = .strict → h.isShortestFloat = true)) := by
  cases mode <;> cases hm : h.isMinimal <;> cases hf : h.isShortestFloat <;>
    simp [Head.check, hd, hm, hf]

/-- A mode accepts a definite head exactly if it admits its argument in its width. -/
theorem check_definite {mode : Mode} {m : Major} {w : ArgumentWidth} {n : Nat} (h : w.Holds n) :
    (Head.definite m (UInt64.ofNat n) (1 + w.bytes)).check mode = .ok () ↔ mode.Admits m w n := by
  have hmin := isMinimal_definite (m := m) h
  have hfloat : (Head.definite m (UInt64.ofNat n) (1 + w.bytes)).isShortestFloat = true ↔
      (m = .special → ShortestFloat w n) := by
    by_cases hm : m = .special
    · subst hm
      rw [isShortestFloat_definite]
      exact ⟨fun hs _ => hs, fun hs => hs rfl⟩
    · exact iff_of_true (if_neg hm) fun hs => absurd hs hm
  rw [check_of_definite rfl, hmin, hfloat]
  cases mode with
  | lenient => exact iff_of_true (Or.inl rfl) trivial
  | canonical => simp [Mode.Admits]
  | strict => simp [Mode.Admits]

theorem check_opening {mode : Mode} {m : Major} :
    (⟨m, true, 1, 0⟩ : Head).check mode = .ok () ↔ mode = .lenient ∨ m = .special := by
  cases mode <;> by_cases hm : m = .special <;> simp [Head.check, hm]

theorem opening_special : Major.special.opening = [breakByte] := by decide

namespace Head

variable {h : Head} {lead : Bytes}

/-- The spelling of a definite head, in terms of its fields. -/
theorem Spelled.exists_spell (s : h.Spelled lead) (hd : h.indefinite = false) :
    ∃ w : ArgumentWidth, h = Head.definite h.major (UInt64.ofNat h.value.toNat) (1 + w.bytes) ∧
      w.Holds h.value.toNat ∧ lead = h.major.spell w h.value.toNat ∧
      ∀ mode, h.check mode = .ok () → mode.Admits h.major w h.value.toNat := by
  cases s with
  | definite m w n hn =>
    have hval := ArgumentWidth.toNat_of_holds hn
    simp only [Head.definite, hval]
    exact ⟨w, rfl, hn, rfl, fun mode hc => (check_definite hn).1 hc⟩
  | opening m hm => cases hd

/-- The spelling of a head of indefinite length is one byte; beyond lenient mode it is the break. -/
theorem Spelled.eq_opening (s : h.Spelled lead) (hi : h.indefinite = true) :
    lead = h.major.opening ∧ h.major.allowsIndefinite = true ∧
      ∀ mode, h.check mode = .ok () → mode = .lenient ∨ h.major = .special := by
  cases s with
  | definite m w n hn => cases hi
  | opening m hm => exact ⟨rfl, hm, fun mode hc => check_opening.1 hc⟩

theorem Spelled.eq_break (s : h.Spelled lead) (hb : h.isBreak = true) : lead = [breakByte] := by
  rw [isBreak, Bool.and_eq_true, beq_iff_eq] at hb
  rw [(s.eq_opening hb.2).1, hb.1, opening_special]

end Head

end CborCodec
