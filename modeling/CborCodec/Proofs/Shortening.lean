import CborCodec.Encode
import CborCodec.Proofs.Canonical
/-!
The encoder of floats and the check of their width agree. A double is written in the narrowest
width that has a pattern of it, which reads back bit by bit, and the check lets a float pass just
where the encoder would take as many bytes. What the two rely on is a conversion to each narrower
width that is exact where it can be; how it rounds what does not fit makes no difference.
-/

namespace CborCodec

namespace Double

variable {a b d : Double}

def zero (negative : Bool) : Double := ⟨if negative then 0x8000000000000000 else 0⟩

/-- A double that is no NaN is known by its datum. -/
theorem eq_of_datum_eq (hn : a.isNaN = false) (h : a.datum = b.datum) : a = b := by
  have hnan : a.datum ≠ .nan := by simpa [isNaN] using hn
  have ha : FloatFormat.double.pattern a.datum = a.bits.toNat :=
    FloatFormat.pattern_datum a.bits.toNat_lt hnan
  have hb : FloatFormat.double.pattern b.datum = b.bits.toNat :=
    FloatFormat.pattern_datum b.bits.toNat_lt (fun hb => hnan (h.trans hb))
  have hbits : a.bits = b.bits := by
    apply UInt64.toNat_inj.mp
    rw [← ha, ← hb, h]
  cases a
  cases b
  exact congrArg Double.mk hbits

theorem datum_zero (negative : Bool) : (zero negative).datum = .finite negative 0 := by
  cases negative <;> decide

theorem eq_zero_of_datum {negative : Bool} (h : d.datum = .finite negative 0) :
    d = zero negative := by
  rw [← datum_zero negative] at h
  refine (eq_of_datum_eq ?_ h.symm).symm
  cases negative <;> decide

theorem numEq_self (hn : d.isNaN = false) : d.numEq d = true := by
  unfold numEq
  cases hd : d.datum with
  | nan => simp [isNaN, hd] at hn
  | infinite negative => simp
  | finite negative magnitude => cases magnitude <;> simp

/-- Numbers that are equal are the same pattern, but for the two zeros. -/
theorem numEq_cases (h : a.numEq b = true) :
    b.isNaN = false ∧ (a = b ∨ ∃ negative, b = zero negative) := by
  have hb : b.isNaN = false := by
    by_contra hn
    have hnan : b.datum = .nan := by simpa [isNaN] using hn
    unfold numEq at h
    rw [hnan] at h
    cases hd : a.datum <;> simp [hd] at h
  refine ⟨hb, ?_⟩
  unfold numEq at h
  split at h
  · cases h
  · cases h
  · next negative hzero => exact Or.inr ⟨_, eq_zero_of_datum hzero⟩
  · exact Or.inl (eq_of_datum_eq hb (beq_iff_eq.mp h).symm).symm

end Double

section Conversions

/-- Conversions between doubles and narrower patterns. What a narrower pattern widens to is
converted to that pattern; what none widens to may be rounded in any way, or not be converted. -/
structure Conversions where
  toHalf : Double → Option UInt16
  fromHalf : UInt16 → Double
  toSingle : Double → Option UInt32
  toHalf_ofHalf : ∀ h, (Double.ofHalf h).isNaN = false → toHalf (Double.ofHalf h) = some h
  fromHalf_alike : ∀ h, (fromHalf h).Alike (Double.ofHalf h)
  toSingle_ofSingle : ∀ s, (Double.ofSingle s).isNaN = false →
    toSingle (Double.ofSingle s) = some s

def lossless? {P : Type} (convert : Double → Option P) (back : P → Double) (d : Double) :
    Option P :=
  (convert d).filter fun p => (back p).numEq d

/-- A conversion that is exact where it can be keeps the pattern of the double, if there is one. -/
theorem lossless?_eq_some_iff {P : Type} {convert : Double → Option P} {back widen : P → Double}
    (hback : ∀ p, (back p).Alike (widen p))
    (hexact : ∀ p, (widen p).isNaN = false → convert (widen p) = some p)
    (hzero : ∀ negative, ∃ p, widen p = Double.zero negative) {d : Double} {p : P} :
    lossless? convert back d = some p ↔ d.isNaN = false ∧ widen p = d := by
  rw [lossless?, Option.filter_eq_some_iff]
  constructor
  · rintro ⟨hconvert, hequal⟩
    obtain ⟨hn, hsame | ⟨negative, hzeros⟩⟩ := Double.numEq_cases hequal
    · refine ⟨hn, ?_⟩
      rcases hback p with heq | ⟨hnan, -⟩
      · rw [← heq, hsame]
      · rw [hsame, hn] at hnan
        cases hnan
    · obtain ⟨q, hq⟩ := hzero negative
      have hd : widen q = d := hq.trans hzeros.symm
      have hconverted := hexact q (hd ▸ hn)
      rw [hd, hconvert] at hconverted
      cases hconverted
      exact ⟨hn, hd⟩
  · rintro ⟨hn, rfl⟩
    refine ⟨hexact p hn, ?_⟩
    rcases hback p with heq | ⟨-, hnan⟩
    · rw [heq]
      exact Double.numEq_self hn
    · rw [hn] at hnan
      cases hnan

namespace Conversions

variable (c : Conversions) (d : Double)

def half? : Option UInt16 := lossless? c.toHalf c.fromHalf d

def single? : Option UInt32 := lossless? c.toSingle Double.ofSingle d

/-- Whatever the conversions round, the half-precision pattern that survives is the exact one. -/
theorem half?_eq : c.half? d = d.toHalf? := by
  have hzero (negative : Bool) : ∃ h, Double.ofHalf h = Double.zero negative := by
    cases negative
    · exact ⟨0, by decide +kernel⟩
    · exact ⟨0x8000, by decide +kernel⟩
  apply Option.ext
  intro h
  rw [half?, lossless?_eq_some_iff c.fromHalf_alike c.toHalf_ofHalf hzero,
    Double.toHalf?_eq_some_iff]

/-- Whatever the conversions round, the single-precision pattern that survives is the exact one. -/
theorem single?_eq : c.single? d = d.toSingle? := by
  have hzero (negative : Bool) : ∃ s, Double.ofSingle s = Double.zero negative := by
    cases negative
    · exact ⟨0, by decide +kernel⟩
    · exact ⟨0x80000000, by decide +kernel⟩
  apply Option.ext
  intro s
  rw [single?, lossless?_eq_some_iff (fun _ => Or.inl rfl) c.toSingle_ofSingle hzero,
    Double.toSingle?_eq_some_iff]

/-- Cutting off what does not fit is exact where nothing is cut off. -/
def cutting : Conversions where
  toHalf d := some (UInt16.ofNat (FloatFormat.half.cut d.bits.toNat))
  fromHalf := Double.ofHalf
  toSingle d := some (UInt32.ofNat (FloatFormat.single.cut d.bits.toNat))
  toHalf_ofHalf h hn := by
    have hnarrow := Double.toHalf?_ofHalf hn
    rw [Double.toHalf?] at hnarrow
    split at hnarrow
    · exact hnarrow
    · cases hnarrow
  fromHalf_alike _ := Or.inl rfl
  toSingle_ofSingle s hn := by
    have hnarrow := Double.toSingle?_ofSingle hn
    rw [Double.toSingle?] at hnarrow
    split at hnarrow
    · exact hnarrow
    · cases hnarrow

end Conversions

end Conversions

section Widths

variable {w : ArgumentWidth} {n : Nat} {d : Double}

/-- The widths of floats are those of two, four and eight bytes. -/
theorem bytes_of_expand? (h : w.expand? n = some d) :
    w.bytes = 2 ∨ w.bytes = 4 ∨ w.bytes = 8 := by
  cases w with
  | inline | one => cases h
  | two => exact Or.inl rfl
  | four => exact Or.inr (Or.inl rfl)
  | eight => exact Or.inr (Or.inr rfl)

/-- Where no narrower pattern expands to the double, only a width matters, not the pattern. -/
theorem ShortestFloat.congr {k : Nat} (h : ShortestFloat w n) (hn : w.expand? n = some d)
    (hk : w.expand? k = some d) : ShortestFloat w k := by
  intro u j c e hu hj hc he
  rw [hk] at he
  cases he
  exact h u j c d hu hj hc hn

/-- Two patterns of a double, neither of which has a narrower one, have the same width. -/
theorem ShortestFloat.bytes_eq {u : ArgumentWidth} {k : Nat} (hw : ShortestFloat w n)
    (hu : ShortestFloat u k) (hn : w.Holds n) (hk : u.Holds k) (hd : w.expand? n = some d)
    (hd' : u.expand? k = some d) : w.bytes = u.bytes := by
  rcases Nat.lt_trichotomy w.bytes u.bytes with hlt | heq | hgt
  · exact absurd (Or.inl rfl) (hu w n d d hlt hn hd hd')
  · exact heq
  · exact absurd (Or.inl rfl) (hw u k d d hgt hk hd' hd)

end Widths

/-- The bytes of a double that is no NaN: one head with the length of a float, which reads back as
the same pattern, passes under the strictest mode, and leaves no narrower pattern of the double. -/
structure Double.Shortest (d : Double) (bs : Bytes) : Prop where
  length : bs.length = 3 ∨ bs.length = 5 ∨ bs.length = 9
  head : ∃ head, Head.decode bs = .ok head ∧ head.encodedLength = bs.length ∧
    head.float? = some d ∧ head.check .strict = .ok ()
  half : 3 < bs.length → ∀ h, Double.ofHalf h ≠ d
  single : 5 < bs.length → ∀ s, Double.ofSingle s ≠ d

theorem encodeFloat_nan {d : Double} (hn : d.isNaN = true) :
    Head.encodeFloat d = [0xF9, 0x7E, 0x00] := by
  rw [Head.encodeFloat, if_pos hn]
  decide

/-- A double that is no NaN is written in its shortest form. -/
theorem shortest_encodeFloat {d : Double} (hn : d.isNaN = false) :
    d.Shortest (Head.encodeFloat d) := by
  obtain ⟨w, n, hbytes, hholds, hadmits, hexpand⟩ := encodeFloat_eq_spell d
  rw [hn, if_neg Bool.false_ne_true] at hexpand
  have hlength : (Head.encodeFloat d).length = 1 + w.bytes := by
    rw [hbytes, Major.length_spell]
  have hshort : ShortestFloat w n := hadmits.2 rfl
  constructor
  · have hwidth := bytes_of_expand? hexpand
    omega
  · have hdecode := Head.decode_spell .special hholds []
    rw [List.append_nil, ← hbytes] at hdecode
    refine ⟨_, hdecode, hlength.symm, ?_, ?_⟩
    · rw [float?_definite, hexpand]
    · exact (check_definite hholds).mpr hadmits
  · -- A half, or a single below, would be a narrower pattern than the shortest.
    intro hlong h hd
    have htwo : ArgumentWidth.two.bytes < w.bytes := by
      rw [hlength] at hlong
      exact (by omega : 2 < w.bytes)
    exact hshort .two h.toNat _ d htwo h.toNat_lt (expand?_two h) hexpand (Or.inl hd)
  · intro hlong s hd
    have hfour : ArgumentWidth.four.bytes < w.bytes := by
      rw [hlength] at hlong
      exact (by omega : 4 < w.bytes)
    exact hshort .four s.toNat _ d hfour s.toNat_lt (expand?_four s) hexpand (Or.inl hd)

/-- The check of a float's width asks whether the encoder would take as many bytes. -/
theorem isShortestFloat_iff_length {head : Head} {lead : Bytes} {d : Double}
    (hs : head.Spelled lead) (hm : head.major = .special) (hi : head.indefinite = false)
    (hd : head.float? = some d) (hn : d.isNaN = false) :
    head.isShortestFloat = true ↔ (Head.encodeFloat d).length = head.encodedLength := by
  obtain ⟨w, hhead, hholds, -, -⟩ := hs.exists_spell hi
  rw [hm] at hhead
  generalize head.value.toNat = n at hhead hholds
  subst hhead
  rw [float?_definite] at hd
  -- The encoder's own width is shortest, and two shortest widths of one double are the same.
  obtain ⟨u, k, hbytes, hholds', hadmits, hd'⟩ := encodeFloat_eq_spell d
  rw [hn, if_neg Bool.false_ne_true] at hd'
  have hshort : ShortestFloat u k := hadmits.2 rfl
  rw [isShortestFloat_definite, hbytes, Major.length_spell]
  change _ ↔ 1 + u.bytes = 1 + w.bytes
  constructor
  · intro h
    rw [h.bytes_eq hshort hholds hholds' hd hd']
  · intro h
    obtain rfl : u = w := ArgumentWidth.eq_of_bytes (Nat.add_left_cancel h)
    exact hshort.congr hd' hd

/-- What a definite head with the length of a float holds is one. -/
theorem exists_float {head : Head} (hm : head.major = .special) (hi : head.indefinite = false)
    (hlength : head.encodedLength = 3 ∨ head.encodedLength = 5 ∨ head.encodedLength = 9) :
    ∃ d, head.float? = some d := by
  have hspecial : head.major = .special ∧ (!head.indefinite) = true := by simp [hm, hi]
  unfold Head.float?
  rw [if_pos hspecial]
  rcases hlength with hlength | hlength | hlength <;> rw [hlength] <;> exact ⟨_, rfl⟩

/-- With any conversions, every double is written as the shortest head that reads back as it, all
NaNs as one; and the check of strict mode lets a float pass where the encoder would not write it in
fewer bytes. -/
theorem floats_are_shortest (c : Conversions) :
    (∀ d, c.half? d = d.toHalf? ∧ c.single? d = d.toSingle?) ∧
      (∀ d : Double, Writes (emitDouble d) (Head.encodeFloat d) ∧
        (d.isNaN = true → Head.encodeFloat d = [0xF9, 0x7E, 0x00]) ∧
        (d.isNaN = false → d.Shortest (Head.encodeFloat d))) ∧
      ∀ bs head, Head.decode bs = .ok head → head.major = .special → head.indefinite = false →
        head.encodedLength = 3 ∨ head.encodedLength = 5 ∨ head.encodedLength = 9 →
        ∃ d, head.float? = some d ∧ (d.isNaN = false →
          (head.isShortestFloat = true ↔ (Head.encodeFloat d).length = head.encodedLength)) := by
  refine ⟨fun d => ⟨c.half?_eq d, c.single?_eq d⟩, fun d => ⟨.putHead _, ?_, ?_⟩, ?_⟩
  · exact encodeFloat_nan
  · exact shortest_encodeFloat
  · intro bs head hdecode hm hi hlength
    obtain ⟨lead, -, -, hs⟩ := Head.spelled_of_decode hdecode
    obtain ⟨d, hd⟩ := exists_float hm hi hlength
    exact ⟨d, hd, isShortestFloat_iff_length hs hm hi hd⟩

/-- One and a half fits a half, so as a single it is refused; the least double fits nothing less. -/
theorem float_samples_are_shortest :
    (⟨0x3FF8000000000000⟩ : Double).Shortest [0xF9, 0x3E, 0x00] ∧
      (∃ head, Head.decode [0xFA, 0x3F, 0xC0, 0, 0] = .ok head ∧
        head.isShortestFloat = false) ∧
      (⟨1⟩ : Double).Shortest [0xFB, 0, 0, 0, 0, 0, 0, 0, 1] ∧
      Head.encodeFloat ⟨0xFFF0000000000001⟩ = [0xF9, 0x7E, 0x00] := by
  obtain ⟨-, hencoded, hchecked⟩ := floats_are_shortest .cutting
  have hhalf : Head.encodeFloat ⟨0x3FF8000000000000⟩ = [0xF9, 0x3E, 0x00] := by decide +kernel
  have hleast : Head.encodeFloat ⟨1⟩ = [0xFB, 0, 0, 0, 0, 0, 0, 0, 1] := by decide +kernel
  have hdecode : Head.decode [0xFA, 0x3F, 0xC0, 0, 0] =
      .ok (Head.definite .special 0x3FC00000 5) := by decide +kernel
  have hfloat : (Head.definite .special 0x3FC00000 5).float? = some ⟨0x3FF8000000000000⟩ := by
    decide +kernel
  refine ⟨?_, ⟨_, hdecode, ?_⟩, ?_, (hencoded _).2.1 (by decide +kernel)⟩
  · rw [← hhalf]
    exact (hencoded _).2.2 (by decide +kernel)
  · obtain ⟨d, hd, hiff⟩ := hchecked _ _ hdecode rfl rfl (Or.inr (Or.inl rfl))
    rw [hfloat] at hd
    cases hd
    have hlonger := (hiff (by decide +kernel)).not
    rw [hhalf] at hlonger
    exact Bool.eq_false_iff.mpr (hlonger.mpr (by decide))
  · rw [← hleast]
    exact (hencoded _).2.2 (by decide +kernel)

end CborCodec
