import CborCodec.Float
import Mathlib.Data.Nat.Log
import Mathlib.Tactic.NormNum
import Mathlib.Tactic.Ring
/-!
Narrowing of doubles is complete: a double has a half or single pattern exactly when some pattern
of that width widens to it. A finite value is a significand shifted by an exponent, and a format
holds it whenever both fit, so the trip of a narrow pattern through the double format loses nothing.
-/

namespace CborCodec

def FloatDatum.scaled (k : Nat) : FloatDatum → FloatDatum
  | .finite negative magnitude => .finite negative (magnitude * 2 ^ k)
  | d => d

theorem FloatDatum.scaled_scaled (j k : Nat) (d : FloatDatum) :
    (d.scaled j).scaled k = d.scaled (j + k) := by
  cases d with
  | finite negative magnitude => rw [scaled, scaled, scaled, Nat.mul_assoc, pow_add]
  | _ => rfl

namespace FloatFormat

variable {F : FloatFormat} {p : Nat}

theorem twoPow_eq (n : Nat) : twoPow n = 2 ^ n := rfl

/-- The three fields of a pattern stand side by side in one number. -/
theorem assemble_eq (negative : Bool) (exponent fraction : Nat) :
    F.assemble negative exponent fraction =
      2 ^ F.fractionBits * (2 ^ F.exponentBits * negative.toNat + exponent) + fraction := by
  cases negative
  · simp [assemble, twoPow_eq, Nat.mul_comm]
  · simp only [assemble, twoPow_eq, pow_add, Bool.toNat_true, if_true]
    ring

/-- The three fields of a pattern that is put together from them. -/
theorem fields_assemble (negative : Bool) (exponent fraction : Nat)
    (he : exponent < 2 ^ F.exponentBits) (hf : fraction < 2 ^ F.fractionBits) :
    F.assemble negative exponent fraction % 2 ^ F.fractionBits = fraction ∧
    F.assemble negative exponent fraction / 2 ^ F.fractionBits % 2 ^ F.exponentBits = exponent ∧
    F.assemble negative exponent fraction / 2 ^ (F.fractionBits + F.exponentBits) % 2 =
      negative.toNat := by
  have hs := assemble_eq (F := F) negative exponent fraction
  have hd : F.assemble negative exponent fraction / 2 ^ F.fractionBits =
      2 ^ F.exponentBits * negative.toNat + exponent := by
    rw [hs, Nat.mul_add_div (Nat.two_pow_pos _), Nat.div_eq_of_lt hf, Nat.add_zero]
  refine ⟨?_, ?_, ?_⟩
  · rw [hs, Nat.mul_add_mod, Nat.mod_eq_of_lt hf]
  · rw [hd, Nat.mul_add_mod, Nat.mod_eq_of_lt he]
  · rw [pow_add, ← Nat.div_div_eq_div_mul, hd, Nat.mul_add_div (Nat.two_pow_pos _),
      Nat.div_eq_of_lt he, Nat.add_zero]
    cases negative <;> rfl

theorem datum_assemble (negative : Bool) (exponent fraction : Nat)
    (he : exponent < 2 ^ F.exponentBits) (hf : fraction < 2 ^ F.fractionBits) :
    F.datum (F.assemble negative exponent fraction) =
      if exponent = F.top then
        if fraction = 0 then .infinite negative else .nan
      else if exponent = 0 then .finite negative fraction
      else .finite negative ((2 ^ F.fractionBits + fraction) * 2 ^ (exponent - 1)) := by
  obtain ⟨h1, h2, h3⟩ := fields_assemble (F := F) negative exponent fraction he hf
  have hn : (negative.toNat == 1) = negative := by cases negative <;> rfl
  simp only [datum, twoPow_eq, h1, h2, h3, hn]

/-- Fields that fit their widths make a pattern of the format. -/
theorem assemble_lt (negative : Bool) (exponent fraction : Nat)
    (he : exponent < 2 ^ F.exponentBits) (hf : fraction < 2 ^ F.fractionBits) :
    F.assemble negative exponent fraction < 2 ^ (1 + F.exponentBits + F.fractionBits) := by
  have hb : negative.toNat ≤ 1 := by cases negative <;> decide
  have hx : 2 ^ F.exponentBits * negative.toNat + exponent < 2 ^ F.exponentBits * 2 := by
    have := Nat.mul_le_mul_left (2 ^ F.exponentBits) hb
    omega
  rw [assemble_eq, Nat.add_comm 1, pow_add, pow_succ, Nat.mul_comm _ (2 ^ F.fractionBits)]
  have := Nat.mul_le_mul_left (2 ^ F.fractionBits) (Nat.succ_le_of_lt hx)
  rw [Nat.mul_succ] at this
  omega

/-- Every pattern of the format's width is put together from its fields. -/
theorem exists_assemble (hp : p < 2 ^ (1 + F.exponentBits + F.fractionBits)) :
    ∃ negative exponent fraction, exponent < 2 ^ F.exponentBits ∧
      fraction < 2 ^ F.fractionBits ∧ p = F.assemble negative exponent fraction := by
  let q := p / 2 ^ F.fractionBits
  have hsign : q / 2 ^ F.exponentBits < 2 := by
    rw [Nat.div_lt_iff_lt_mul (Nat.two_pow_pos _), Nat.div_lt_iff_lt_mul (Nat.two_pow_pos _)]
    rwa [← pow_succ', ← pow_add, Nat.add_comm F.exponentBits]
  have hbit : (q / 2 ^ F.exponentBits == 1).toNat = q / 2 ^ F.exponentBits := by
    rcases Nat.le_one_iff_eq_zero_or_eq_one.mp (Nat.le_of_lt_succ hsign) with h | h
    · rw [h]
      rfl
    · rw [h]
      rfl
  refine ⟨q / 2 ^ F.exponentBits == 1, q % 2 ^ F.exponentBits, p % 2 ^ F.fractionBits,
    Nat.mod_lt _ (Nat.two_pow_pos _), Nat.mod_lt _ (Nat.two_pow_pos _), ?_⟩
  rw [assemble_eq, hbit, Nat.div_add_mod, Nat.div_add_mod]

theorem log2_mul_two_pow {a : Nat} (ha : a ≠ 0) (k : Nat) : (a * 2 ^ k).log2 = a.log2 + k := by
  have hn : a * 2 ^ k ≠ 0 := Nat.mul_ne_zero ha (Nat.two_pow_pos k).ne'
  rw [Nat.log2_eq_iff hn]
  constructor
  · rw [pow_add]
    exact Nat.mul_le_mul_right _ (Nat.log2_self_le ha)
  · rw [Nat.add_right_comm, pow_add]
    exact Nat.mul_lt_mul_of_pos_right Nat.lt_log2_self (Nat.two_pow_pos k)

/-- Reading a pattern and writing what it stands for gives it back, but for the NaNs. -/
theorem pattern_datum (hp : p < 2 ^ (1 + F.exponentBits + F.fractionBits))
    (hn : F.datum p ≠ .nan) : F.pattern (F.datum p) = p := by
  obtain ⟨negative, exponent, fraction, hx, hf, rfl⟩ := exists_assemble hp
  rw [datum_assemble negative exponent fraction hx hf] at hn ⊢
  by_cases htop : exponent = F.top
  · rw [if_pos htop] at hn ⊢
    by_cases hz : fraction = 0
    · rw [if_pos hz, hz, htop]
      rfl
    · exact absurd (if_neg hz) hn
  · rw [if_neg htop]
    by_cases hz : exponent = 0
    · rw [if_pos hz, pattern, twoPow_eq, if_pos hf, hz]
    · -- A normal value has its leading bit just above the fraction field.
      have hpos : 0 < 2 ^ F.fractionBits := Nat.two_pow_pos _
      have hlog : (2 ^ F.fractionBits + fraction).log2 = F.fractionBits := by
        rw [Nat.log2_eq_iff (by omega), pow_succ]
        omega
      have hshift : ((2 ^ F.fractionBits + fraction) * 2 ^ (exponent - 1)).log2 - F.fractionBits =
          exponent - 1 := by
        rw [log2_mul_two_pow (by omega), hlog, Nat.add_sub_cancel_left]
      have hle : ¬(2 ^ F.fractionBits + fraction) * 2 ^ (exponent - 1) < 2 ^ F.fractionBits := by
        have := Nat.le_mul_of_pos_right (2 ^ F.fractionBits + fraction)
          (Nat.two_pow_pos (exponent - 1))
        omega
      rw [if_neg hz, pattern, twoPow_eq, if_neg hle]
      simp only [twoPow_eq, hshift, Nat.mul_div_cancel _ (Nat.two_pow_pos _)]
      rw [Nat.sub_add_cancel (by omega), Nat.add_sub_cancel_left]

/-- A magnitude that the format holds exactly: a significand of one bit more than the fraction
field, shifted by no more than the greatest finite exponent. -/
def Holds (F : FloatFormat) (magnitude : Nat) : Prop :=
  ∃ significand shift, magnitude = significand * 2 ^ shift ∧
    significand < 2 ^ (F.fractionBits + 1) ∧ shift + 2 ≤ F.top

theorem top_lt (F : FloatFormat) : F.top < 2 ^ F.exponentBits :=
  Nat.sub_lt (Nat.two_pow_pos _) Nat.one_pos

/-- How a magnitude that the format holds is written: the fields of its pattern read back as it. -/
theorem pattern_finite (negative : Bool) {magnitude : Nat} (h : F.Holds magnitude) :
    ∃ exponent fraction, exponent < F.top ∧ fraction < 2 ^ F.fractionBits ∧
      F.pattern (.finite negative magnitude) = F.assemble negative exponent fraction ∧
      magnitude = if exponent = 0 then fraction
        else (2 ^ F.fractionBits + fraction) * 2 ^ (exponent - 1) := by
  obtain ⟨a, j, hm, ha, hj⟩ := h
  by_cases hlt : magnitude < 2 ^ F.fractionBits
  · -- Below the first normal value the magnitude is the fraction itself.
    exact ⟨0, magnitude, by omega, hlt, by rw [pattern, twoPow_eq, if_pos hlt], (if_pos rfl).symm⟩
  · have hne : magnitude ≠ 0 := by
      have hpos := Nat.two_pow_pos F.fractionBits
      omega
    have ha0 : a ≠ 0 := fun h0 => hne (by rw [hm, h0, Nat.zero_mul])
    have hlog : magnitude.log2 = a.log2 + j := by rw [hm, log2_mul_two_pow ha0]
    have halog : a.log2 < F.fractionBits + 1 := (Nat.log2_lt ha0).mpr ha
    have hf : F.fractionBits ≤ magnitude.log2 := (Nat.le_log2 hne).mpr (Nat.le_of_not_lt hlt)
    -- What the shift drops is zero, since the significand alone fits the field.
    let s := magnitude.log2 - F.fractionBits
    have hs : F.fractionBits + s = magnitude.log2 := by omega
    have hdvd : 2 ^ s ∣ magnitude := by
      rw [hm]
      exact Dvd.dvd.mul_left (pow_dvd_pow 2 (by omega)) a
    have hback : magnitude / 2 ^ s * 2 ^ s = magnitude := Nat.div_mul_cancel hdvd
    have hlow : 2 ^ F.fractionBits ≤ magnitude / 2 ^ s := by
      rw [Nat.le_div_iff_mul_le (Nat.two_pow_pos s), ← pow_add, hs]
      exact Nat.log2_self_le hne
    have hhigh : magnitude / 2 ^ s < 2 ^ F.fractionBits + 2 ^ F.fractionBits := by
      rw [← Nat.two_mul, ← pow_succ', Nat.div_lt_iff_lt_mul (Nat.two_pow_pos s), ← pow_add,
        Nat.add_right_comm, hs]
      exact Nat.lt_log2_self
    refine ⟨s + 1, magnitude / 2 ^ s - 2 ^ F.fractionBits, by omega, by omega, ?_, ?_⟩
    · rw [pattern, twoPow_eq, if_neg hlt]
      rfl
    · rw [if_neg (by omega), Nat.add_sub_cancel, Nat.add_sub_cancel' hlow, hback]

/-- Writing a magnitude that the format holds and reading it gives it back. -/
theorem datum_pattern_finite (negative : Bool) {magnitude : Nat} (h : F.Holds magnitude) :
    F.datum (F.pattern (.finite negative magnitude)) = .finite negative magnitude := by
  obtain ⟨exponent, fraction, he, hf, hp, hm⟩ := pattern_finite negative h
  rw [hp, datum_assemble negative _ _ (he.trans (top_lt F)) hf, if_neg he.ne]
  by_cases hz : exponent = 0
  · rw [if_pos hz] at hm ⊢
    rw [hm]
  · rw [if_neg hz] at hm ⊢
    rw [hm]

theorem datum_pattern_infinite (negative : Bool) :
    F.datum (F.pattern (.infinite negative)) = .infinite negative := by
  rw [pattern, datum_assemble negative _ _ (top_lt F) (Nat.two_pow_pos _), if_pos rfl, if_pos rfl]

theorem datum_pattern_nan (hf : 0 < F.fractionBits) : F.datum (F.pattern .nan) = .nan := by
  have hlt : 2 ^ (F.fractionBits - 1) < 2 ^ F.fractionBits :=
    Nat.pow_lt_pow_right Nat.one_lt_two (Nat.sub_lt hf Nat.one_pos)
  rw [pattern, twoPow_eq, datum_assemble false _ _ (top_lt F) hlt, if_pos rfl,
    if_neg (Nat.two_pow_pos _).ne']

/-- What a pattern stands for, if it is finite, is held by its format. -/
theorem holds_of_datum {negative : Bool} {magnitude : Nat} (htop : 2 ≤ F.top)
    (h : F.datum p = .finite negative magnitude) : F.Holds magnitude := by
  have hfrac : p % twoPow F.fractionBits < 2 ^ F.fractionBits := Nat.mod_lt _ (Nat.two_pow_pos _)
  have hexp : p / twoPow F.fractionBits % twoPow F.exponentBits < 2 ^ F.exponentBits :=
    Nat.mod_lt _ (Nat.two_pow_pos _)
  have ht : F.top = 2 ^ F.exponentBits - 1 := rfl
  simp only [datum] at h
  split at h
  · split at h <;> cases h
  · split at h
    · cases h
      exact ⟨_, 0, (Nat.mul_one _).symm, by rw [pow_succ]; omega, htop⟩
    · cases h
      exact ⟨_, _, rfl, by rw [twoPow_eq, pow_succ]; omega, by omega⟩

/-- Format `F` is no wider than `G`, whose unit is `2 ^ k` times smaller. -/
structure NarrowerBy (k : Nat) (F G : FloatFormat) : Prop where
  fraction_pos : 0 < G.fractionBits
  fraction_le : F.fractionBits ≤ G.fractionBits
  two_le_top : 2 ≤ F.top
  top_le : F.top + k ≤ G.top

theorem narrower_half_double : NarrowerBy (double.scale - half.scale) half double := by
  constructor <;> decide

theorem narrower_single_double : NarrowerBy (double.scale - single.scale) single double := by
  constructor <;> decide

theorem narrower_half_single : NarrowerBy (single.scale - half.scale) half single := by
  constructor <;> decide

/-- A magnitude that a format holds is held by a wider one, in the units of that. -/
theorem Holds.scaled {G : FloatFormat} {k magnitude : Nat} (hN : NarrowerBy k F G)
    (h : F.Holds magnitude) : G.Holds (magnitude * 2 ^ k) := by
  obtain ⟨a, j, rfl, ha, hj⟩ := h
  have htop := hN.top_le
  refine ⟨a, j + k, ?_, ?_, by omega⟩
  · rw [pow_add, Nat.mul_assoc]
  · exact ha.trans_le (Nat.pow_le_pow_right Nat.two_pos (Nat.succ_le_succ hN.fraction_le))

/-- A pattern's datum keeps what it stands for when it is written in a wider format. -/
theorem datum_pattern_scaled {G : FloatFormat} {k : Nat} (hN : NarrowerBy k F G) (p : Nat) :
    G.datum (G.pattern ((F.datum p).scaled k)) = (F.datum p).scaled k := by
  cases h : F.datum p with
  | nan => exact datum_pattern_nan hN.fraction_pos
  | infinite negative => exact datum_pattern_infinite negative
  | finite negative magnitude =>
    exact datum_pattern_finite negative ((holds_of_datum hN.two_le_top h).scaled hN)

/-- What is widened has a pattern of the wider format. -/
theorem pattern_scaled_lt {G : FloatFormat} {k : Nat} (hN : NarrowerBy k F G) (p : Nat) :
    G.pattern ((F.datum p).scaled k) < 2 ^ (1 + G.exponentBits + G.fractionBits) := by
  cases h : F.datum p with
  | nan =>
    exact assemble_lt false _ _ (top_lt G)
      (Nat.pow_lt_pow_right Nat.one_lt_two (Nat.sub_lt hN.fraction_pos Nat.one_pos))
  | infinite negative => exact assemble_lt negative _ _ (top_lt G) (Nat.two_pow_pos _)
  | finite negative magnitude =>
    obtain ⟨exponent, fraction, he, hf, hp, -⟩ :=
      pattern_finite negative ((holds_of_datum hN.two_le_top h).scaled hN)
    rw [FloatDatum.scaled, hp]
    exact assemble_lt negative _ _ (he.trans (top_lt G)) hf

theorem widen_eq (F : FloatFormat) (p : Nat) :
    F.widen p = double.pattern ((F.datum p).scaled (double.scale - F.scale)) := by
  rw [widen]
  cases F.datum p <;> rfl

/-- A pattern that is no NaN survives the trip through the double format. -/
theorem cut_widen (hN : NarrowerBy (double.scale - F.scale) F double)
    (hp : p < 2 ^ (1 + F.exponentBits + F.fractionBits)) (hn : F.datum p ≠ .nan) :
    F.cut (F.widen p) = p := by
  -- Widening multiplies a magnitude by the ratio of the units, and cutting divides by it.
  have hback := pattern_datum hp hn
  rw [cut, widen_eq, datum_pattern_scaled hN]
  cases h : F.datum p with
  | nan => exact absurd h hn
  | infinite negative => rwa [h] at hback
  | finite negative magnitude =>
    simp only [FloatDatum.scaled, twoPow_eq, Nat.mul_div_cancel _ (Nat.two_pow_pos _)]
    rwa [h] at hback

end FloatFormat

namespace Double

/-- Equality of bit patterns, except that all NaNs are alike. -/
def Alike (a b : Double) : Prop := a = b ∨ (a.isNaN = true ∧ b.isNaN = true)

instance (a b : Double) : Decidable (Alike a b) := by
  unfold Alike; infer_instance

theorem toNat_bits_ofHalf (h : UInt16) :
    (ofHalf h).bits.toNat = FloatFormat.half.widen h.toNat := by
  have hlt := FloatFormat.pattern_scaled_lt FloatFormat.narrower_half_double h.toNat
  rw [← FloatFormat.widen_eq] at hlt
  exact Nat.mod_eq_of_lt hlt

theorem toNat_bits_ofSingle (s : UInt32) :
    (ofSingle s).bits.toNat = FloatFormat.single.widen s.toNat := by
  have hlt := FloatFormat.pattern_scaled_lt FloatFormat.narrower_single_double s.toNat
  rw [← FloatFormat.widen_eq] at hlt
  exact Nat.mod_eq_of_lt hlt

/-- A pattern that widens to no NaN is none itself. -/
theorem datum_ne_nan {F : FloatFormat}
    (hN : FloatFormat.NarrowerBy (FloatFormat.double.scale - F.scale) F FloatFormat.double)
    {d : Double} {p : Nat} (hd : d.bits.toNat = F.widen p) (hn : d.isNaN = false) :
    F.datum p ≠ .nan := by
  intro h
  have hdat : FloatFormat.double.datum (F.widen p) = .nan := by
    rw [FloatFormat.widen_eq, FloatFormat.datum_pattern_scaled hN, h]
    rfl
  rw [isNaN, datum, hd, hdat] at hn
  exact absurd hn (by decide)

/-- A half-precision pattern that is no NaN is had back from its double. -/
theorem toHalf?_ofHalf {h : UInt16} (hn : (ofHalf h).isNaN = false) :
    (ofHalf h).toHalf? = some h := by
  have hbits := toNat_bits_ofHalf h
  have hcut := FloatFormat.cut_widen FloatFormat.narrower_half_double h.toNat_lt
    (datum_ne_nan FloatFormat.narrower_half_double hbits hn)
  rw [toHalf?, hbits, hcut, UInt16.ofNat_toNat]
  simp [hn]

/-- A single-precision pattern that is no NaN is had back from its double. -/
theorem toSingle?_ofSingle {s : UInt32} (hn : (ofSingle s).isNaN = false) :
    (ofSingle s).toSingle? = some s := by
  have hbits := toNat_bits_ofSingle s
  have hcut := FloatFormat.cut_widen FloatFormat.narrower_single_double s.toNat_lt
    (datum_ne_nan FloatFormat.narrower_single_double hbits hn)
  rw [toSingle?, hbits, hcut, UInt32.ofNat_toNat]
  simp [hn]

/-- A double has a half pattern exactly when it is what a half pattern widens to, and no NaN. -/
theorem toHalf?_eq_some_iff {d : Double} {h : UInt16} :
    d.toHalf? = some h ↔ d.isNaN = false ∧ ofHalf h = d := by
  constructor
  · intro e
    simp only [toHalf?] at e
    split at e
    · next hc =>
      cases e
      simpa using hc
    · cases e
  · rintro ⟨hn, rfl⟩
    exact toHalf?_ofHalf hn

/-- A double has a single pattern exactly when it is what one widens to, and no NaN. -/
theorem toSingle?_eq_some_iff {d : Double} {s : UInt32} :
    d.toSingle? = some s ↔ d.isNaN = false ∧ ofSingle s = d := by
  constructor
  · intro e
    simp only [toSingle?] at e
    split at e
    · next hc =>
      cases e
      simpa using hc
    · cases e
  · rintro ⟨hn, rfl⟩
    exact toSingle?_ofSingle hn

/-- What a half pattern widens to is also what some single pattern widens to. -/
theorem exists_ofSingle_eq_ofHalf (h : UInt16) : ∃ s : UInt32, ofSingle s = ofHalf h := by
  -- Widening in two steps, with single precision between them, is widening in one.
  let q := FloatFormat.single.pattern ((FloatFormat.half.datum h.toNat).scaled
    (FloatFormat.single.scale - FloatFormat.half.scale))
  have hq : q < 2 ^ 32 := FloatFormat.pattern_scaled_lt FloatFormat.narrower_half_single h.toNat
  have hs : (UInt32.ofNat q).toNat = q := Nat.mod_eq_of_lt hq
  have hd : FloatFormat.single.datum q = (FloatFormat.half.datum h.toNat).scaled
      (FloatFormat.single.scale - FloatFormat.half.scale) :=
    FloatFormat.datum_pattern_scaled FloatFormat.narrower_half_single h.toNat
  refine ⟨UInt32.ofNat q, ?_⟩
  rw [ofSingle, ofHalf, hs, FloatFormat.widen_eq, FloatFormat.widen_eq, hd,
    FloatDatum.scaled_scaled]
  rfl

end Double

end CborCodec
