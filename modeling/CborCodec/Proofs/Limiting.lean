import CborCodec.Proofs.Agreement
import CborCodec.Proofs.Containment
/-!
Which limits a walk keeps. Strings and containers that declare a count are within the limits at
every depth. A container of indefinite length is walked up to its break without a count, so there
the limit on items is not kept: what is refused with a count passes without one.
-/

namespace CborCodec

/-- The limits on strings, arrays and maps hold for an item, whatever is inside it. -/
structure Limited (options : Options) (item : Bytes) : Prop where
  string : ∀ total, Payload total item → total ≤ options.maxStringSize.toNat
  array : ∀ h items, Elements h items item → h.major = .array →
    items.length ≤ options.maxItems.toNat
  /-- A pair is two items. -/
  map : ∀ h items, Elements h items item → h.major = .map →
    items.length ≤ 2 * options.maxItems.toNat

/-- The limit on items holds for an item if it is a container of indefinite length. -/
def LimitedOpen (options : Options) (item : Bytes) : Prop :=
  ∀ h items, Elements h items item → h.indefinite = true →
    items.length ≤ (if h.major = .map then 2 else 1) * options.maxItems.toNat

section Kept

variable {options : Options} {bs : Bytes}

/-- Behind a head that counts pairs there are twice as many items. -/
theorem length_of_declares {h : Head} {items : List Bytes} (he : Elements h items bs)
    (hd : h.Declares) :
    items.length = (if h.major = .map then 2 else 1) * h.value.toNat := by
  cases he with
  | counted hs hi hc =>
    rw [hc, Head.count]
    rcases hd.1 with hm | hm <;> simp [hm]
  | opened => cases hd.2

/-- An item that was accepted is within the limits, or is a container without a count. -/
theorem WellFormed.limited (h : WellFormed options bs) (hopen : LimitedOpen options bs) :
    Limited options bs := by
  have hstring := toNat_le_widest options.maxStringSize
  have hcount (head items) (he : Elements head items bs)
      (hm : head.major = .array ∨ head.major = .map) :
      items.length ≤ (if head.major = .map then 2 else 1) * options.maxItems.toNat := by
    cases hi : head.indefinite with
    | true => exact hopen head items he hi
    | false =>
      have hle : head.value.toNat ≤ options.maxItems.toNat :=
        by exact_mod_cast (h.of_elements hstring he).2 ⟨hm, hi⟩
      rw [length_of_declares he ⟨hm, hi⟩]
      exact Nat.mul_le_mul_left _ hle
  refine ⟨fun total hp => h.of_payload hp, fun head items he hm => ?_, fun head items he hm => ?_⟩
  · simpa [hm] using hcount head items he (Or.inl hm)
  · simpa [hm] using hcount head items he (Or.inr hm)

theorem Limited.limitedOpen (h : Limited options bs) : LimitedOpen options bs := by
  intro head items he hi
  have hm : head.major = .array ∨ head.major = .map := by
    cases he with
    | counted hs hd =>
      rw [hd] at hi
      cases hi
    | opened hm => exact hm
  rcases hm with hm | hm
  · simpa [hm] using h.array head items he hm
  · simpa [hm] using h.map head items he hm

/-- The limits hold for everything inside an item that was measured exactly if they hold for the
containers of indefinite length in it. -/
theorem limited_iff_of_itemLength {data : Bytes} {n : Nat} (h : itemLength options data = .ok n) :
    (∀ part, Inside (data.take n) part → Limited options part) ↔
      ∀ part, Inside (data.take n) part → LimitedOpen options part := by
  obtain ⟨-, hitem⟩ := (itemLength_eq_ok_iff options data n).mp h
  refine forall₂_congr fun part hpart => ⟨Limited.limitedOpen, ?_⟩
  exact WellFormed.limited (hitem.inside (toNat_le_widest _) hpart)

end Kept

section NotKept

variable {options : Options}

/-- Lenient mode accepts any number of items up to a break, whatever the limit on items. -/
theorem itemLength_opened (hmode : options.mode = .lenient) {m : Major} {items : List Bytes}
    (hm : m = .array ∨ (m = .map ∧ items.length % 2 = 0)) (hi : ∀ i ∈ items, WellFormed options i)
    (rest : Bytes) :
    itemLength options (m.opening ++ (items.flatten ++ [breakByte]) ++ rest) =
      .ok (items.flatten.length + 2) := by
  have hitem : WellFormed options (m.opening ++ (items.flatten ++ [breakByte])) := by
    rcases hm with rfl | ⟨rfl, hp⟩
    · exact .openArray items hmode hi
    · exact .openMap items hmode hi hp
  have hlen : (m.opening ++ (items.flatten ++ [breakByte])).length = items.flatten.length + 2 := by
    simp only [Major.opening, List.length_append, List.length_singleton]
    omega
  rw [← hlen, itemLength_eq_ok_iff, List.take_left]
  exact ⟨(List.prefix_append _ rest).length_le, hitem⟩

/-- A count beyond the limit is refused, if the input could hold as many items. -/
theorem itemLength_refused {h : Head} {lead rest : Bytes} (hs : h.Spelled lead)
    (hc : h.check options.mode = .ok ()) (hd : h.Declares)
    (hmany : options.maxItems.toNat < h.value.toNat)
    (hfits : h.value.toNat ≤ capacityFor h.major rest.length) :
    itemLength options (lead ++ rest) = .error .itemValueOutOfRange := by
  obtain ⟨t, ht, hadv⟩ := Accepts.takeHead (τ := Nowhere) hs hc
    (MemoryInput.ofBytes (lead ++ rest), {}) rest rfl
  have hstream : stream t = rest := stream_of_advances hadv rfl
  have havailable : available t = rest.length := by
    rw [← hstream]
    exact t.1.rest.size_eq
  have hdeclared : checkDeclared options h t = .error .itemValueOutOfRange t := by
    rw [checkDeclared_definite hd.1 hd.2, bind_apply,
      checkAvailable_eq_ok (u := ()) |>.2 ⟨havailable ▸ hfits, rfl⟩]
    exact congrFun (if_pos hmany) t
  refine itemLength_of_walk_error (t := t) ?_
  simp only [walkItem, takeFrame, bind_assoc]
  rw [bind_apply, ht]
  simp only [bind_apply, hdeclared]

theorem wellFormed_zeros (hmode : options.mode = .lenient) :
    ∀ i ∈ [[0x00], [0x00], [0x00]], WellFormed options i := by
  have hzero : WellFormed options (Major.unsigned.spell .inline 0) :=
    .bare _ _ _ (Or.inl rfl) (by decide) (by rw [hmode]; trivial)
  rw [List.forall_mem_cons, List.forall_mem_cons, List.forall_mem_singleton]
  exact ⟨hzero, hzero, hzero⟩

theorem itemLength_zeros :
    itemLength { maxItems := 2 } [0x9F, 0x00, 0x00, 0x00, 0xFF] = .ok 5 :=
  itemLength_opened rfl (Or.inl rfl) (wellFormed_zeros rfl) []

/-- Three zeros pass up to a break where two items are the limit, and do not with a count. -/
theorem open_array_unlimited :
    itemLength { maxItems := 2 } [0x9F, 0x00, 0x00, 0x00, 0xFF] = .ok 5 ∧
      itemLength { maxItems := 2 } [0x83, 0x00, 0x00, 0x00] = .error .itemValueOutOfRange ∧
      ¬∀ part, Inside [0x9F, 0x00, 0x00, 0x00, 0xFF] part → Limited { maxItems := 2 } part := by
  refine ⟨itemLength_zeros, itemLength_refused (.definite .array .inline 3 (by decide)) rfl
    ⟨Or.inl rfl, rfl⟩ (by decide) (by decide), fun hall => ?_⟩
  have harray := (hall _ .refl).array _ _ (.opened (Or.inl rfl) (wellFormed_zeros rfl)) rfl
  exact absurd harray (by decide)

end NotKept

/-- What the limits say of the three zeros, they say of the array without a count. -/
theorem limited_zeros_iff :
    (∀ part, Inside [0x9F, 0x00, 0x00, 0x00, 0xFF] part → Limited { maxItems := 2 } part) ↔
      ∀ part, Inside [0x9F, 0x00, 0x00, 0x00, 0xFF] part → LimitedOpen { maxItems := 2 } part :=
  limited_iff_of_itemLength itemLength_zeros

end CborCodec
