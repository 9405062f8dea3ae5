import CborCodec.Proofs.Containment
import CborCodec.Proofs.RoundTrip
import Mathlib.Data.List.Basic
/-!
Encoding undoes strict decoding. Strict mode leaves one spelling to every value but for the
patterns of NaNs in half precision, of which the encoder knows the quiet one; so where there is no
other, the bytes of a value that was decoded are its encoding.
-/

namespace CborCodec

/-- No item in the bytes, at any depth, is a NaN in half precision other than the quiet one. -/
def QuietNaNs (bs : Bytes) : Prop :=
  ∀ part, Inside bs part → ∀ h : UInt16, part = Major.special.spell .two h.toNat →
    (Double.ofHalf h).isNaN = true → part = [0xF9, 0x7E, 0x00]

theorem QuietNaNs.of_encloses {whole part : Bytes} (h : QuietNaNs whole)
    (he : Encloses whole part) : QuietNaNs part :=
  fun inner hinner => h inner (.head he hinner)

section Narrow

variable {w : ArgumentWidth} {n : Nat}

theorem ArgumentWidth.eq_of_bytes {u v : ArgumentWidth} (h : u.bytes = v.bytes) : u = v := by
  cases u <;> cases v <;> first | rfl | cases h

/-- Strict mode leaves one width to an argument that is no float. -/
theorem eq_shortest_of_admits {m : Major} (hm : m ≠ .special) (hn : w.Holds n)
    (ha : Mode.strict.Admits m w n) : w = .shortest n := by
  have hnarrow := ha.1
  rw [Narrowest, if_neg hm] at hnarrow
  have hle := hnarrow _ (ArgumentWidth.holds_shortest (ArgumentWidth.lt_of_holds hn))
  exact ArgumentWidth.eq_of_bytes (Nat.le_antisymm hle (ArgumentWidth.bytes_shortest_le hn))

theorem encode_of_admits {m : Major} (hm : m ≠ .special) (hn : w.Holds n)
    (ha : Mode.strict.Admits m w n) : Head.encode m (UInt64.ofNat n) = m.spell w n := by
  rw [encode_ofNat m (ArgumentWidth.lt_of_holds hn), ← eq_shortest_of_admits hm hn ha]

/-- What half precision expands to is written in half precision, if a NaN is the quiet one. -/
theorem encodeFloat_half {h : UInt16} (hquiet : (Double.ofHalf h).isNaN = true →
    Major.special.spell .two h.toNat = [0xF9, 0x7E, 0x00]) :
    Head.encodeFloat (Double.ofHalf h) = Major.special.spell .two h.toNat := by
  rw [Head.encodeFloat]
  by_cases hnan : (Double.ofHalf h).isNaN = true
  · rw [if_pos hnan, hquiet hnan]
    decide
  · rw [if_neg hnan, Double.toHalf?_ofHalf (by simpa using hnan)]
    exact encodeHalf_eq_spell h

/-- What single but not half precision expands to is written in single precision. -/
theorem encodeFloat_single {s : UInt32} (hs : ∀ h, ¬(Double.ofHalf h).Alike (Double.ofSingle s)) :
    Head.encodeFloat (Double.ofSingle s) = Major.special.spell .four s.toNat := by
  have hwide := toHalf?_isNone_iff.mpr hs
  rw [Bool.and_eq_true, Bool.not_eq_true', Option.isNone_iff_eq_none] at hwide
  rw [Head.encodeFloat, if_neg (by rw [hwide.1]; decide), hwide.2,
    Double.toSingle?_ofSingle hwide.1]
  exact encodeSingle_eq_spell s

/-- A double that nothing narrower expands to is written as it is. -/
theorem encodeFloat_double {d : Double} (hhalf : ∀ h, ¬(Double.ofHalf h).Alike d)
    (hsingle : ∀ s, ¬(Double.ofSingle s).Alike d) :
    Head.encodeFloat d = Major.special.spell .eight d.bits.toNat := by
  have hwide := toHalf?_isNone_iff.mpr hhalf
  have hwidest := toSingle?_isNone_iff.mpr ⟨hhalf, hsingle⟩
  rw [Bool.and_eq_true, Bool.not_eq_true', Option.isNone_iff_eq_none] at hwide hwidest
  rw [Head.encodeFloat, if_neg (by rw [hwide.1]; decide), hwide.2, hwidest.2]
  exact encodeDouble_eq_spell d.bits

/-- The width of a float that strict mode accepts is the one that the encoder takes. -/
theorem encodeFloat_of_admits {d : Double} (hn : w.Holds n) (ha : Mode.strict.Admits .special w n)
    (hd : w.expand? n = some d) (hquiet : QuietNaNs (Major.special.spell w n)) :
    Head.encodeFloat d = Major.special.spell w n := by
  have hshort := ha.2 rfl
  cases w with
  | inline | one => cases hd
  | two =>
    cases hd
    have hval : (UInt16.ofNat n).toNat = n := UInt16.toNat_ofNat_of_lt' hn
    rw [← hval] at hquiet ⊢
    rw [UInt16.ofNat_toNat]
    exact encodeFloat_half fun hnan => hquiet _ .refl _ rfl hnan
  | four =>
    cases hd
    have hval : (UInt32.ofNat n).toNat = n := UInt32.toNat_ofNat_of_lt' hn
    have hsingle := encodeFloat_single (shortestFloat_four.mp hshort)
    rwa [hval] at hsingle
  | eight =>
    cases hd
    have hval : (UInt64.ofNat n).toNat = n := UInt64.toNat_ofNat_of_lt' hn
    obtain ⟨hhalf, hsingle⟩ := shortestFloat_eight.mp hshort
    have hdouble := encodeFloat_double hhalf hsingle
    rwa [hval] at hdouble

end Narrow

section Spelled

variable {v : Value} {bs : Bytes}

/-- The bytes of pairs are those of their keys and values one after another. -/
theorem flatten_pairs (pairs : List ((Value × Value) × (Bytes × Bytes))) :
    (pairs.flatMap fun p => [p.2.1, p.2.2]).flatten = pairs.flatMap fun p => p.2.1 ++ p.2.2 := by
  rw [← List.flatMap_id, List.flatMap_assoc]
  simp

theorem length_pairs (pairs : List ((Value × Value) × (Bytes × Bytes))) :
    (pairs.flatMap fun p => [p.2.1, p.2.2]).length = 2 * pairs.length := by
  simp [List.map_const', Nat.mul_comm]

theorem forall_mem_pairs {P : Bytes → Prop} {pairs : List ((Value × Value) × (Bytes × Bytes))} :
    (∀ i ∈ pairs.flatMap fun p => [p.2.1, p.2.2], P i) ↔ ∀ p ∈ pairs, P p.2.1 ∧ P p.2.2 := by
  rw [List.forall_mem_flatMap]
  exact forall₂_congr fun p _ => by simp

/-- What strict mode reads as a value is an item. -/
theorem Spells.anyItem (h : Spells .strict v bs) : AnyItem bs := by
  have hlimit {w : ArgumentWidth} {n : Nat} (hn : w.Holds n) : n ≤ 0xFFFFFFFFFFFFFFFF :=
    Nat.le_of_lt_succ (ArgumentWidth.lt_of_holds hn)
  induction h with
  | unsigned w n hn => exact .bare _ w n (by simp) hn trivial
  | negative w n hn => exact .bare _ w n (by simp) hn trivial
  | bytes w b hn => exact .string _ w b (by simp) hn trivial (hlimit hn)
  | text w s hn => exact .string _ w _ (by simp) hn trivial (hlimit hn)
  | openBytes chunks hl | openText s chunks hl | openArray items hl | openMap pairs hl => cases hl
  | array w items hi hn ha ih =>
    have hlen : w.Holds (items.map (·.2)).length := by rwa [List.length_map]
    have harray : AnyItem _ := .array w (items.map (·.2)) (List.forall_mem_map.mpr ih) hlen trivial
      (by exact_mod_cast hlimit hlen)
    rwa [List.length_map, ← List.flatMap_def] at harray
  | map w pairs hk hv hn ha ihk ihv =>
    have hmap : AnyItem _ := .map w pairs.length (pairs.flatMap fun p => [p.2.1, p.2.2])
      (forall_mem_pairs.mpr fun p hp => ⟨ihk p hp, ihv p hp⟩) (length_pairs pairs) hn trivial
      (by exact_mod_cast hlimit hn)
    rwa [flatten_pairs] at hmap
  | tag w n item bs hi hn ha ih => exact .tag w n bs ih hn trivial
  | simple w n hw hn => exact .bare _ w _ (by simp) hn trivial
  | float w n d hn => exact .bare _ w n (by simp) hn trivial

/-- The items that follow a definite head are free of noisy NaNs if the whole is. -/
theorem QuietNaNs.of_counted {h : Head} {lead : Bytes} {items : List Bytes} (hs : h.Spelled lead)
    (hd : h.indefinite = false) (hc : items.length = h.count) (hi : ∀ i ∈ items, AnyItem i)
    (hq : QuietNaNs (lead ++ items.flatten)) : ∀ i ∈ items, QuietNaNs i :=
  fun _ hmem => hq.of_encloses ⟨h, items, .counted hs hd hc hi, hmem⟩

/-- A simple value is written with the head that strict mode admits for it. -/
theorem wire_ofSimple {w : ArgumentWidth} {n : UInt8} (hw : w.bytes ≤ 1) (hn : w.Holds n.toNat)
    (ha : Mode.strict.Admits .special w n.toNat) :
    (Value.ofSimple n).Avoids 24 ∧ (Value.ofSimple n).wire = Major.special.spell w n.toNat := by
  have hwide := ha.1
  rw [Narrowest, if_pos rfl] at hwide
  have hplace : (w = .inline ∧ n < 24) ∨ (w = .one ∧ 32 ≤ n) := by
    cases w with
    | inline => exact Or.inl ⟨rfl, hn⟩
    | one => exact Or.inr ⟨rfl, hwide rfl⟩
    | two | four | eight => exact absurd hw (by decide)
  by_cases hplain : n < 20 ∨ 32 ≤ n
  · rw [ofSimple_of_avoids hplain, Value.avoids_simple, Value.wire]
    rcases hplace with ⟨rfl, hlow⟩ | ⟨rfl, hhigh⟩
    · exact ⟨Or.inl hlow, by rw [if_pos hlow]⟩
    · exact ⟨Or.inr hhigh, by rw [if_neg (UInt8.not_lt.mpr (UInt8.le_trans (by decide) hhigh))]⟩
  · rw [not_or, UInt8.not_lt] at hplain
    obtain ⟨rfl, hlow⟩ := hplace.resolve_right fun h => hplain.2 h.2
    rcases eq_constant hplain.1 hlow with rfl | rfl | rfl | rfl
    · exact ⟨Value.avoids_leaf (v := .false) rfl (by simp), rfl⟩
    · exact ⟨Value.avoids_leaf (v := .true) rfl (by simp), rfl⟩
    · exact ⟨Value.avoids_leaf (v := .null) rfl (by simp), rfl⟩
    · exact ⟨Value.avoids_leaf (v := .undefined) rfl (by simp), rfl⟩

/-- In strict mode a value has one spelling, NaNs apart, and that is its encoding. -/
theorem Spells.eq_wire (h : Spells .strict v bs) (hq : QuietNaNs bs) :
    v.Avoids 24 ∧ v.wire = bs := by
  induction h with
  | unsigned w n hn ha =>
    exact ⟨Value.avoids_leaf rfl (by simp), encode_of_admits (by decide) hn ha⟩
  | negative w n hn ha =>
    exact ⟨Value.avoids_leaf rfl (by simp), encode_of_admits (by decide) hn ha⟩
  | bytes w b hn ha =>
    refine ⟨Value.avoids_leaf rfl (by simp), ?_⟩
    rw [Value.wire, encode_of_admits (by decide) hn ha]
  | text w s hn ha =>
    refine ⟨Value.avoids_leaf rfl (by simp), ?_⟩
    rw [Value.wire, encode_of_admits (by decide) hn ha]
  | openBytes chunks hl | openText s chunks hl | openArray items hl | openMap pairs hl => cases hl
  | array w items hi hn ha ih =>
    have hval := ArgumentWidth.toNat_of_holds hn
    rw [List.flatMap_def] at hq
    have hquiet := hq.of_counted (.definite .array w _ hn) rfl
      ((List.length_map _).trans hval.symm)
      (List.forall_mem_map.mpr fun i hmem => (hi i hmem).anyItem)
    rw [List.forall_mem_map] at hquiet
    have hitems (i) (hmem : i ∈ items) := ih i hmem (hquiet i hmem)
    rw [Value.avoids_array, List.forall_mem_map, Value.wire, Value.wireItems_eq, List.length_map,
      encode_of_admits (by decide) hn ha, List.flatMap_map]
    exact ⟨fun i hmem => (hitems i hmem).1,
      congrArg _ (List.flatMap_congr fun i hmem => (hitems i hmem).2)⟩
  | map w pairs hk hv hn ha ihk ihv =>
    have hval := ArgumentWidth.toNat_of_holds hn
    rw [← flatten_pairs] at hq
    have hquiet := hq.of_counted (.definite .map w _ hn) rfl
      (by rw [length_pairs, Head.count, Head.definite, hval])
      (forall_mem_pairs.mpr fun p hmem => ⟨(hk p hmem).anyItem, (hv p hmem).anyItem⟩)
    rw [forall_mem_pairs] at hquiet
    have hkeys (p) (hmem : p ∈ pairs) := ihk p hmem (hquiet p hmem).1
    have hvalues (p) (hmem : p ∈ pairs) := ihv p hmem (hquiet p hmem).2
    rw [Value.avoids_map, List.forall_mem_map, Value.wire, Value.wirePairs_eq, List.length_map,
      encode_of_admits (by decide) hn ha, List.flatMap_map]
    refine ⟨fun p hmem => ⟨(hkeys p hmem).1, (hvalues p hmem).1⟩,
      congrArg _ (List.flatMap_congr fun p hmem => ?_)⟩
    rw [(hkeys p hmem).2, (hvalues p hmem).2]
  | tag w n item bs hi hn ha ih =>
    have hone : ∀ i ∈ [bs], AnyItem i := by simpa using hi.anyItem
    rw [← List.flatten_singleton (l := bs)] at hq
    have hquiet :=
      hq.of_counted (.definite .tag w n hn) rfl rfl hone bs (List.mem_singleton_self bs)
    obtain ⟨havoids, hwire⟩ := ih hquiet
    rw [Value.avoids_tag, Value.wire, hwire, encode_of_admits (by decide) hn ha]
    exact ⟨havoids, rfl⟩
  | simple w n hw hn ha => exact wire_ofSimple hw hn ha
  | float w n d hn ha hd =>
    exact ⟨Value.avoids_leaf rfl (by simp), encodeFloat_of_admits hn ha hd hq⟩

end Spelled

section Memory

/-- The action writes the bytes, or fails for want of memory. -/
def Tries (x : EStateM Error GrowingOutput Unit) (bs : Bytes) : Prop :=
  ∀ o, (∃ o', x o = .ok () o' ∧ o'.toBytes = o.toBytes ++ bs) ∨
    ∃ o', x o = .error .notEnoughMemory o'

theorem Tries.putHead (bs : Bytes) : Tries (Output.putHead bs) bs := by
  intro o
  rcases GrowingOutput.ensure_cases bs.length o with ⟨o', ho', hbytes⟩ | ho
  · refine Or.inl ⟨GrowingOutput.commit bs o',
      bind_eq_ok.2 ⟨(), o', adaptExcept_eq_ok.2 ho', rfl⟩, ?_⟩
    rw [← hbytes]
    exact Array.toList_appendList ..
  · have hensure : Room.ensure bs.length o = .error .notEnoughMemory o := ho
    refine Or.inr ⟨o, ?_⟩
    simp only [Output.putHead, bind_apply, EStateM.adaptExcept, hensure]
    rfl

theorem Tries.nothing : Tries (pure ()) [] :=
  fun o => Or.inl ⟨o, rfl, (List.append_nil _).symm⟩

theorem Tries.seq {x y : EStateM Error GrowingOutput Unit} {bs cs : Bytes} (hx : Tries x bs)
    (hy : Tries y cs) : Tries (x >>= fun _ => y) (bs ++ cs) := by
  intro o
  rcases hx o with ⟨o', ho', hbytes⟩ | ⟨o', ho'⟩
  · rcases hy o' with ⟨o'', ho'', hmore⟩ | ⟨o'', ho''⟩
    · refine Or.inl ⟨o'', bind_eq_ok.2 ⟨(), o', ho', ho''⟩, ?_⟩
      rw [hmore, hbytes, List.append_assoc]
    · exact Or.inr ⟨o'', by rw [bind_apply, ho']; exact ho''⟩
  · exact Or.inr ⟨o', by rw [bind_apply, ho']⟩

theorem tries_putAll (pieces : List Bytes) :
    Tries (putAll Output.putHead pieces) pieces.flatten := by
  induction pieces with
  | nil => exact .nothing
  | cons bs pieces ih => exact (Tries.putHead bs).seq ih

namespace Value

/-- Whatever the memory, a value is written or memory is what lacks, unless a simple value in it
is reserved. -/
theorem tries_emit {v : Value} (hv : v.Avoids 24) : Tries v.emit v.wire := by
  obtain ⟨pieces, hemit, hpieces⟩ := (v.emits put_growing).1 hv
  rw [hemit, bind_pure_unit, ← hpieces]
  exact tries_putAll pieces

/-- A value is encoded, unless twice its encoding is more than memory holds. -/
theorem encode_or_exhausted {v : Value} (hv : v.Avoids 24) : v.encode = .ok v.wire ∨
    (v.encode = .error .notEnoughMemory ∧ allocationLimit ≤ 2 * v.wire.length + pieceRoom) := by
  by_cases hroom : 2 * v.wire.length + pieceRoom < allocationLimit
  · exact Or.inl (encode_ok hroom hv)
  · rw [encode]
    rcases tries_emit hv (GrowingOutput.ofCapacity 0) with ⟨o, ho, hbytes⟩ | ⟨o, ho⟩
    · rw [ho]
      exact Or.inl (congrArg Except.ok hbytes)
    · rw [ho]
      exact Or.inr ⟨rfl, Nat.le_of_not_lt hroom⟩

end Value

end Memory

section Decoded

variable {options : Options} {data : Bytes} {v : Value} {n : Nat}

/-- What strict mode reads is written as the bytes it was read from. -/
theorem wire_of_decode (hmode : options.mode = .strict)
    (h : decodeBytes (Value.decode options) data = .ok (v, n)) (hq : QuietNaNs (data.take n)) :
    v.Avoids 24 ∧ v.wire = data.take n ∧ n ≤ data.length := by
  obtain ⟨t, ht, rfl⟩ := decodeBytes_eq_ok_iff.mp h
  obtain ⟨bs, hadv, hspells, -⟩ := reads_decodeWithin options _ _ v t ht
  obtain ⟨hle, rfl⟩ := MemoryInput.take_of_advances hadv
  rw [hmode] at hspells
  obtain ⟨havoids, hwire⟩ := hspells.eq_wire hq
  exact ⟨havoids, hwire, hle⟩

/-- Where no NaN in half precision is other than the quiet one, the encoding of a value decoded in
strict mode is the bytes that it was decoded of, short of exhausting memory; and no other such
bytes are decoded to it, under whatever limits. -/
theorem encode_decode (hmode : options.mode = .strict)
    (h : decodeBytes (Value.decode options) data = .ok (v, n)) (hq : QuietNaNs (data.take n)) :
    (v.encode = .ok (data.take n) ∨
        (v.encode = .error .notEnoughMemory ∧ allocationLimit ≤ 2 * n + pieceRoom)) ∧
      ∀ (options' : Options) (data' : Bytes) (n' : Nat), options'.mode = .strict →
        decodeBytes (Value.decode options') data' = .ok (v, n') → QuietNaNs (data'.take n') →
        data'.take n' = data.take n := by
  obtain ⟨havoids, hwire, hle⟩ := wire_of_decode hmode h hq
  refine ⟨?_, ?_⟩
  · have hencode := Value.encode_or_exhausted havoids
    rwa [hwire, List.length_take_of_le hle] at hencode
  · intro options' data' n' hmode' h' hq'
    obtain ⟨-, hwire', -⟩ := wire_of_decode hmode' h' hq'
    exact hwire'.symm.trans hwire

/-- An item that nothing follows is quiet, if it is no NaN in half precision or the quiet one. -/
theorem QuietNaNs.of_bare {m : Major} {w : ArgumentWidth} {k : Nat} (hn : w.Holds k)
    (hm : m = .unsigned ∨ m = .negative ∨ m = .special)
    (hq : m = .special → w = .two → k = 0x7E00) : QuietNaNs (m.spell w k) := by
  intro part hinside h hpart _
  rcases hinside.cases_head with rfl | ⟨i, ⟨head, items, he, hmem⟩, -⟩
  · have happend : m.spell w k ++ [] = Major.special.spell .two h.toNat ++ [] := by rw [hpart]
    obtain ⟨hhead, -⟩ := Head.Spelled.eq_of_append_eq (.definite m w k hn)
      (.definite .special .two h.toNat h.toNat_lt) happend
    simp only [Head.definite, Head.mk.injEq, true_and] at hhead
    obtain ⟨rfl, hwidth, -⟩ := hhead
    rw [hq rfl (ArgumentWidth.eq_of_bytes (Nat.add_left_cancel hwidth)),
      ArgumentWidth.eq_of_bytes (Nat.add_left_cancel hwidth)]
    decide
  · have hnone : (Head.definite m (UInt64.ofNat k) (1 + w.bytes)).count = 0 ∧
        ¬(m = .array ∨ m = .map) := by
      rcases hm with rfl | rfl | rfl <;> exact ⟨rfl, by decide⟩
    rw [← List.append_nil (m.spell w k)] at he
    obtain ⟨-, rfl⟩ := he.eq_nil (.definite m w k hn) hnone.1 fun _ => hnone.2
    cases hmem

/-- Behind a head that is no float the NaNs are those of the elements. -/
theorem QuietNaNs.of_elements {h : Head} {items : List Bytes} {bs : Bytes}
    (he : Elements h items bs) (hm : h.major ≠ .special) (hi : ∀ i ∈ items, QuietNaNs i) :
    QuietNaNs bs := by
  intro part hinside k hk hnan
  rcases hinside.cases_head with rfl | ⟨i, ⟨h', items', he', hmem⟩, hbelow⟩
  · rw [hk, ← List.append_nil (Major.special.spell .two k.toNat)] at he
    obtain ⟨rfl, -⟩ := he.behind (.definite .special .two k.toNat k.toNat_lt)
    exact absurd rfl hm
  · obtain ⟨rfl, rfl⟩ := he.unique he'
    exact hi i hmem part hbelow k hk hnan

theorem encode_decode_array :
    (Value.array [.float (Double.ofHalf 0x7E00), .unsigned 24]).encode =
        .ok [0x82, 0xF9, 0x7E, 0x00, 0x18, 0x18] := by
  let v := Value.array [.float (Double.ofHalf 0x7E00), .unsigned 24]
  have hquiet : v.quiet = v := by rfl
  have hspells : Spells .strict v [0x82, 0xF9, 0x7E, 0x00, 0x18, 0x18] := by
    have hwire := Value.spells_wire (v := v)
      (by simp [v, Value.Avoids, Value.parts, Value.partsItems]) (by decide)
    rw [hquiet] at hwire
    exact hwire
  have hdecode : decodeBytes (Value.decode { mode := .strict })
      [0x82, 0xF9, 0x7E, 0x00, 0x18, 0x18, 0x00] = .ok (v, 6) :=
    (decode_eq_ok_iff { mode := .strict } _ _ _ (by decide)).2
      ⟨by decide, hspells, by decide, by simp [v, Value.parts, Value.partsItems, Value.Within]⟩
  have hnan : QuietNaNs [0xF9, 0x7E, 0x00] :=
    .of_bare (m := .special) (w := .two) (k := 0x7E00) (by decide) (by decide) fun _ _ => rfl
  have hint : QuietNaNs [0x18, 0x18] :=
    .of_bare (m := .unsigned) (w := .one) (k := 24) (by decide) (by decide) fun h => by cases h
  have hq : QuietNaNs [0x82, 0xF9, 0x7E, 0x00, 0x18, 0x18] := by
    have hitems : ∀ i ∈ [[0xF9, 0x7E, 0x00], [0x18, 0x18]], AnyItem i ∧ QuietNaNs i := by
      rw [List.forall_mem_cons, List.forall_mem_singleton]
      exact ⟨⟨.bare .special .two 0x7E00 (by decide) (by decide) trivial, hnan⟩,
        .bare .unsigned .one 24 (by decide) (by decide) trivial, hint⟩
    have harray := Elements.counted (.definite .array .inline 2 (by decide)) rfl rfl
      fun i hi => (hitems i hi).1
    exact .of_elements harray (by decide) fun i hi => (hitems i hi).2
  obtain ⟨hencode | ⟨-, hmemory⟩, -⟩ := encode_decode rfl hdecode hq
  · exact hencode
  · exact absurd hmemory (by decide)

end Decoded

end CborCodec
