import CborCodec.Proofs.Decoding
import CborCodec.Proofs.Writing
/-!
Decoding undoes encoding. The encoding of a value spells it in the strictest mode, up to the
patterns of its NaNs, so the strict decoder reads the value back in front of anything.
-/

namespace CborCodec

section Strict

theorem admits_shortest {m : Major} (hm : m ≠ .special) {n : Nat} :
    Mode.strict.Admits m (.shortest n) n := by
  refine ⟨?_, fun h => absurd h hm⟩
  rw [Narrowest, if_neg hm]
  exact fun u hu => ArgumentWidth.bytes_shortest_le hu

/-- The encoding of a float is the shortest pattern of it, and of a NaN that of the quiet one. -/
theorem encodeFloat_eq_spell (d : Double) :
    ∃ w n, Head.encodeFloat d = Major.special.spell w n ∧ w.Holds n ∧
      Mode.strict.Admits .special w n ∧
      w.expand? n = some (if d.isNaN then Double.ofHalf 0x7E00 else d) := by
  -- Only a simple value can be in too wide a place; the width of a float is part of it.
  have hwide {w : ArgumentWidth} (hw : w ≠ .one) (n : Nat) : Narrowest .special w n := by
    rw [Narrowest, if_pos rfl]
    exact fun h => absurd h hw
  unfold Head.encodeFloat
  by_cases hnan : d.isNaN = true
  · rw [if_pos hnan, if_pos hnan]
    exact ⟨.two, 0x7E00, encodeHalf_eq_spell 0x7E00, by decide,
      ⟨hwide (by decide) _, fun _ => shortestFloat_of_le (by decide)⟩, rfl⟩
  have hfalse : d.isNaN = false := by simpa using hnan
  rw [if_neg hnan, if_neg hnan]
  cases hhalf : d.toHalf? with
  | some h =>
    have heq := (Double.toHalf?_eq_some_iff.mp hhalf).2
    refine ⟨.two, h.toNat, encodeHalf_eq_spell h, h.toNat_lt,
      ⟨hwide (by decide) _, fun _ => shortestFloat_of_le (by decide)⟩, ?_⟩
    rw [expand?_two, heq]
  | none =>
    have hnone : ∀ h, ¬(Double.ofHalf h).Alike d :=
      toHalf?_isNone_iff.mp (by simp [hfalse, hhalf])
    cases hsingle : d.toSingle? with
    | some s =>
      have heq := (Double.toSingle?_eq_some_iff.mp hsingle).2
      refine ⟨.four, s.toNat, encodeSingle_eq_spell s, s.toNat_lt,
        ⟨hwide (by decide) _, fun _ => ?_⟩, ?_⟩
      · rw [shortestFloat_four, UInt32.ofNat_toNat, heq]
        exact hnone
      · rw [expand?_four, heq]
    | none =>
      have hnone' := toSingle?_isNone_iff.mp (by simp [hfalse, hsingle] :
        (!d.isNaN && d.toSingle?.isNone) = true)
      have hbits : (⟨UInt64.ofNat d.bits.toNat⟩ : Double) = d := by rw [UInt64.ofNat_toNat]
      refine ⟨.eight, d.bits.toNat, encodeDouble_eq_spell d.bits, d.bits.toNat_lt,
        ⟨hwide (by decide) _, fun _ => ?_⟩, ?_⟩
      · rw [shortestFloat_eight, hbits]
        exact hnone'
      · rw [ArgumentWidth.expand?, hbits]

theorem encode_ofNat (m : Major) {n : Nat} (h : n < 2 ^ 64) :
    Head.encode m (UInt64.ofNat n) = m.spell (.shortest n) n := by
  rw [encode_eq_spell, UInt64.toNat_ofNat_of_lt' h]

/-- A simple value without a meaning of its own stands for itself. -/
theorem ofSimple_of_avoids {n : UInt8} (h : n < 20 ∨ 32 ≤ n) : Value.ofSimple n = .simple n := by
  have hne {k : UInt8} (hk : 20 ≤ k) (hk' : k < 32) : n ≠ k := by
    rintro rfl
    rcases h with h | h
    · exact UInt8.not_lt.mpr hk h
    · exact UInt8.not_le.mpr hk' h
  rw [Value.ofSimple, if_neg (hne (by decide) (by decide)), if_neg (hne (by decide) (by decide)),
    if_neg (hne (by decide) (by decide)), if_neg (hne (by decide) (by decide))]

/-- From 20 on the simple values of the initial byte are the four constants. -/
theorem eq_constant {n : UInt8} (hge : 20 ≤ n) (hlt : n < 24) :
    n = simpleFalse ∨ n = simpleTrue ∨ n = simpleNull ∨ n = simpleUndefined := by
  replace hge : 20 ≤ n.toNat := hge
  replace hlt : n.toNat < 24 := hlt
  simp only [← UInt8.toNat_inj, simpleFalse, simpleTrue, simpleNull, simpleUndefined,
    UInt8.reduceToNat]
  omega

/-- A simple value is in strict mode in the initial byte, or if too great for it in its own. -/
theorem admits_simple {n : UInt8} (h : n < 24 ∨ 32 ≤ n) :
    (if n < 24 then ArgumentWidth.inline else .one).Holds n.toNat ∧
      Mode.strict.Admits .special (if n < 24 then .inline else .one) n.toNat := by
  by_cases hlow : n < 24
  · rw [if_pos hlow]
    exact ⟨hlow, by rw [Narrowest, if_pos rfl]; simp,
      fun _ => shortestFloat_of_le (by decide)⟩
  · rw [if_neg hlow]
    exact ⟨n.toNat_lt, by rw [Narrowest, if_pos rfl]; exact fun _ => h.resolve_left hlow,
      fun _ => shortestFloat_of_le (by decide)⟩

theorem spells_ofSimple {n : UInt8} (h : n < 24 ∨ 32 ≤ n) :
    Spells .strict (Value.ofSimple n)
      (Major.special.spell (if n < 24 then .inline else .one) n.toNat) := by
  obtain ⟨hholds, hadmits⟩ := admits_simple h
  refine .simple _ n ?_ hholds hadmits
  split_ifs <;> decide

end Strict

namespace Value

/-- The encoding spells the value, with the quiet NaN for any other. -/
theorem spells_wire {v : Value} (hv : v.Avoids 20) (hb : v.wire.length < 2 ^ 64) :
    Spells .strict v.quiet v.wire := by
  induction v with
  | unsigned n =>
    have h := Spells.unsigned (.shortest n.toNat) n.toNat
      (ArgumentWidth.holds_shortest n.toNat_lt) (admits_shortest (by decide))
    rw [UInt64.ofNat_toNat] at h
    rw [wire, encode_eq_spell]
    exact h
  | negative n =>
    have h := Spells.negative (.shortest n.toNat) n.toNat
      (ArgumentWidth.holds_shortest n.toNat_lt) (admits_shortest (by decide))
    rw [UInt64.ofNat_toNat] at h
    rw [wire, encode_eq_spell]
    exact h
  | bytes b =>
    rw [wire, List.length_append] at hb
    have hlen : b.length < 2 ^ 64 := by omega
    rw [wire, encode_ofNat _ hlen]
    exact .bytes _ b (ArgumentWidth.holds_shortest hlen) (admits_shortest (by decide))
  | text s =>
    rw [wire, List.length_append] at hb
    have hlen : (Bytes.ofText s).length < 2 ^ 64 := by omega
    rw [wire, encode_ofNat _ hlen]
    exact .text _ s (ArgumentWidth.holds_shortest hlen) (admits_shortest (by decide))
  | array items ih =>
    rw [avoids_array] at hv
    rw [wire, wireItems_eq, List.length_append] at hb
    have hspells : ∀ i ∈ items, Spells .strict i.quiet i.wire := by
      intro i hi
      have hle := length_le_of_mem_flatMap (f := wire) hi
      exact ih i hi (hv i hi) (by omega)
    have hlen : items.length < 2 ^ 64 := by
      have hcount := length_mul_le_flatMap fun i hi => (hspells i hi).noBreak.length_pos
      omega
    have hitems : ∀ i ∈ items.map fun i => (i.quiet, i.wire), Spells .strict i.1 i.2 :=
      List.forall_mem_map.mpr hspells
    have h := Spells.array (.shortest items.length) _ hitems
    rw [List.length_map, List.map_map, List.flatMap_map] at h
    rw [quiet, quietItems_eq, wire, wireItems_eq, encode_ofNat _ hlen]
    exact h (ArgumentWidth.holds_shortest hlen) (admits_shortest (by decide))
  | map pairs ih =>
    rw [avoids_map] at hv
    rw [wire, wirePairs_eq, List.length_append] at hb
    have hle : ∀ p ∈ pairs, p.1.wire.length + p.2.wire.length < 2 ^ 64 := by
      intro p hp
      have hpart := length_le_of_mem_flatMap (f := fun q => wire q.1 ++ wire q.2) hp
      rw [List.length_append] at hpart
      omega
    have hkeys : ∀ p ∈ pairs, Spells .strict p.1.quiet p.1.wire := by
      intro p hp
      have hkey := hle p hp
      exact (ih p hp).1 (hv p hp).1 (by omega)
    have hvalues : ∀ p ∈ pairs, Spells .strict p.2.quiet p.2.wire := by
      intro p hp
      have hvalue := hle p hp
      exact (ih p hp).2 (hv p hp).2 (by omega)
    have hlen : pairs.length < 2 ^ 64 := by
      have hcount := length_mul_le_flatMap (f := fun q => wire q.1 ++ wire q.2)
        fun p hp => ((hkeys p hp).noBreak.append _).length_pos
      omega
    let spelled : Value × Value → (Value × Value) × (Bytes × Bytes) := fun p =>
      ((p.1.quiet, p.2.quiet), (p.1.wire, p.2.wire))
    have hkeys' : ∀ p ∈ pairs.map spelled, Spells .strict p.1.1 p.2.1 :=
      List.forall_mem_map.mpr hkeys
    have hvalues' : ∀ p ∈ pairs.map spelled, Spells .strict p.1.2 p.2.2 :=
      List.forall_mem_map.mpr hvalues
    have h := Spells.map (.shortest pairs.length) _ hkeys' hvalues'
    rw [List.length_map, List.map_map, List.flatMap_map] at h
    rw [quiet, quietPairs_eq, wire, wirePairs_eq, encode_ofNat _ hlen]
    exact h (ArgumentWidth.holds_shortest hlen) (admits_shortest (by decide))
  | tag n item ih =>
    rw [avoids_tag] at hv
    rw [wire, List.length_append] at hb
    have hitem : Spells .strict item.quiet item.wire := ih hv (by omega)
    have h := Spells.tag (.shortest n.toNat) n.toNat item.quiet item.wire hitem
      (ArgumentWidth.holds_shortest n.toNat_lt) (admits_shortest (by decide))
    rw [UInt64.ofNat_toNat] at h
    rw [quiet, wire, encode_eq_spell]
    exact h
  | false => exact spells_ofSimple (n := simpleFalse) (by decide)
  | true => exact spells_ofSimple (n := simpleTrue) (by decide)
  | null => exact spells_ofSimple (n := simpleNull) (by decide)
  | undefined => exact spells_ofSimple (n := simpleUndefined) (by decide)
  | simple n =>
    -- A value from 20 to 23 would be read back as the constant that it denotes.
    rw [avoids_simple] at hv
    have h := spells_ofSimple (hv.imp_left fun hlow => UInt8.lt_trans hlow (by decide))
    rw [ofSimple_of_avoids hv] at h
    exact h
  | float d =>
    obtain ⟨w, n, hspell, hholds, hadmits, hexpand⟩ := encodeFloat_eq_spell d
    rw [quiet, wire, hspell]
    exact .float w n _ hholds hadmits hexpand

theorem quiet_quiet (v : Value) : v.quiet.quiet = v.quiet := by
  induction v with
  | array items ih =>
    rw [quiet, quietItems_eq, quiet, quietItems_eq, List.map_map]
    exact congrArg array (List.map_congr_left ih)
  | map pairs ih =>
    rw [quiet, quietPairs_eq, quiet, quietPairs_eq, List.map_map]
    refine congrArg map (List.map_congr_left fun p hp => ?_)
    exact Prod.ext (ih p hp).1 (ih p hp).2
  | tag n item ih => rw [quiet, quiet, ih]
  | float d =>
    rw [quiet, quiet]
    by_cases hnan : d.isNaN = Bool.true
    · rw [if_pos hnan, if_pos isNaN_ofHalf_quiet]
    · rw [if_neg hnan, if_neg hnan]
  | _ => rfl

/-- Short of exhausting memory, encoding fails for a reserved simple value only. What is encoded is
read back in strict mode, in front of any bytes and under any limits that the value keeps, unless
it has the simple value of a constant; what comes back differs in the patterns of NaNs at most. -/
theorem decode_encode (v : Value) (hsize : 2 * v.wire.length + pieceRoom < allocationLimit) :
    ((∃ bs, v.encode = .ok bs) ↔ v.Avoids 24) ∧
      (¬v.Avoids 24 → v.encode = .error .itemValueOutOfRange) ∧
      (v.Avoids 20 → ∃ bs, v.encode = .ok bs ∧ ∀ (rest : Bytes) (options : Options),
        options.mode = .strict → v.Fits options options.maxDepth.toNat →
        (bs ++ rest).length ≤ allocationLimit →
        ∃ w : Value, w.Alike v ∧
          decodeBytes (Value.decode options) (bs ++ rest) = .ok (w, bs.length)) := by
  refine ⟨?_, encode_error hsize, ?_⟩
  · constructor
    · rintro ⟨bs, hbs⟩
      by_contra hreserved
      rw [encode_error hsize hreserved] at hbs
      cases hbs
    · intro hv
      exact ⟨v.wire, encode_ok hsize hv⟩
  · intro hv
    have hwire : v.wire.length < 2 ^ 64 := by
      unfold allocationLimit at hsize
      omega
    refine ⟨v.wire, encode_ok hsize (hv.mono (by decide)), ?_⟩
    intro rest options hmode hfits hroom
    refine ⟨v.quiet, quiet_quiet v, ?_⟩
    rw [decode_eq_ok_iff options _ _ _ hroom, List.take_left, hmode, List.length_append]
    exact ⟨Nat.le_add_right _ _, spells_wire hv hwire, (fits_quiet v).mpr hfits⟩

theorem decode_encode_array :
    ∃ bs, (array [float (Double.ofHalf 0x7E01), simple 255]).encode = .ok bs ∧
      ∃ w : Value, w.Alike (array [float (Double.ofHalf 0x7E01), simple 255]) ∧
        decodeBytes (Value.decode { mode := .strict }) (bs ++ [0xFF]) = .ok (w, bs.length) := by
  have hsize : 2 * (array [float (Double.ofHalf 0x7E01), simple 255]).wire.length + pieceRoom <
      allocationLimit := by decide
  have hv : (array [float (Double.ofHalf 0x7E01), simple 255]).Avoids 20 := by
    simp [Avoids, parts, partsItems]
  have hfits : (array [float (Double.ofHalf 0x7E01), simple 255]).Fits { mode := .strict } 256 :=
    ⟨by decide, by simp [parts, partsItems, Within]⟩
  obtain ⟨bs, hbs, hread⟩ := (decode_encode _ hsize).2.2 hv
  have hwire : bs = (array [float (Double.ofHalf 0x7E01), simple 255]).wire := by
    rw [encode_ok hsize (hv.mono (by decide)), Except.ok.injEq] at hbs
    exact hbs.symm
  subst hwire
  exact ⟨_, hbs, hread [0xFF] { mode := .strict } rfl hfits (by decide)⟩

end Value

end CborCodec
