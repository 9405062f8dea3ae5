import CborCodec.Output.Memory
import CborCodec.Proofs.Denotation
import CborCodec.Proofs.Emission
/-!
What is written into a growing buffer. A buffer doubles at most, so while twice the bytes stay
clear of what can be allocated, writing never fails for want of memory. The encoding of a value is
one byte string, and writing the value either writes it or is refused.
-/

namespace CborCodec

section Buffer

/-- The buffer holds the bytes, and so many more could be written without exhausting memory. -/
def GrowingOutput.HasRoom (o : GrowingOutput) (more : Nat) : Prop :=
  2 * (o.toBytes.length + more) + pieceRoom < allocationLimit

theorem GrowingOutput.hasRoom_empty {n : Nat} (h : 2 * n + pieceRoom < allocationLimit) :
    (ofCapacity 0).HasRoom n := by
  have hempty : (ofCapacity 0).toBytes.length = 0 := rfl
  rwa [HasRoom, hempty, Nat.zero_add]

/-- Where there is room the action succeeds and writes the bytes. -/
def Writes (x : EStateM Error GrowingOutput Unit) (bs : Bytes) : Prop :=
  ∀ o : GrowingOutput, o.HasRoom bs.length → ∃ o', x o = .ok () o' ∧ o'.toBytes = o.toBytes ++ bs

/-- Where there is room for so many bytes, the action fails for a value out of range. -/
def Refuses (x : EStateM Error GrowingOutput Unit) (n : Nat) : Prop :=
  ∀ o : GrowingOutput, o.HasRoom n → ∃ o', x o = .error .itemValueOutOfRange o'

/-- Making room succeeds while there is memory, and keeps what is written. -/
theorem GrowingOutput.ensure_ok {o : GrowingOutput} {n : Nat} (h : o.HasRoom n) :
    ∃ o', ensure n o = .ok () o' ∧ o'.toBytes = o.toBytes := by
  unfold ensure
  by_cases hfree : n ≤ o.free
  · exact ⟨o, if_pos hfree, rfl⟩
  have hbytes : o.toBytes.length = o.written.size := Array.length_toList
  -- A buffer grows only if its whole size falls short of the bytes it is to hold.
  have hshort : o.capacity < o.toBytes.length + n := by
    rw [hbytes, capacity]
    omega
  have hgrown : o.capacity + o.growth (n - o.free) < allocationLimit := by
    have hlack : o.capacity + (n - o.free) = o.toBytes.length + n := by
      rw [hbytes, capacity]
      omega
    unfold HasRoom at h
    unfold growth
    omega
  rw [if_neg hfree]
  simp only [if_pos hgrown]
  exact ⟨_, rfl, rfl⟩

/-- Where a bulk write makes room for all of the bytes at once, a payload is written as a head. -/
theorem put_eq_putHead {τ : Type} [Output τ] {bs : Bytes}
    (h : (Output.bulkWrite bs : EStateM Fault τ Unit) = (do
      Room.ensure bs.length
      modify (Room.commit bs))) :
    (Output.put bs : EStateM Error τ Unit) = Output.putHead bs := by
  funext o
  simp only [Output.put, Output.putHead, h, bind_apply, EStateM.adaptExcept]
  cases (Room.ensure bs.length o : EStateM.Result Fault τ Unit) <;> rfl

/-- Making room leaves the bytes alone, and fails for want of memory only. -/
theorem GrowingOutput.ensure_cases (n : Nat) (o : GrowingOutput) :
    (∃ o', ensure n o = .ok () o' ∧ o'.toBytes = o.toBytes) ∨
      ensure n o = .error .notEnoughMemory o := by
  unfold ensure
  by_cases hfree : n ≤ o.free
  · exact Or.inl ⟨o, if_pos hfree, rfl⟩
  rw [if_neg hfree]
  by_cases hgrown : o.capacity + o.growth (n - o.free) < allocationLimit
  · simp only [if_pos hgrown]
    exact Or.inl ⟨_, rfl, rfl⟩
  · exact Or.inr (if_neg hgrown)

theorem Writes.putHead (bs : Bytes) : Writes (Output.putHead bs) bs := by
  intro o h
  obtain ⟨o', ho', hbytes⟩ := GrowingOutput.ensure_ok h
  refine ⟨GrowingOutput.commit bs o', bind_eq_ok.2 ⟨(), o', adaptExcept_eq_ok.2 ho', rfl⟩, ?_⟩
  rw [← hbytes]
  exact Array.toList_appendList ..

theorem Writes.nothing : Writes (pure ()) [] :=
  fun o _ => ⟨o, rfl, (List.append_nil _).symm⟩

theorem Writes.seq {x y : EStateM Error GrowingOutput Unit} {bs cs : Bytes} (hx : Writes x bs)
    (hy : Writes y cs) : Writes (x >>= fun _ => y) (bs ++ cs) := by
  intro o h
  rw [GrowingOutput.HasRoom, List.length_append] at h
  obtain ⟨o', ho', hbytes⟩ := hx o (by unfold GrowingOutput.HasRoom; omega)
  have hlength : o'.toBytes.length = o.toBytes.length + bs.length := by
    rw [hbytes, List.length_append]
  obtain ⟨o'', ho'', hbytes'⟩ := hy o' (by unfold GrowingOutput.HasRoom; omega)
  refine ⟨o'', bind_eq_ok.2 ⟨(), o', ho', ho''⟩, ?_⟩
  calc o''.toBytes = o'.toBytes ++ cs := hbytes'
    _ = o.toBytes ++ bs ++ cs := by rw [hbytes]
    _ = o.toBytes ++ (bs ++ cs) := List.append_assoc _ _ _

theorem Refuses.mono {x : EStateM Error GrowingOutput Unit} {m n : Nat} (h : Refuses x m)
    (hn : m ≤ n) : Refuses x n := by
  intro o ho
  exact h o (by unfold GrowingOutput.HasRoom at ho ⊢; omega)

/-- A refusal behind something that is written needs room for that too. -/
theorem Refuses.second {x y : EStateM Error GrowingOutput Unit} {bs : Bytes} {n : Nat}
    (hx : Writes x bs) (hy : Refuses y n) : Refuses (x >>= fun _ => y) (bs.length + n) := by
  intro o h
  unfold GrowingOutput.HasRoom at h
  obtain ⟨o', ho', hbytes⟩ := hx o (by unfold GrowingOutput.HasRoom; omega)
  have hlength : o'.toBytes.length = o.toBytes.length + bs.length := by
    rw [hbytes, List.length_append]
  obtain ⟨o'', ho''⟩ := hy o' (by unfold GrowingOutput.HasRoom; omega)
  exact ⟨o'', by rw [bind_apply, ho']; exact ho''⟩

theorem put_growing (bs : Bytes) :
    (Output.put bs : EStateM Error GrowingOutput Unit) = Output.putHead bs :=
  put_eq_putHead rfl

theorem writes_putAll (pieces : List Bytes) :
    Writes (putAll Output.putHead pieces) pieces.flatten := by
  induction pieces with
  | nil => exact .nothing
  | cons bs pieces ih => exact (Writes.putHead bs).seq ih

theorem Emits.writes {x : EStateM Error GrowingOutput Unit} {P : Prop} {bs : Bytes}
    (h : Emits Output.putHead x P bs ()) (hP : P) : Writes x bs := by
  obtain ⟨pieces, rfl, rfl⟩ := h.1 hP
  rw [bind_pure_unit]
  exact writes_putAll pieces

theorem Emits.refuses {x : EStateM Error GrowingOutput Unit} {P : Prop} {bs : Bytes}
    (h : Emits Output.putHead x P bs ()) (hP : ¬P) : Refuses x bs.length := by
  obtain ⟨pieces, rfl, hfront⟩ := h.2 hP
  have hthrow : Refuses (throw Error.itemValueOutOfRange) 0 := fun o _ => ⟨o, rfl⟩
  exact (Refuses.second (writes_putAll pieces) hthrow).mono hfront.length_le

end Buffer

section Heads

theorem initialBits_or (m : Major) {info : Nat} (h : info < 32) :
    m.initialBits ||| UInt8.ofNat info = m.initialByte info := by
  have hm := m.number_lt
  apply UInt8.toNat_inj.mp
  rw [UInt8.toNat_or, m.toNat_initialByte h, Major.initialBits, UInt8.toNat_ofNat',
    UInt8.toNat_ofNat', Nat.mod_eq_of_lt (by omega), Nat.mod_eq_of_lt (by omega), Nat.mul_comm]
  exact (Nat.two_pow_add_eq_or_of_lt (i := 5) h m.number).symm

/-- The shortest head has its argument in the narrowest width. -/
theorem encode_eq_spell (m : Major) (value : UInt64) :
    Head.encode m value = m.spell (.shortest value.toNat) value.toNat := by
  have hlength : minimalLength value = 1 + (ArgumentWidth.shortest value.toNat).bytes := by
    rw [← minimalLength_eq value.toNat_lt, UInt64.ofNat_toNat]
  have hholds := ArgumentWidth.holds_shortest value.toNat_lt
  have hinfo := ArgumentWidth.info_lt hholds
  have hbyte : value.toUInt8 = UInt8.ofNat value.toNat := by
    apply UInt8.toNat_inj.mp
    rw [UInt64.toNat_toUInt8, UInt8.toNat_ofNat']
  unfold Head.encode
  simp only [hlength, Major.spell, Nat.add_sub_cancel_left]
  rw [← initialBits_or m hinfo]
  cases ArgumentWidth.shortest value.toNat with
  | inline => exact congrArg (fun b => (m.initialBits ||| b) :: Bytes.ofWord 0 value.toNat) hbyte
  | one | two | four | eight => rfl

theorem encodeSimple_inline {n : UInt8} (h : n < 24) :
    Head.encodeSimple n = .ok (Major.special.spell .inline n.toNat) := by
  have hn : n.toNat < 24 := h
  rw [Head.encodeSimple, if_pos h, Major.spell, ArgumentWidth.info, ← initialBits_or _ (by omega),
    UInt8.ofNat_toNat]
  rfl

theorem encodeSimple_one {n : UInt8} (h : 32 ≤ n) :
    Head.encodeSimple n = .ok (Major.special.spell .one n.toNat) := by
  have hn : 32 ≤ n.toNat := h
  have hbyte : UInt8.ofNat (n.toNat % 256) = n := by
    rw [Nat.mod_eq_of_lt n.toNat_lt, UInt8.ofNat_toNat]
  have hlow : ¬n < 24 := fun hc => by
    have : n.toNat < 24 := hc
    omega
  have hmiddle : ¬n < 32 := fun hc => by
    have : n.toNat < 32 := hc
    omega
  rw [Head.encodeSimple, if_neg hlow, if_neg hmiddle, Major.spell, ArgumentWidth.info,
    ← initialBits_or _ (by omega)]
  simp only [ArgumentWidth.bytes, Bytes.ofWord, hbyte]
  rfl

theorem encodeSimple_reserved {n : UInt8} (h : 24 ≤ n) (h' : n < 32) :
    Head.encodeSimple n = .error .itemValueOutOfRange := by
  have hlow : ¬n < 24 := fun hc => by
    have hn : 24 ≤ n.toNat := h
    have hc' : n.toNat < 24 := hc
    omega
  rw [Head.encodeSimple, if_neg hlow, if_pos h']

theorem encodeHalf_eq_spell (h : UInt16) : Head.encodeHalf h = Major.special.spell .two h.toNat :=
  congrArg (· :: Bytes.ofWord 2 h.toNat) (@initialBits_or .special 25 (by decide))

theorem encodeSingle_eq_spell (s : UInt32) :
    Head.encodeSingle s = Major.special.spell .four s.toNat :=
  congrArg (· :: Bytes.ofWord 4 s.toNat) (@initialBits_or .special 26 (by decide))

theorem encodeDouble_eq_spell (bits : UInt64) :
    Head.encodeDouble bits = Major.special.spell .eight bits.toNat :=
  congrArg (· :: Bytes.ofWord 8 bits.toNat) (@initialBits_or .special 27 (by decide))

end Heads

namespace Value

mutual

/-- The encoding of a value. A reserved simple value, which is refused, is given a byte of its own
here as the greater ones are. -/
def wire : Value → Bytes
  | unsigned n => Head.encode .unsigned n
  | negative n => Head.encode .negative n
  | bytes b => Head.encode .bytes (UInt64.ofNat b.length) ++ b
  | text s => Head.encode .text (UInt64.ofNat (Bytes.ofText s).length) ++ Bytes.ofText s
  | array items => Head.encode .array (UInt64.ofNat items.length) ++ wireItems items
  | map pairs => Head.encode .map (UInt64.ofNat pairs.length) ++ wirePairs pairs
  | tag number item => Head.encode .tag number ++ wire item
  | false => Major.special.spell .inline simpleFalse.toNat
  | true => Major.special.spell .inline simpleTrue.toNat
  | null => Major.special.spell .inline simpleNull.toNat
  | undefined => Major.special.spell .inline simpleUndefined.toNat
  | simple n => Major.special.spell (if n < 24 then .inline else .one) n.toNat
  | float d => Head.encodeFloat d

def wireItems : List Value → Bytes
  | [] => []
  | item :: items => wire item ++ wireItems items

def wirePairs : List (Value × Value) → Bytes
  | [] => []
  | (key, value) :: pairs => wire key ++ (wire value ++ wirePairs pairs)

end

theorem wireItems_eq (items : List Value) : wireItems items = items.flatMap wire := by
  induction items with
  | nil => rfl
  | cons item items ih => rw [wireItems, ih, List.flatMap_cons]

theorem wirePairs_eq (pairs : List (Value × Value)) :
    wirePairs pairs = pairs.flatMap fun p => wire p.1 ++ wire p.2 := by
  induction pairs with
  | nil => rfl
  | cons pair pairs ih => rw [wirePairs, ih, List.flatMap_cons, List.append_assoc]

/-- Any simple value in the value is below `low` or above the reserved ones. -/
def Avoids (low : UInt8) (v : Value) : Prop := ∀ n, .simple n ∈ v.parts → n < low ∨ 32 ≤ n

section Avoids

variable {low : UInt8}

theorem avoids_array {items : List Value} :
    (array items).Avoids low ↔ ∀ i ∈ items, i.Avoids low := by
  simp only [Avoids, parts, List.mem_cons, reduceCtorEq, false_or, mem_partsItems]
  constructor
  · intro h i hi n hn
    exact h n ⟨i, hi, hn⟩
  · rintro h n ⟨i, hi, hn⟩
    exact h i hi n hn

theorem avoids_map {pairs : List (Value × Value)} :
    (map pairs).Avoids low ↔ ∀ p ∈ pairs, p.1.Avoids low ∧ p.2.Avoids low := by
  simp only [Avoids, parts, List.mem_cons, reduceCtorEq, false_or, mem_partsPairs]
  constructor
  · intro h p hp
    exact ⟨fun n hn => h n ⟨p, hp, Or.inl hn⟩, fun n hn => h n ⟨p, hp, Or.inr hn⟩⟩
  · rintro h n ⟨p, hp, hn | hn⟩
    · exact (h p hp).1 n hn
    · exact (h p hp).2 n hn

theorem avoids_tag {number : UInt64} {item : Value} :
    (tag number item).Avoids low ↔ item.Avoids low := by
  simp only [Avoids, parts, List.mem_cons, reduceCtorEq, false_or]

theorem avoids_simple {n : UInt8} : (simple n).Avoids low ↔ n < low ∨ 32 ≤ n := by
  simp only [Avoids, parts, List.mem_singleton, simple.injEq, forall_eq]

theorem avoids_leaf {v : Value} (hp : v.parts = [v]) (hv : ∀ n, v ≠ .simple n) :
    v.Avoids low := by
  intro n hn
  rw [hp, List.mem_singleton] at hn
  exact absurd hn.symm (hv n)

theorem Avoids.mono {v : Value} {high : UInt8} (h : v.Avoids low) (hle : low ≤ high) :
    v.Avoids high := by
  intro n hn
  exact (h n hn).imp_left fun hlt => UInt8.lt_of_lt_of_le hlt hle

end Avoids

section Emitted

variable {τ : Type} [Output τ]

theorem itemCalls_eq (items : List Value) :
    (itemCalls items : List (EStateM Error τ Unit)) = items.map emit := by
  induction items with
  | nil => rfl
  | cons item items ih => rw [itemCalls, ih, List.map_cons]

/-- Pairs are written as their keys and values one after another. -/
theorem pairCalls_eq (pairs : List (Value × Value)) :
    (pairCalls pairs : List (EStateM Error τ Unit)) =
      (pairs.flatMap fun p => [p.1, p.2]).map emit := by
  induction pairs with
  | nil => rfl
  | cons pair pairs ih =>
    rw [pairCalls, ih]
    rfl

theorem length_slots (pairs : List (Value × Value)) :
    (pairs.flatMap fun p => [p.1, p.2]).length = pairs.length * Container.map.slots := by
  simp [List.map_const', Container.slots]

theorem forall_mem_slots {P : Value → Prop} {pairs : List (Value × Value)} :
    (∀ v ∈ pairs.flatMap fun p => [p.1, p.2], P v) ↔ ∀ p ∈ pairs, P p.1 ∧ P p.2 := by
  rw [List.forall_mem_flatMap]
  exact forall₂_congr fun p _ => by simp

theorem flatMap_slots (f : Value → Bytes) (pairs : List (Value × Value)) :
    (pairs.flatMap fun p => [p.1, p.2]).flatMap f = pairs.flatMap fun p => f p.1 ++ f p.2 := by
  rw [List.flatMap_assoc]
  simp

/-- A simple value is written unless it is reserved. -/
theorem emits_simple (n : UInt8) :
    Emits (Output.putHead (τ := τ)) (emitChecked (Head.encodeSimple n)) (n < 24 ∨ 32 ≤ n)
      (simple n).wire () := by
  rw [wire]
  by_cases hlow : n < 24
  · rw [if_pos hlow]
    exact (emits_checked (encodeSimple_inline hlow)).congr (iff_of_true trivial (Or.inl hlow))
  · rw [if_neg hlow]
    by_cases hhigh : 32 ≤ n
    · exact (emits_checked (encodeSimple_one hhigh)).congr (iff_of_true trivial (Or.inr hhigh))
    · rw [encodeSimple_reserved (UInt8.not_lt.mp hlow) (UInt8.not_le.mp hhigh)]
      refine ⟨fun h => absurd h (not_or.mpr ⟨hlow, hhigh⟩), fun _ => ⟨[], ?_, List.nil_prefix⟩⟩
      rfl

theorem emits_leaf {v : Value} {x : EStateM Error τ Unit} {bs : Bytes} (hp : v.parts = [v])
    (hv : ∀ n, v ≠ .simple n) (h : Emits Output.putHead x True bs ()) :
    Emits Output.putHead x (v.Avoids 24) bs () :=
  h.congr (iff_of_true trivial (avoids_leaf hp hv))

/-- Writing a value writes its encoding, or is refused for a reserved simple value in it. -/
theorem emits (hput : ∀ bs, (Output.put bs : EStateM Error τ Unit) = Output.putHead bs)
    (v : Value) : Emits (Output.putHead (τ := τ)) v.emit (v.Avoids 24) v.wire () := by
  induction v with
  | unsigned n => exact emits_leaf rfl (by simp) (.piece _)
  | negative n => exact emits_leaf rfl (by simp) (.piece _)
  | bytes b => exact emits_leaf rfl (by simp) (emits_string hput _ _)
  | text s => exact emits_leaf rfl (by simp) (emits_string hput _ _)
  | array items ih =>
    rw [emit, itemCalls_eq, avoids_array, wire, wireItems_eq]
    have hlen : items.length = items.length * Container.array.slots := (Nat.mul_one _).symm
    exact .container hlen ih
  | map pairs ih =>
    have hslots : ∀ v ∈ pairs.flatMap fun p => [p.1, p.2],
        Emits (Output.putHead (τ := τ)) v.emit (v.Avoids 24) v.wire () :=
      forall_mem_slots.mpr ih
    rw [emit, pairCalls_eq, avoids_map, wire, wirePairs_eq, ← flatMap_slots wire]
    exact (Emits.container (length_slots pairs) hslots).congr forall_mem_slots
  | tag n item ih =>
    rw [avoids_tag, wire]
    exact ((Emits.piece _).bind ih).congr (by rw [true_and])
  | false | true | null | undefined =>
    exact emits_leaf rfl (by simp) (emits_checked (encodeSimple_inline (by decide)))
  | simple n => exact (emits_simple n).congr avoids_simple.symm
  | float d => exact emits_leaf rfl (by simp) (.piece _)

end Emitted

def encode (v : Value) : Except Error Bytes :=
  match v.emit (GrowingOutput.ofCapacity 0) with
  | .ok () o => .ok o.toBytes
  | .error e _ => .error e

theorem encode_ok {v : Value} (h : 2 * v.wire.length + pieceRoom < allocationLimit)
    (hv : v.Avoids 24) : v.encode = .ok v.wire := by
  obtain ⟨o, ho, hbytes⟩ := (v.emits put_growing).writes hv _ (GrowingOutput.hasRoom_empty h)
  rw [encode, ho]
  exact congrArg Except.ok hbytes

theorem encode_error {v : Value} (h : 2 * v.wire.length + pieceRoom < allocationLimit)
    (hv : ¬v.Avoids 24) : v.encode = .error .itemValueOutOfRange := by
  obtain ⟨o, ho⟩ := (v.emits put_growing).refuses hv _ (GrowingOutput.hasRoom_empty h)
  rw [encode, ho]

end Value

end CborCodec
