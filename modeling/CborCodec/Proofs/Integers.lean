import CborCodec.Proofs.Extending
import CborCodec.Proofs.Leaves
import CborCodec.Proofs.Typing
/-!
Integers in bytes and in machine types. An integer has one spelling, whatever type it comes from,
and every type that it is in reads it back; the others refuse it, for its sign or for its size. The
integer of a head is in the narrow word just where it fits one.
-/

namespace CborCodec

def Head.integer (head : Head) : Int :=
  if head.major = .negative then -1 - head.value.toNat else head.value.toNat

namespace IntType

def isUnsigned : IntType → Bool
  | unsigned _ => true
  | signed _ => false

/-- An integer as one of a type, or the reason why it is none. -/
def judge (t : IntType) (n : Int) : Except Error t.Carrier :=
  if h : t.least ≤ n ∧ n ≤ t.greatest then .ok ⟨n, h⟩
  else if n < 0 ∧ t.isUnsigned then .error .itemTypeMismatch
  else .error .itemValueOutOfRange

/-- A signed type is within the signed words. -/
theorem signed_range (w : Width) :
    -0x8000000000000000 ≤ (signed w).least ∧ (signed w).greatest < 0x8000000000000000 := by
  cases w <;> decide

theorem judge_of_in {t : IntType} {n : Int} (h : t.least ≤ n ∧ n ≤ t.greatest) :
    t.judge n = .ok ⟨n, h⟩ := dif_pos h

theorem judge_of_out {t : IntType} {n : Int} (h : ¬(t.least ≤ n ∧ n ≤ t.greatest)) :
    t.judge n = if n < 0 ∧ t.isUnsigned then .error .itemTypeMismatch
      else .error .itemValueOutOfRange := dif_neg h

/-- An integer out of the range of its type is refused for that, if not before for its sign. -/
theorem orFail_ofInt? {t : IntType} {n : Int} (h : ¬(n < 0 ∧ t.isUnsigned)) :
    orFail (t.ofInt? n) .itemValueOutOfRange = t.judge n := by
  by_cases hrange : t.least ≤ n ∧ n ≤ t.greatest
  · rw [ofInt?, dif_pos hrange, judge_of_in hrange]
    rfl
  · rw [ofInt?, dif_neg hrange, judge_of_out hrange, if_neg h]
    rfl

end IntType

section Heads

variable {head : Head}

theorem Head.signedWide_of_isInteger (h : head.IsInteger) :
    head.signedWide = some head.integer := by
  rw [Head.signedWide_eq, Head.integer]
  rcases h with hm | hm <;> rw [hm] <;> rfl

/-- The narrow word has the integers of the magnitudes that leave its highest bit clear. -/
theorem Head.signed_of_isInteger (h : head.IsInteger) :
    head.signed = if -0x8000000000000000 ≤ head.integer ∧ head.integer < 0x8000000000000000 then
      .ok head.integer else .error .itemValueOutOfRange := by
  have hfits : head.value.toNat < 0x8000000000000000 ↔
      -0x8000000000000000 ≤ head.integer ∧ head.integer < 0x8000000000000000 := by
    unfold Head.integer
    split <;> omega
  rw [Head.signed_eq, Head.signedWide_of_isInteger h]
  simp only [hfits]

/-- A type judges the integer of a head. What is more than a signed word is more than any signed
type, so it does not matter that the word is refused first. -/
theorem IntType.ofHead_eq_judge (t : IntType) (h : head.IsInteger)
    (hdefinite : head.indefinite = false) :
    ((t.ofHead head).bind fun n => orFail (t.ofInt? n) .itemValueOutOfRange) =
      t.judge head.integer := by
  cases t with
  | unsigned w =>
    rcases h with hm | hm
    · have hinteger : head.integer = head.value.toNat := by simp [Head.integer, hm]
      have hread : (unsigned w).ofHead head = .ok head.integer := by
        rw [hinteger]
        exact if_pos ⟨hm, by simp [hdefinite]⟩
      rw [hread]
      exact orFail_ofInt? (by omega)
    · have hnegative : head.integer < 0 := by
        simp only [Head.integer, hm, if_true]
        omega
      have hread : (unsigned w).ofHead head = .error .itemTypeMismatch :=
        if_neg (by simp [hm])
      rw [hread, judge_of_out fun hrange => absurd hrange.1 (by simpa [least] using hnegative),
        if_pos ⟨hnegative, rfl⟩]
      rfl
  | signed w =>
    obtain ⟨hleast, hgreatest⟩ := signed_range w
    have hsign : ¬(head.integer < 0 ∧ (signed w).isUnsigned) := by simp [isUnsigned]
    have hread : (signed w).ofHead head = head.signed := rfl
    rw [hread, Head.signed_of_isInteger h]
    split
    · exact orFail_ofInt? hsign
    · next hword =>
      have hout : ¬((signed w).least ≤ head.integer ∧ head.integer ≤ (signed w).greatest) := by
        omega
      rw [judge_of_out hout, if_neg hsign]
      rfl

end Heads

section Reading

variable {α : Type}

/-- What is decided by its head alone is decided in front of any bytes. -/
theorem decodeBytes_readHead {mode : Mode} {head : Head} {lead : Bytes} (hs : head.Spelled lead)
    (hc : head.check mode = .ok ()) (g : Head → Except Error α) (rest : Bytes) :
    decodeBytes (do
      let head ← readHead mode
      known (g head)) (lead ++ rest) = (g head).map (·, lead.length) := by
  obtain ⟨t, hread, hadv⟩ :=
    Accepts.readHead hs hc (MemoryInput.ofBytes (lead ++ rest)) rest rfl
  have hoffset : t.offset = lead.length := hadv.2.trans (Nat.zero_add _)
  rw [decodeBytes, bind_apply, hread]
  cases hg : g head with
  | ok a => simp [known, pure_apply, hoffset, Except.map, hg]
  | error e => simp [known, throw_apply, Except.map, hg]

theorem decodeBytes_integer {options : Options} {head : Head} {lead : Bytes}
    (hs : head.Spelled lead) (hc : head.check options.mode = .ok ()) (h : head.IsInteger)
    (hdefinite : head.indefinite = false) (t : IntType) (rest : Bytes) :
    decodeBytes (decodeInteger options t) (lead ++ rest) =
      (t.judge head.integer).map (·, lead.length) := by
  rw [decodeInteger_eq, decodeBytes_readHead hs hc, IntType.ofHead_eq_judge t h hdefinite]

/-- The value that is decoded from an integer head has its integer. -/
theorem exists_value_of_isInteger {options : Options} {data : Bytes} {head : Head}
    (hdecode : Head.decode data = .ok head) (h : head.IsInteger)
    (hc : head.check options.mode = .ok ()) :
    ∃ v, decodeBytes (Value.decode options) data = .ok (v, head.encodedLength) ∧
      v.integer? = head.signedWide := by
  obtain ⟨lead, rest, rfl, hs⟩ := Head.spelled_of_decode hdecode
  have hscalar : head.major.IsScalar := by
    rcases h with hm | hm
    · exact Or.inl hm
    · exact Or.inr (Or.inl hm)
  have hwide := Head.signedWide_of_isInteger h
  obtain ⟨v, hv, hinteger⟩ := Head.integer_of_scalar.mpr hwide
  obtain ⟨inner, hdecoder⟩ :=
    decodeWithin_eq (σ := MemoryInput) options options.maxDepth.toNat
  have hcontents : (Value.decodeContents options inner head : EStateM Error MemoryInput Value) =
      known head.scalar := decodeContents_scalar hscalar
  refine ⟨v, ?_, hinteger.trans hwide.symm⟩
  have haccepts : Accepts (Value.decode options : EStateM Error MemoryInput Value) v lead := by
    rw [Value.decode, hdecoder, ← List.append_nil lead]
    refine (Accepts.readHead hs hc).bind ?_
    rw [hcontents]
    exact .known hv
  rw [decodeBytes_of_accepts haccepts, hs.length_eq]

end Reading

def Leaf.encode (l : Leaf) : Except Error Bytes :=
  match l.emit (GrowingOutput.ofCapacity 0) with
  | .ok () o => .ok o.toBytes
  | .error e _ => .error e

section Writing

/-- Every type is within the integers whose magnitude is a word. -/
theorem IntType.word_range (t : IntType) (x : t.Carrier) :
    -0x10000000000000000 ≤ x.val ∧ x.val < 0x10000000000000000 := by
  have hbounds : -0x10000000000000000 ≤ t.least ∧ t.greatest < 0x10000000000000000 := by
    rcases t with w | w <;> cases w <;> decide
  obtain ⟨hleast, hgreatest⟩ := x.property
  omega

/-- The spelling of an integer is a head that every mode accepts. -/
theorem exists_head_of_ofInt {n : Int} (hleast : -0x10000000000000000 ≤ n)
    (hgreatest : n < 0x10000000000000000) :
    ∃ head : Head, head.Spelled (Value.ofInt n).wire ∧ head.IsInteger ∧
      head.indefinite = false ∧ head.integer = n ∧ ∀ mode, head.check mode = .ok () := by
  have hspelled (m : Major) (hm : m ≠ .special) {k : Nat} (hk : k < 2 ^ 64) :
      (Head.definite m (UInt64.ofNat k) (1 + (ArgumentWidth.shortest k).bytes)).Spelled
          (Head.encode m (UInt64.ofNat k)) ∧
        ∀ mode, (Head.definite m (UInt64.ofNat k) (1 + (ArgumentWidth.shortest k).bytes)).check
          mode = .ok () := by
    have hholds := ArgumentWidth.holds_shortest hk
    rw [encode_ofNat m hk]
    exact ⟨.definite m _ k hholds,
      fun mode => (check_definite hholds).2 (admits_shortest hm).of_strict⟩
  cases n with
  | ofNat k =>
    rw [Int.ofNat_eq_natCast] at hgreatest
    have hk : k < 2 ^ 64 := by omega
    obtain ⟨hs, hc⟩ := hspelled .unsigned (by decide) hk
    refine ⟨_, hs, Or.inl rfl, rfl, ?_, hc⟩
    simp [Head.integer, Head.definite, UInt64.toNat_ofNat_of_lt' hk]
  | negSucc k =>
    have hk : k < 2 ^ 64 := by omega
    obtain ⟨hs, hc⟩ := hspelled .negative (by decide) hk
    refine ⟨_, hs, Or.inr rfl, rfl, ?_, hc⟩
    simp only [Head.integer, Head.definite, if_true, UInt64.toNat_ofNat_of_lt' hk]
    omega

/-- An integer by itself is written, and its bytes are those of the value. -/
theorem encode_integer (t : IntType) (x : t.Carrier) :
    (Leaf.integer t x).encode = .ok (Value.ofInt x.val).wire := by
  obtain ⟨hleast, hgreatest⟩ := t.word_range x
  obtain ⟨head, hs, -⟩ := exists_head_of_ofInt hleast hgreatest
  have hlength := hs.length_le
  have havoids : (Value.ofInt x.val).Avoids 24 := by
    cases x.val <;> exact Value.avoids_leaf rfl (by simp [Value.ofInt])
  have hroom : 2 * (Value.ofInt x.val).wire.length + pieceRoom < allocationLimit := by
    have hpiece : 2 * 9 + pieceRoom < allocationLimit := by decide
    omega
  have hemit : (Leaf.integer t x).emit = (Value.ofInt x.val).emit :=
    (emitTyped_eq (τ := GrowingOutput) t x).trans (Value.emit_ofInt x.val).symm
  rw [Leaf.encode, hemit]
  exact Value.encode_ok hroom havoids

end Writing

/-- The bytes of an integer depend on nothing but the integer. In strict mode a type reads them
back, in front of any others, as the integer if it is in range, and else fails with a mismatch if it
is negative where the type has no sign, and with an integer out of range otherwise. The integer of a
head is exact in the wide word; in the narrow one it is there just if it fits; and it is the integer
of the value that is decoded from the head. -/
theorem integers_survive_types :
    (∀ (s : IntType) (x : s.Carrier),
      (Leaf.integer s x).encode = .ok (Value.ofInt x.val).wire ∧
        ∀ (t : IntType) (options : Options) (rest : Bytes), options.mode = .strict →
          decodeBytes (decodeInteger options t) ((Value.ofInt x.val).wire ++ rest) =
            (t.judge x.val).map (·, (Value.ofInt x.val).wire.length)) ∧
      (∀ head : Head, head.IsInteger →
        head.signedWide = some head.integer ∧
          head.signed =
            if -0x8000000000000000 ≤ head.integer ∧ head.integer < 0x8000000000000000 then
              .ok head.integer else .error .itemValueOutOfRange) ∧
      ∀ (options : Options) (data : Bytes) (head : Head), Head.decode data = .ok head →
        head.IsInteger → head.check options.mode = .ok () →
        ∃ v, decodeBytes (Value.decode options) data = .ok (v, head.encodedLength) ∧
          v.integer? = head.signedWide := by
  refine ⟨fun s x => ⟨encode_integer s x, fun t options rest _ => ?_⟩, fun head h => ?_,
    fun options data head hdecode h hc => exists_value_of_isInteger hdecode h hc⟩
  · obtain ⟨hleast, hgreatest⟩ := s.word_range x
    obtain ⟨head, hs, h, hdefinite, hinteger, hc⟩ := exists_head_of_ofInt hleast hgreatest
    rw [decodeBytes_integer hs (hc options.mode) h hdefinite, hinteger]
  · exact ⟨Head.signedWide_of_isInteger h, Head.signed_of_isInteger h⟩

/-- The least integer of sixteen bits is read back as a signed word; it is out of range for eight
bits, and no word without a sign. The least integer of any head is in the wide word only. -/
theorem least_integers_survive :
    decodeBytes (decodeInteger { mode := .strict } (.signed .w64)) [0x39, 0x7F, 0xFF, 0xF6] =
        .ok (⟨-0x8000, by decide⟩, 3) ∧
      decodeBytes (decodeInteger { mode := .strict } (.signed .w8)) [0x39, 0x7F, 0xFF, 0xF6] =
        .error .itemValueOutOfRange ∧
      decodeBytes (decodeInteger { mode := .strict } (.unsigned .w64)) [0x39, 0x7F, 0xFF, 0xF6] =
        .error .itemTypeMismatch ∧
      Head.signed ⟨.negative, false, 9, 0xFFFFFFFFFFFFFFFF⟩ = .error .itemValueOutOfRange ∧
      ∃ v, decodeBytes (Value.decode {}) [0x3B, 0xFF, 0xFF, 0xFF, 0xFF, 0xFF, 0xFF, 0xFF, 0xFF] =
          .ok (v, 9) ∧ v.integer? = some (-0x10000000000000000) := by
  have hread (t : IntType) :=
    (integers_survive_types.1 (.signed .w16) ⟨-0x8000, by decide⟩).2 t { mode := .strict }
      [0xF6] rfl
  exact ⟨hread (.signed .w64), hread (.signed .w8), hread (.unsigned .w64),
    (integers_survive_types.2.1 ⟨.negative, false, 9, 0xFFFFFFFFFFFFFFFF⟩ (Or.inr rfl)).2,
    integers_survive_types.2.2 {} [0x3B, 0xFF, 0xFF, 0xFF, 0xFF, 0xFF, 0xFF, 0xFF, 0xFF]
      ⟨.negative, false, 9, 0xFFFFFFFFFFFFFFFF⟩ rfl (Or.inr rfl) rfl⟩

end CborCodec
