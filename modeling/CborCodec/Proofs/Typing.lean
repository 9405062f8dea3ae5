import CborCodec.Proofs.Abreast
import CborCodec.Proofs.Agreement
/-!
Decoding to a type and decoding to values are one and the same reading. A typed decoder answers
just where the value that is decoded from the same bytes denotes an answer in its type, and then it
answers that and stops at the same place.
-/

namespace CborCodec

/-- The single-precision float for a double: the one that equals it, or the quiet NaN. -/
def Single.Of (f : Single) (d : Double) : Prop :=
  if d.isNaN then f.bits = 0x7FC00000 else Double.ofSingle f.bits = d

/-- The integers that a value denotes in a type. What is negative denotes none in an unsigned
one. -/
def IntType.Denotes (t : IntType) (v : Value) (n : Int) : Prop :=
  match t with
  | .unsigned _ => ∃ k : UInt64, v = .unsigned k ∧ n = k.toNat
  | .signed _ => v.integer? = some n

def Value.ofBool : Bool → Value
  | Bool.false => .false
  | Bool.true => .true

def Target.Denotes : (t : Target) → Value → t.Carrier → Prop
  | .integer t, v, n => t.Denotes v n.val
  | .bool, v, b => v = .ofBool b
  | .single, v, f => ∃ d, v = .float d ∧ f.Of d
  | .double, v, d => v = .float d
  | .text, v, s => v = .text s
  | .bytes, v, b => v = .bytes b
  | .value, v, w => v = w
  | .option _, v, none => v = .null ∨ v = .undefined
  | .option t, v, some a => (v ≠ .null ∧ v ≠ .undefined) ∧ t.Denotes v a

def Value.major : Value → Major
  | .unsigned _ => .unsigned
  | .negative _ => .negative
  | .bytes _ => .bytes
  | .text _ => .text
  | .array _ => .array
  | .map _ => .map
  | .tag .. => .tag
  | .false | .true | .null | .undefined | .simple _ | .float _ => .special

def Major.IsScalar (m : Major) : Prop := m = .unsigned ∨ m = .negative ∨ m = .special

def Head.scalar (head : Head) : Except Error Value :=
  match head.major with
  | .unsigned => .ok (.unsigned head.value)
  | .negative => .ok (.negative head.value)
  | .special => Value.ofSpecial head
  | _ => .error .itemTypeMismatch

section Scalars

variable {head : Head} {v : Value}

theorem Value.major_ofSimple (n : UInt8) : (Value.ofSimple n).major = .special := by
  unfold Value.ofSimple
  split_ifs <;> rfl

theorem Value.ofSimple_ne_float (n : UInt8) (d : Double) : Value.ofSimple n ≠ .float d := by
  unfold Value.ofSimple
  split_ifs <;> exact nofun

theorem Value.ofSimple_injective : Function.Injective Value.ofSimple := by
  intro m n h
  unfold Value.ofSimple at h
  split_ifs at h <;> simp_all

/-- No head is that of a float and of a simple value. -/
theorem Head.not_float_and_simple (head : Head) : head.float? = none ∨ head.simple? = none := by
  unfold Head.float? Head.simple?
  by_cases h : head.major = .special ∧ (!head.indefinite) = true
  · rw [if_pos h]
    by_cases hlength : head.encodedLength = 1 ∨ head.encodedLength = 2
    · rcases hlength with hlength | hlength <;> rw [hlength] <;> exact Or.inl rfl
    · exact Or.inr (if_neg fun hc => hlength hc.2.2)
  · rw [if_neg h]
    exact Or.inl rfl

/-- The special major has floats and simple values, and nothing else. -/
theorem Value.ofSpecial_eq_ok_iff :
    Value.ofSpecial head = .ok v ↔
      (∃ d, head.float? = some d ∧ v = .float d) ∨
        ∃ n, head.simple? = some n ∧ v = Value.ofSimple n := by
  unfold Value.ofSpecial
  -- Floats are tried before simple values; no head is both, so the order does not matter.
  have hboth := head.not_float_and_simple
  cases hf : head.float? with
  | some d =>
    have hs : head.simple? = none := hboth.resolve_left (by simp [hf])
    simp [hs, eq_comm]
  | none =>
    cases hs : head.simple? with
    | none => simp
    | some n => simp [Value.ofSimple, eq_comm]

theorem Head.special_of_float {d : Double} (h : head.float? = some d) : head.major = .special := by
  by_contra hm
  simp [Head.float?, hm] at h

theorem Head.special_of_simple {n : UInt8} (h : head.simple? = some n) :
    head.major = .special := by
  by_contra hm
  simp [Head.simple?, hm] at h

/-- A value that is all head has the major of the head. -/
theorem Head.major_of_scalar (h : head.scalar = .ok v) :
    v.major = head.major ∧ head.major.IsScalar := by
  unfold Head.scalar at h
  split at h
  · next hm =>
    cases h
    exact ⟨hm.symm, Or.inl hm⟩
  · next hm =>
    cases h
    exact ⟨hm.symm, Or.inr (Or.inl hm)⟩
  · next hm =>
    refine ⟨?_, Or.inr (Or.inr hm)⟩
    rw [hm]
    rcases Value.ofSpecial_eq_ok_iff.mp h with ⟨d, -, rfl⟩ | ⟨n, -, rfl⟩
    · rfl
    · exact Value.major_ofSimple n
  · cases h

theorem Head.scalar_of_special (hm : head.major = .special) :
    head.scalar = Value.ofSpecial head := by
  simp only [Head.scalar, hm]

theorem Head.scalar_eq_unsigned {k : UInt64} :
    head.scalar = .ok (.unsigned k) ↔ head.major = .unsigned ∧ head.value = k := by
  constructor
  · intro h
    have hm : head.major = .unsigned := (Head.major_of_scalar h).1.symm
    simp only [Head.scalar, hm] at h
    cases h
    exact ⟨hm, rfl⟩
  · rintro ⟨hm, rfl⟩
    simp only [Head.scalar, hm]

/-- The integer of a scalar is that of its head. -/
theorem Head.integer_of_scalar {n : Int} :
    (∃ v, head.scalar = .ok v ∧ v.integer? = some n) ↔ head.signedWide = some n := by
  rw [Head.signedWide_eq]
  unfold Head.scalar
  cases hm : head.major with
  | unsigned | negative => simp [Value.integer?]
  | special =>
    simp only [reduceCtorEq, iff_false]
    rintro ⟨v, hv, hn⟩
    rcases Value.ofSpecial_eq_ok_iff.mp hv with ⟨d, -, rfl⟩ | ⟨k, -, rfl⟩
    · cases hn
    · unfold Value.ofSimple at hn
      split_ifs at hn <;> cases hn
  | bytes | text | array | map | tag => simp

theorem Head.scalar_eq_float {d : Double} :
    head.scalar = .ok (.float d) ↔ head.float? = some d := by
  constructor
  · intro h
    have hm : head.major = .special := (Head.major_of_scalar h).1.symm
    rw [Head.scalar_of_special hm] at h
    rcases Value.ofSpecial_eq_ok_iff.mp h with ⟨e, he, hd⟩ | ⟨n, -, hn⟩
    · cases hd
      exact he
    · exact absurd hn.symm (Value.ofSimple_ne_float n d)
  · intro h
    rw [Head.scalar_of_special (Head.special_of_float h)]
    exact Value.ofSpecial_eq_ok_iff.mpr (Or.inl ⟨d, h, rfl⟩)

theorem Head.scalar_eq_simple {n : UInt8} :
    head.scalar = .ok (Value.ofSimple n) ↔ head.simple? = some n := by
  constructor
  · intro h
    have hm : head.major = .special := by
      rw [← (Head.major_of_scalar h).1, Value.major_ofSimple]
    rw [Head.scalar_of_special hm] at h
    rcases Value.ofSpecial_eq_ok_iff.mp h with ⟨d, -, hd⟩ | ⟨k, hk, hvalue⟩
    · exact absurd hd (Value.ofSimple_ne_float n d)
    · rw [hk, Value.ofSimple_injective hvalue]
  · intro h
    rw [Head.scalar_of_special (Head.special_of_simple h)]
    exact Value.ofSpecial_eq_ok_iff.mpr (Or.inr ⟨n, h, rfl⟩)

/-- What is missing is null or undefined. -/
theorem Head.isMissing_iff :
    head.isMissing ↔ head.scalar = .ok .null ∨ head.scalar = .ok .undefined := by
  have hnull : head.scalar = .ok .null ↔ head.simple? = some simpleNull :=
    Head.scalar_eq_simple (n := simpleNull)
  have hundefined : head.scalar = .ok .undefined ↔ head.simple? = some simpleUndefined :=
    Head.scalar_eq_simple (n := simpleUndefined)
  rw [Head.isMissing, hnull, hundefined]

end Scalars

section Readers

variable {σ α β : Type} [Input σ] {options : Options}

theorem decodeContents_scalar {inner : Option (EStateM Error σ Value)} {head : Head}
    (hm : head.major.IsScalar) :
    Value.decodeContents options inner head = known head.scalar := by
  unfold Value.decodeContents Head.scalar
  rcases hm with hm | hm | hm <;> simp only [hm] <;> rfl

/-- Contents make a value of the kind that the head has announced. -/
theorem major_of_decodeContents {inner : Option (EStateM Error σ Value)} {head : Head} {s t : σ}
    {v : Value} (h : Value.decodeContents options inner head s = .ok v t) :
    v.major = head.major := by
  cases hm : head.major
  case unsigned | negative | special =>
    have hscalar : head.major.IsScalar := by simp [Major.IsScalar, hm]
    rw [decodeContents_scalar hscalar, known_eq_ok] at h
    rw [← hm]
    exact (Head.major_of_scalar h.1).1
  all_goals simp only [Value.decodeContents, hm] at h
  case bytes =>
    obtain ⟨_, _, -, h⟩ := bind_eq_ok.1 h
    obtain ⟨rfl, -⟩ := pure_eq_ok.1 h
    rfl
  all_goals
    obtain ⟨_, _, -, h⟩ := bind_eq_ok.1 h
    obtain ⟨_, _, -, h⟩ := bind_eq_ok.1 h
    obtain ⟨rfl, -⟩ := pure_eq_ok.1 h
    rfl

/-- A reader answers just where the decoder of values does with a value that denotes an answer,
and stops where that does. -/
def Types (options : Options) (x : EStateM Error σ α) (P : Value → α → Prop) : Prop :=
  ∀ s a t, x s = .ok a t ↔ ∃ v, Value.decode options s = .ok v t ∧ P v a

namespace Types

/-- Both readers begin with the head, so it is enough that they agree on what follows it. -/
theorem of_head {f : Head → EStateM Error σ α} {P : Value → α → Prop}
    (h : ∀ head lead, head.Spelled lead → ∀ inner s a t,
      f head s = .ok a t ↔ ∃ v, Value.decodeContents options inner head s = .ok v t ∧ P v a) :
    Types options (readHead options.mode >>= f) P := by
  obtain ⟨inner, hdecode⟩ := decodeWithin_eq (σ := σ) options options.maxDepth.toNat
  intro s a t
  rw [Value.decode, hdecode]
  constructor
  · intro e
    obtain ⟨head, u, hhead, e⟩ := bind_eq_ok.1 e
    obtain ⟨lead, -, hs, -⟩ := Reads.readHead options.mode s head u hhead
    obtain ⟨v, hv, hp⟩ := (h head lead hs inner u a t).mp e
    exact ⟨v, bind_eq_ok.2 ⟨head, u, hhead, hv⟩, hp⟩
  · rintro ⟨v, e, hp⟩
    obtain ⟨head, u, hhead, e⟩ := bind_eq_ok.1 e
    obtain ⟨lead, -, hs, -⟩ := Reads.readHead options.mode s head u hhead
    have hf := (h head lead hs inner u a t).mpr ⟨v, e, hp⟩
    exact bind_eq_ok.2 ⟨head, u, hhead, hf⟩

/-- A reader that makes its answer of the head alone. -/
theorem scalar {g : Head → Except Error α} {P : Value → α → Prop}
    (hP : ∀ v a, P v a → v.major.IsScalar)
    (hg : ∀ head lead, head.Spelled lead → ∀ a,
      g head = .ok a ↔ ∃ v, head.scalar = .ok v ∧ P v a) :
    Types options (σ := σ) (do known (g (← readHead options.mode))) P := by
  apply of_head
  intro head lead hs inner s a t
  rw [known_eq_ok, hg head lead hs a]
  constructor
  · rintro ⟨⟨v, hv, hp⟩, rfl⟩
    have hscalar := (Head.major_of_scalar hv).2
    rw [decodeContents_scalar hscalar]
    exact ⟨v, known_eq_ok.2 ⟨hv, rfl⟩, hp⟩
  · rintro ⟨v, e, hp⟩
    have hscalar : head.major.IsScalar := major_of_decodeContents e ▸ hP v a hp
    rw [decodeContents_scalar hscalar] at e
    obtain ⟨hv, rfl⟩ := known_eq_ok.1 e
    exact ⟨⟨v, hv, hp⟩, rfl⟩

/-- An answer that is converted is typed by what it is converted from. -/
theorem bind_known {x : EStateM Error σ α} {g : α → Except Error β} {P : Value → α → Prop}
    {Q : Value → β → Prop} (h : Types options x P)
    (hQ : ∀ v b, Q v b ↔ ∃ a, P v a ∧ g a = .ok b) :
    Types options (x >>= fun a => known (g a)) Q := by
  intro s b t
  constructor
  · intro e
    obtain ⟨a, u, hx, e⟩ := bind_eq_ok.1 e
    obtain ⟨hb, rfl⟩ := known_eq_ok.1 e
    obtain ⟨v, hv, hp⟩ := (h s a u).mp hx
    exact ⟨v, hv, (hQ v b).mpr ⟨a, hp, hb⟩⟩
  · rintro ⟨v, hv, hq⟩
    obtain ⟨a, hp, hb⟩ := (hQ v b).mp hq
    have hx := (h s a t).mpr ⟨v, hv, hp⟩
    exact bind_eq_ok.2 ⟨a, t, hx, known_eq_ok.2 ⟨hb, rfl⟩⟩

end Types

theorem orFail_eq_ok {a : Option α} {e : Error} {b : α} :
    orFail a e = .ok b ↔ a = some b := by
  cases a <;> simp [orFail]

theorem IntType.ofInt?_eq_some {t : IntType} {n : Int} {x : t.Carrier} :
    t.ofInt? n = some x ↔ n = x.val := by
  unfold ofInt?
  constructor
  · intro h
    split at h
    · cases h
      rfl
    · cases h
  · rintro rfl
    exact dif_pos x.property

section Integers

/-- No integer is of indefinite length. -/
theorem Head.Spelled.definite_of_unsigned {head : Head} {lead : Bytes} (h : head.Spelled lead)
    (hm : head.major = .unsigned) : head.indefinite = false := by
  cases h with
  | definite m w n hn => rfl
  | opening m hopens =>
    obtain rfl : m = .unsigned := hm
    cases hopens

/-- A signed word holds an integer just if it holds the magnitude. -/
theorem Head.signed_eq_ok {head : Head} {n : Int} :
    head.signed = .ok n ↔ head.signedWide = some n ∧ head.value.toNat < 0x8000000000000000 := by
  rw [Head.signed_eq]
  cases hn : head.signedWide with
  | none => simp
  | some m =>
    by_cases hword : head.value.toNat < 0x8000000000000000
    · simp [hword]
    · simp [hword]

/-- An integer of a signed type fits a signed word. -/
theorem IntType.signed_bounds (w : Width) (x : (IntType.signed w).Carrier) :
    -0x8000000000000000 ≤ x.val ∧ x.val < 0x8000000000000000 := by
  have hpow : twoPow (w.bits - 1) ≤ 0x8000000000000000 := by cases w <;> decide
  obtain ⟨n, hleast, hgreatest⟩ := x
  simp only [least, greatest] at hleast hgreatest ⊢
  omega

theorem Head.value_of_signedWide {head : Head} {n : Int} (h : head.signedWide = some n)
    (hleast : -0x8000000000000000 ≤ n) (hgreatest : n < 0x8000000000000000) :
    head.value.toNat < 0x8000000000000000 := by
  rw [Head.signedWide_eq] at h
  split at h <;> cases h <;> omega

/-- The head of an integer in range denotes it, and only integers in range are answered. -/
theorem IntType.ofHead_eq_ok {t : IntType} {head : Head} {lead : Bytes} (hs : head.Spelled lead)
    (x : t.Carrier) :
    t.ofHead head = .ok x.val ↔ ∃ v, head.scalar = .ok v ∧ t.Denotes v x.val := by
  cases t with
  | unsigned w =>
    simp only [ofHead, Denotes]
    constructor
    · intro h
      split at h
      · next hm =>
        refine ⟨_, Head.scalar_eq_unsigned.mpr ⟨hm.1, rfl⟩, head.value, rfl, ?_⟩
        exact (Except.ok.inj h).symm
      · cases h
    · rintro ⟨v, hv, k, rfl, hk⟩
      obtain ⟨hm, rfl⟩ := Head.scalar_eq_unsigned.mp hv
      -- The reader refuses indefinite heads too, but no head of this kind opens anything.
      have hi := hs.definite_of_unsigned hm
      rw [if_pos ⟨hm, by simp [hi]⟩, hk]
  | signed w =>
    simp only [ofHead, Denotes]
    rw [Head.signed_eq_ok, Head.integer_of_scalar]
    constructor
    · exact fun h => h.1
    · -- A word that is too large for a signed one makes no integer of any signed type.
      intro h
      obtain ⟨hleast, hgreatest⟩ := signed_bounds w x
      exact ⟨h, Head.value_of_signedWide h hleast hgreatest⟩

theorem decodeInteger_eq (options : Options) (t : IntType) :
    (decodeInteger options t : EStateM Error σ t.Carrier) = (do
      let head ← readHead options.mode
      known ((t.ofHead head).bind fun n => orFail (t.ofInt? n) .itemValueOutOfRange)) := by
  unfold decodeInteger
  congr 1
  funext head
  cases t.ofHead head <;> rfl

/-- An integer is read for a type just where the value is one in its range. -/
theorem types_integer (t : IntType) :
    Types options (σ := σ) (decodeInteger options t) fun v x => t.Denotes v x.val := by
  rw [decodeInteger_eq]
  apply Types.scalar
  · intro v x h
    cases t with
    | unsigned w =>
      obtain ⟨k, rfl, -⟩ := h
      exact Or.inl rfl
    | signed w =>
      simp only [IntType.Denotes] at h
      cases v with
      | unsigned k => exact Or.inl rfl
      | negative k => exact Or.inr (Or.inl rfl)
      | _ => cases h
  · intro head lead hs x
    have hrange : ((t.ofHead head).bind fun n => orFail (t.ofInt? n) .itemValueOutOfRange) =
        .ok x ↔ t.ofHead head = .ok x.val := by
      cases hn : t.ofHead head with
      | error e => simp [Except.bind]
      | ok n => simp only [Except.bind, orFail_eq_ok, IntType.ofInt?_eq_some, Except.ok.injEq]
    rw [hrange, IntType.ofHead_eq_ok hs]

end Integers

section Specials

theorem types_bool :
    Types options (σ := σ) (decodeBool options) fun v b => v = .ofBool b := by
  apply Types.scalar
  · rintro v b rfl
    cases b <;> exact Or.inr (Or.inr rfl)
  · intro head lead hs b
    have hfalse : head.scalar = .ok .false ↔ head.simple? = some simpleFalse :=
      Head.scalar_eq_simple (n := simpleFalse)
    have htrue : head.scalar = .ok .true ↔ head.simple? = some simpleTrue :=
      Head.scalar_eq_simple (n := simpleTrue)
    have hdistinct : simpleFalse ≠ simpleTrue := by decide
    unfold boolOf
    cases b with
    | false =>
      simp only [Value.ofBool, exists_eq_right, hfalse]
      split_ifs <;> simp_all
    | true =>
      simp only [Value.ofBool, exists_eq_right, htrue]
      split_ifs <;> simp_all

theorem types_double :
    Types options (σ := σ) (decodeDouble options) fun v d => v = .float d := by
  apply Types.scalar
  · rintro v d rfl
    exact Or.inr (Or.inr rfl)
  · intro head lead hs d
    rw [orFail_eq_ok]
    simp only [exists_eq_right, Head.scalar_eq_float]

/-- Narrowing succeeds just for what single precision has, and for NaNs. -/
theorem Single.ofDouble_eq_ok {d : Double} {f : Single} :
    Single.ofDouble d = .ok f ↔ f.Of d := by
  unfold Single.ofDouble Single.Of
  split
  · rw [Except.ok.injEq, eq_comm]
    exact ⟨congrArg Single.bits, fun h => by cases f; cases h; rfl⟩
  · next hn =>
    rw [orFail_eq_ok, Option.map_eq_some_iff]
    constructor
    · rintro ⟨bits, hbits, rfl⟩
      exact (Double.toSingle?_eq_some_iff.mp hbits).2
    · intro h
      exact ⟨f.bits, Double.toSingle?_eq_some_iff.mpr ⟨by simpa using hn, h⟩, rfl⟩

theorem types_single :
    Types options (σ := σ) (decodeSingle options) fun v f => ∃ d, v = .float d ∧ f.Of d := by
  apply types_double.bind_known
  intro v f
  simp only [Single.ofDouble_eq_ok]

end Specials

section Strings

/-- A reader of strings refuses other kinds of items, and of its own kind reads the contents. -/
theorem Types.string {m : Major} (hm : m ≠ .special) {f : Head → EStateM Error σ α}
    {P : Value → α → Prop} (hP : ∀ v a, P v a → v.major = m)
    (h : ∀ head, head.major = m → ∀ inner s a t,
      f head s = .ok a t ↔ ∃ v, Value.decodeContents options inner head s = .ok v t ∧ P v a) :
    Types options (do
      let head ← readHead options.mode
      failIf (head.major ≠ m ∨ head.isBreak) .itemTypeMismatch
      f head) P := by
  apply of_head
  intro head lead hs inner s a t
  by_cases hkind : head.major = m
  · -- Breaks are special, so of this kind none is to be refused.
    have hpass : ¬(head.major ≠ m ∨ head.isBreak = true) := by simp [hkind, Head.isBreak, hm]
    rw [failIf, if_neg hpass, pure_bind]
    exact h head hkind inner s a t
  · have hother : head.major ≠ m ∨ head.isBreak = true := Or.inl hkind
    rw [failIf, if_pos hother]
    constructor
    · intro e
      cases e
    · rintro ⟨v, e, hp⟩
      exact absurd ((major_of_decodeContents e).symm.trans (hP v a hp)) hkind

theorem types_bytes :
    Types options (σ := σ) (readBytes options) fun v b => v = .bytes b := by
  apply Types.string (by decide)
  · rintro v b rfl
    rfl
  · intro head hm inner s b t
    simp only [Value.decodeContents, hm]
    constructor
    · intro e
      exact ⟨.bytes b, bind_eq_ok.2 ⟨b, t, e, rfl⟩, rfl⟩
    · rintro ⟨v, e, rfl⟩
      obtain ⟨c, u, hc, e⟩ := bind_eq_ok.1 e
      cases e
      exact hc

theorem types_text :
    Types options (σ := σ) (readText options) fun v s => v = .text s := by
  simp only [readText, readString, bind_assoc]
  apply Types.string (by decide)
  · rintro v s rfl
    rfl
  · intro head hm inner s text t
    simp only [Value.decodeContents, hm]
    constructor
    · intro e
      obtain ⟨b, u, hb, e⟩ := bind_eq_ok.1 e
      exact ⟨.text text, bind_eq_ok.2 ⟨b, u, hb, bind_eq_ok.2 ⟨text, t, e, rfl⟩⟩, rfl⟩
    · rintro ⟨v, e, rfl⟩
      obtain ⟨b, u, hb, e⟩ := bind_eq_ok.1 e
      obtain ⟨c, w, hc, e⟩ := bind_eq_ok.1 e
      cases e
      exact bind_eq_ok.2 ⟨b, u, hb, hc⟩

end Strings

section Peeks

/-- Null and undefined are moved past. -/
theorem decodeOption_missing {x : EStateM Error σ α} {head : Head} {s t : σ}
    (hpeek : peekHead options.mode s = .ok head t) (hmissing : head.isMissing) :
    decodeOption options x s = .ok none (Cursor.discard head.encodedLength t) := by
  rw [decodeOption, bind_apply, hpeek]
  dsimp only
  rw [if_pos hmissing]
  rfl

theorem decodeOption_present {x : EStateM Error σ α} {head : Head} {s t : σ}
    (hpeek : peekHead options.mode s = .ok head t) (hpresent : ¬head.isMissing) :
    decodeOption options x s = (do return some (← x)) t := by
  rw [decodeOption, bind_apply, hpeek]
  dsimp only
  rw [if_neg hpresent]

end Peeks

end Readers

section Options

variable {α : Type} {options : Options} {s t : MemoryInput} {head : Head}

/-- A peek leaves bytes in memory where they are. -/
theorem eq_of_peekHead {mode : Mode} (h : peekHead mode s = .ok head t) : t = s := by
  obtain ⟨-, hadv, -⟩ := peekHead_spelled h
  exact MemoryInput.eq_of_advances hadv Advances.rfl

theorem exists_peek_of_decode {v : Value} (hv : Value.decode options s = .ok v t) :
    ∃ head, peekHead options.mode s = .ok head s := by
  obtain ⟨inner, hdecode⟩ :=
    decodeWithin_eq (σ := MemoryInput) options options.maxDepth.toNat
  rw [Value.decode, hdecode] at hv
  obtain ⟨head, u, hhead, -⟩ := bind_eq_ok.1 hv
  obtain ⟨peeked, w, hpeek, -⟩ := bind_eq_ok.1 hhead
  obtain rfl := eq_of_peekHead hpeek
  exact ⟨peeked, hpeek⟩

/-- Behind a head at which one has peeked its contents are decoded. -/
theorem decode_of_peekHead (hpeek : peekHead options.mode s = .ok head s) :
    ∃ inner, Value.decode options s =
      Value.decodeContents options inner head (Cursor.discard head.encodedLength s) := by
  obtain ⟨inner, hdecode⟩ :=
    decodeWithin_eq (σ := MemoryInput) options options.maxDepth.toNat
  refine ⟨inner, ?_⟩
  rw [Value.decode, hdecode, bind_apply, readHead_ok hpeek]

/-- A head that is null or undefined is a whole item. -/
theorem decode_of_isMissing (hpeek : peekHead options.mode s = .ok head s)
    (hmissing : head.isMissing) :
    ∃ v, Value.decode options s = .ok v (Cursor.discard head.encodedLength s) ∧
      (v = .null ∨ v = .undefined) := by
  obtain ⟨inner, hdecode⟩ := decode_of_peekHead hpeek
  have hwhole (v : Value) (h : head.scalar = .ok v) :
      Value.decode options s = .ok v (Cursor.discard head.encodedLength s) := by
    rw [hdecode, decodeContents_scalar (Head.major_of_scalar h).2, known_eq_ok]
    exact ⟨h, rfl⟩
  rcases Head.isMissing_iff.mp hmissing with h | h
  · exact ⟨.null, hwhole _ h, Or.inl rfl⟩
  · exact ⟨.undefined, hwhole _ h, Or.inr rfl⟩

/-- Whether a value is null or undefined is seen of the head that it starts with. -/
theorem isMissing_iff_of_decode {v : Value} (hpeek : peekHead options.mode s = .ok head s)
    (hv : Value.decode options s = .ok v t) :
    head.isMissing ↔ v = .null ∨ v = .undefined := by
  constructor
  · intro h
    obtain ⟨w, hw, hvalue⟩ := decode_of_isMissing hpeek h
    rw [hv] at hw
    cases hw
    exact hvalue
  · intro h
    obtain ⟨inner, hdecode⟩ := decode_of_peekHead hpeek
    rw [hdecode] at hv
    have hspecial : v.major = .special := by rcases h with rfl | rfl <;> rfl
    have hkind : head.major = .special := (major_of_decodeContents hv).symm.trans hspecial
    rw [decodeContents_scalar (Or.inr (Or.inr hkind)), known_eq_ok] at hv
    rw [Head.isMissing_iff, hv.1, Except.ok.injEq, Except.ok.injEq]
    exact h

/-- An option is empty for what is missing, and else is read for its type. -/
theorem types_option {x : EStateM Error MemoryInput α} {P : Value → α → Prop}
    (h : Types options x P) :
    Types options (decodeOption options x) fun v a =>
      match a with
      | none => v = .null ∨ v = .undefined
      | some a => (v ≠ .null ∧ v ≠ .undefined) ∧ P v a := by
  intro s a t
  constructor
  · intro e
    obtain ⟨head, u, hpeek, -⟩ := bind_eq_ok.1 e
    obtain rfl := eq_of_peekHead hpeek
    by_cases hmissing : head.isMissing
    · rw [decodeOption_missing hpeek hmissing] at e
      cases e
      exact decode_of_isMissing hpeek hmissing
    · rw [decodeOption_present hpeek hmissing] at e
      obtain ⟨b, w, hb, e⟩ := bind_eq_ok.1 e
      cases e
      obtain ⟨v, hv, hp⟩ := (h u b t).mp hb
      rw [isMissing_iff_of_decode hpeek hv, not_or] at hmissing
      exact ⟨v, hv, hmissing, hp⟩
  · rintro ⟨v, hv, hp⟩
    obtain ⟨head, hpeek⟩ := exists_peek_of_decode hv
    have hmissing := isMissing_iff_of_decode hpeek hv
    cases a with
    | none =>
      rw [← hmissing] at hp
      obtain ⟨w, hw, -⟩ := decode_of_isMissing hpeek hp
      rw [hw] at hv
      cases hv
      exact decodeOption_missing hpeek hp
    | some b =>
      obtain ⟨hpresent, hp⟩ := hp
      rw [← not_or, ← hmissing] at hpresent
      have hb := (h s b t).mpr ⟨v, hv, hp⟩
      rw [decodeOption_present hpeek hpresent]
      exact bind_eq_ok.2 ⟨b, t, hb, rfl⟩

/-- Every typed decoder reads values, of those that denote something in its type. -/
theorem Target.types_decode (t : Target) :
    Types options (σ := MemoryInput) (t.decode options) t.Denotes := by
  induction t with
  | integer t => exact types_integer t
  | bool => exact types_bool
  | single => exact types_single
  | double => exact types_double
  | text => exact types_text
  | bytes => exact types_bytes
  | value =>
    intro s v t
    exact ⟨fun h => ⟨v, h, rfl⟩, fun ⟨w, h, hw⟩ => hw ▸ h⟩
  | option t ih =>
    intro s a u
    refine (types_option ih s a u).trans ?_
    cases a <;> rfl

/-- Under any options, data decodes to an answer of a type just where it decodes to a value that
denotes the answer, and the same bytes are consumed. -/
theorem typed_decoding_agrees (options : Options) (t : Target) (data : Bytes) (x : t.Carrier)
    (n : Nat) :
    decodeBytes (t.decode options) data = .ok (x, n) ↔
      ∃ v, decodeBytes (Value.decode options) data = .ok (v, n) ∧ t.Denotes v x := by
  simp only [decodeBytes_eq_ok_iff]
  constructor
  · rintro ⟨s, hx, hn⟩
    obtain ⟨v, hv, hdenotes⟩ := (t.types_decode _ x s).mp hx
    exact ⟨v, ⟨s, hv, hn⟩, hdenotes⟩
  · rintro ⟨v, ⟨s, hv, hn⟩, hdenotes⟩
    have hx := (t.types_decode _ x s).mpr ⟨v, hv, hdenotes⟩
    exact ⟨s, hx, hn⟩

/-- The least integer of a byte is there; null is none, in a byte as in any type. -/
example :
    decodeBytes ((Target.option (.integer (.signed .w8))).decode {}) [0x38, 0x7F] =
        .ok (some ⟨-128, by decide⟩, 2) ∧
      decodeBytes ((Target.option (.integer (.signed .w8))).decode {}) [0xF6] = .ok (none, 1) :=
  ⟨rfl, rfl⟩

end Options

end CborCodec
