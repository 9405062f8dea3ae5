import CborCodec.Proofs.Grammar
import CborCodec.Value.Decode
/-!
What bytes denote. A value is spelled by many byte strings: every head has a choice of widths,
every string and container a choice between its definite form and the one up to a break, every
float a choice of patterns. The mode cuts the choices down. NaNs are told apart by the patterns
that spell them, and are taken together only at the end.
-/

namespace CborCodec

namespace Value

/-- Induction over values: the items of a container and the item of a tag come before it. -/
@[induction_eliminator]
theorem inductionOn {motive : Value → Prop} (v : Value)
    (unsigned : ∀ n, motive (.unsigned n)) (negative : ∀ n, motive (.negative n))
    (bytes : ∀ b, motive (.bytes b)) (text : ∀ s, motive (.text s))
    (array : ∀ items, (∀ i ∈ items, motive i) → motive (.array items))
    (map : ∀ pairs, (∀ p ∈ pairs, motive p.1 ∧ motive p.2) → motive (.map pairs))
    (tag : ∀ n item, motive item → motive (.tag n item))
    (false : motive .false) (true : motive .true) (null : motive .null)
    (undefined : motive .undefined) (simple : ∀ n, motive (.simple n))
    (float : ∀ d, motive (.float d)) : motive v := by
  refine Value.rec (motive_1 := motive) (motive_2 := fun items => ∀ i ∈ items, motive i)
    (motive_3 := fun pairs => ∀ p ∈ pairs, motive p.1 ∧ motive p.2)
    (motive_4 := fun p => motive p.1 ∧ motive p.2) unsigned negative bytes text array map tag
    false true null undefined simple float (by simp) ?_ (by simp) ?_ ?_ v
  · intro item items hitem hitems
    exact List.forall_mem_cons.mpr ⟨hitem, hitems⟩
  · intro pair pairs hpair hpairs
    exact List.forall_mem_cons.mpr ⟨hpair, hpairs⟩
  · intro key value hkey hvalue
    exact ⟨hkey, hvalue⟩

mutual

def quiet : Value → Value
  | array items => array (quietItems items)
  | map pairs => map (quietPairs pairs)
  | tag number item => tag number (quiet item)
  | float d => float (if d.isNaN then Double.ofHalf 0x7E00 else d)
  | v => v

def quietItems : List Value → List Value
  | [] => []
  | item :: items => quiet item :: quietItems items

def quietPairs : List (Value × Value) → List (Value × Value)
  | [] => []
  | (key, value) :: pairs => (quiet key, quiet value) :: quietPairs pairs

end

mutual

def parts : Value → List Value
  | array items => array items :: partsItems items
  | map pairs => map pairs :: partsPairs pairs
  | tag number item => tag number item :: parts item
  | v => [v]

def partsItems : List Value → List Value
  | [] => []
  | item :: items => parts item ++ partsItems items

def partsPairs : List (Value × Value) → List Value
  | [] => []
  | (key, value) :: pairs => parts key ++ parts value ++ partsPairs pairs

end

mutual

def nesting : Value → Nat
  | array items => nestingItems items + 1
  | map pairs => nestingPairs pairs + 1
  | tag _ item => nesting item + 1
  | _ => 0

def nestingItems : List Value → Nat
  | [] => 0
  | item :: items => max (nesting item) (nestingItems items)

def nestingPairs : List (Value × Value) → Nat
  | [] => 0
  | (key, value) :: pairs => max (max (nesting key) (nesting value)) (nestingPairs pairs)

end

/-- Values that differ at most in the patterns of their NaNs. -/
def Alike (v w : Value) : Prop := v.quiet = w.quiet

def Within (options : Options) : Value → Prop
  | bytes b => b.length ≤ options.maxStringSize.toNat
  | text s => (Bytes.ofText s).length ≤ options.maxStringSize.toNat
  | array items => items.length ≤ options.maxItems.toNat
  | map pairs => pairs.length ≤ options.maxItems.toNat
  | _ => True

/-- The limits hold for all parts, and no more than `depth` containers and tags are nested. -/
structure Fits (options : Options) (depth : Nat) (v : Value) : Prop where
  nesting_le : v.nesting ≤ depth
  within : ∀ p ∈ v.parts, p.Within options

theorem quietItems_eq (items : List Value) : quietItems items = items.map quiet := by
  induction items with
  | nil => rfl
  | cons item items ih => rw [quietItems, ih, List.map_cons]

theorem quietPairs_eq (pairs : List (Value × Value)) :
    quietPairs pairs = pairs.map fun p => (p.1.quiet, p.2.quiet) := by
  induction pairs with
  | nil => rfl
  | cons pair pairs ih => rw [quietPairs, ih, List.map_cons]

theorem mem_partsItems {items : List Value} {p : Value} :
    p ∈ partsItems items ↔ ∃ i ∈ items, p ∈ i.parts := by
  induction items with
  | nil => simp [partsItems]
  | cons item items ih =>
    simp only [partsItems, List.mem_append, ih, List.mem_cons, exists_eq_or_imp]

theorem mem_partsPairs {pairs : List (Value × Value)} {p : Value} :
    p ∈ partsPairs pairs ↔ ∃ q ∈ pairs, p ∈ q.1.parts ∨ p ∈ q.2.parts := by
  induction pairs with
  | nil => simp [partsPairs]
  | cons pair pairs ih =>
    simp only [partsPairs, List.mem_append, ih, List.mem_cons, exists_eq_or_imp]

theorem nestingItems_le {items : List Value} {depth : Nat} :
    nestingItems items ≤ depth ↔ ∀ i ∈ items, i.nesting ≤ depth := by
  induction items with
  | nil => simp [nestingItems]
  | cons item items ih => rw [nestingItems, Nat.max_le, ih, List.forall_mem_cons]

theorem nestingPairs_le {pairs : List (Value × Value)} {depth : Nat} :
    nestingPairs pairs ≤ depth ↔ ∀ p ∈ pairs, p.1.nesting ≤ depth ∧ p.2.nesting ≤ depth := by
  induction pairs with
  | nil => simp [nestingPairs]
  | cons pair pairs ih => rw [nestingPairs, Nat.max_le, Nat.max_le, ih, List.forall_mem_cons]

section Fits

variable {options : Options} {depth : Nat}

/-- An array fits if its count does and its elements fit one level less deep. -/
theorem fits_array {items : List Value} :
    (array items).Fits options (depth + 1) ↔
      items.length ≤ options.maxItems.toNat ∧ ∀ i ∈ items, i.Fits options depth := by
  constructor
  · rintro ⟨hnest, hparts⟩
    rw [nesting, Nat.add_le_add_iff_right, nestingItems_le] at hnest
    rw [parts, List.forall_mem_cons] at hparts
    exact ⟨hparts.1, fun i hi =>
      ⟨hnest i hi, fun p hp => hparts.2 p (mem_partsItems.mpr ⟨i, hi, hp⟩)⟩⟩
  · rintro ⟨hlen, hitems⟩
    refine ⟨?_, ?_⟩
    · rw [nesting, Nat.add_le_add_iff_right, nestingItems_le]
      exact fun i hi => (hitems i hi).nesting_le
    · rw [parts, List.forall_mem_cons]
      refine ⟨hlen, fun p hp => ?_⟩
      obtain ⟨i, hi, hp⟩ := mem_partsItems.mp hp
      exact (hitems i hi).within p hp

/-- A map fits if its count does and its keys and values fit one level less deep. -/
theorem fits_map {pairs : List (Value × Value)} :
    (map pairs).Fits options (depth + 1) ↔ pairs.length ≤ options.maxItems.toNat ∧
      ∀ p ∈ pairs, p.1.Fits options depth ∧ p.2.Fits options depth := by
  constructor
  · rintro ⟨hnest, hparts⟩
    rw [nesting, Nat.add_le_add_iff_right, nestingPairs_le] at hnest
    rw [parts, List.forall_mem_cons] at hparts
    have hwithin := fun p hp => hparts.2 p (mem_partsPairs.mpr hp)
    exact ⟨hparts.1, fun q hq =>
      ⟨⟨(hnest q hq).1, fun p hp => hwithin p ⟨q, hq, Or.inl hp⟩⟩,
        ⟨(hnest q hq).2, fun p hp => hwithin p ⟨q, hq, Or.inr hp⟩⟩⟩⟩
  · rintro ⟨hlen, hpairs⟩
    refine ⟨?_, ?_⟩
    · rw [nesting, Nat.add_le_add_iff_right, nestingPairs_le]
      exact fun q hq => ⟨(hpairs q hq).1.nesting_le, (hpairs q hq).2.nesting_le⟩
    · rw [parts, List.forall_mem_cons]
      refine ⟨hlen, fun p hp => ?_⟩
      obtain ⟨q, hq, hp | hp⟩ := mem_partsPairs.mp hp
      · exact (hpairs q hq).1.within p hp
      · exact (hpairs q hq).2.within p hp

theorem fits_tag {n : UInt64} {item : Value} :
    (tag n item).Fits options (depth + 1) ↔ item.Fits options depth := by
  constructor
  · rintro ⟨hnest, hparts⟩
    rw [nesting, Nat.add_le_add_iff_right] at hnest
    rw [parts, List.forall_mem_cons] at hparts
    exact ⟨hnest, hparts.2⟩
  · rintro ⟨hnest, hparts⟩
    refine ⟨?_, ?_⟩
    · rw [nesting, Nat.add_le_add_iff_right]
      exact hnest
    · rw [parts, List.forall_mem_cons]
      exact ⟨trivial, hparts⟩

theorem fits_of_leaf {v : Value} (hn : v.nesting = 0) (hp : v.parts = [v])
    (hw : v.Within options) : v.Fits options depth := by
  refine ⟨hn.le.trans (Nat.zero_le _), ?_⟩
  rw [hp, List.forall_mem_singleton]
  exact hw

end Fits

section Alike

theorem partsItems_quiet {items : List Value} (h : ∀ i ∈ items, i.quiet.parts = i.parts.map quiet) :
    partsItems (items.map quiet) = (partsItems items).map quiet := by
  induction items with
  | nil => rfl
  | cons item items ih =>
    rw [List.forall_mem_cons] at h
    rw [List.map_cons, partsItems, partsItems, h.1, ih h.2, List.map_append]

theorem partsPairs_quiet {pairs : List (Value × Value)}
    (h : ∀ p ∈ pairs, p.1.quiet.parts = p.1.parts.map quiet ∧
      p.2.quiet.parts = p.2.parts.map quiet) :
    partsPairs (pairs.map fun p => (p.1.quiet, p.2.quiet)) = (partsPairs pairs).map quiet := by
  induction pairs with
  | nil => rfl
  | cons pair pairs ih =>
    rw [List.forall_mem_cons] at h
    rw [List.map_cons, partsPairs, partsPairs, h.1.1, h.1.2, ih h.2, List.map_append,
      List.map_append]

/-- The parts of a value are made quiet with it. -/
theorem parts_quiet (v : Value) : v.quiet.parts = v.parts.map quiet := by
  induction v with
  | array items ih =>
    rw [quiet, quietItems_eq, parts, parts, partsItems_quiet ih, List.map_cons, quiet,
      quietItems_eq]
  | map pairs ih =>
    rw [quiet, quietPairs_eq, parts, parts, partsPairs_quiet ih, List.map_cons, quiet,
      quietPairs_eq]
  | tag n item ih => rw [quiet, parts, parts, ih, List.map_cons, quiet]
  | _ => rfl

theorem nesting_quiet (v : Value) : v.quiet.nesting = v.nesting := by
  induction v with
  | array items ih =>
    have hle (depth : Nat) : nestingItems (items.map quiet) ≤ depth ↔
        nestingItems items ≤ depth := by
      rw [nestingItems_le, nestingItems_le, List.forall_mem_map]
      exact forall₂_congr fun i hi => by rw [ih i hi]
    rw [quiet, quietItems_eq, nesting, nesting]
    exact congrArg (· + 1) (eq_of_forall_ge_iff hle)
  | map pairs ih =>
    have hle (depth : Nat) : nestingPairs (pairs.map fun p => (p.1.quiet, p.2.quiet)) ≤ depth ↔
        nestingPairs pairs ≤ depth := by
      rw [nestingPairs_le, nestingPairs_le, List.forall_mem_map]
      exact forall₂_congr fun p hp => by rw [(ih p hp).1, (ih p hp).2]
    rw [quiet, quietPairs_eq, nesting, nesting]
    exact congrArg (· + 1) (eq_of_forall_ge_iff hle)
  | tag n item ih => rw [quiet, nesting, nesting, ih]
  | _ => rfl

theorem within_quiet (options : Options) (v : Value) :
    v.quiet.Within options ↔ v.Within options := by
  cases v with
  | array items => rw [quiet, quietItems_eq, Within, Within, List.length_map]
  | map pairs => rw [quiet, quietPairs_eq, Within, Within, List.length_map]
  | _ => exact Iff.rfl

theorem fits_quiet {options : Options} {depth : Nat} (v : Value) :
    v.quiet.Fits options depth ↔ v.Fits options depth := by
  have hparts : (∀ p ∈ v.quiet.parts, p.Within options) ↔ ∀ p ∈ v.parts, p.Within options := by
    rw [parts_quiet, List.forall_mem_map]
    exact forall₂_congr fun p _ => within_quiet options p
  constructor
  · rintro ⟨hnest, hwithin⟩
    exact ⟨nesting_quiet v ▸ hnest, hparts.mp hwithin⟩
  · rintro ⟨hnest, hwithin⟩
    exact ⟨(nesting_quiet v).symm ▸ hnest, hparts.mpr hwithin⟩

/-- The limits do not see which NaNs a value has. -/
theorem Alike.fits_iff {options : Options} {depth : Nat} {v w : Value} (h : v.Alike w) :
    v.Fits options depth ↔ w.Fits options depth := by
  rw [← fits_quiet v, ← fits_quiet w, h]

end Alike

def ofSimple (n : UInt8) : Value :=
  if n = simpleFalse then .false
  else if n = simpleTrue then .true
  else if n = simpleNull then .null
  else if n = simpleUndefined then .undefined
  else .simple n

end Value

inductive Spells (mode : Mode) : Value → Bytes → Prop
  | unsigned (w : ArgumentWidth) (n : Nat) (hn : w.Holds n) (ha : mode.Admits .unsigned w n) :
      Spells mode (.unsigned (UInt64.ofNat n)) (Major.unsigned.spell w n)
  | negative (w : ArgumentWidth) (n : Nat) (hn : w.Holds n) (ha : mode.Admits .negative w n) :
      Spells mode (.negative (UInt64.ofNat n)) (Major.negative.spell w n)
  | bytes (w : ArgumentWidth) (b : Bytes) (hn : w.Holds b.length)
      (ha : mode.Admits .bytes w b.length) :
      Spells mode (.bytes b) (Major.bytes.spell w b.length ++ b)
  | openBytes (chunks : List (ArgumentWidth × Bytes)) (hl : mode = .lenient)
      (hn : ∀ c ∈ chunks, c.1.Holds c.2.length) :
      Spells mode (.bytes (chunks.flatMap (·.2)))
        (Major.bytes.opening ++ (chunks.flatMap Major.bytes.chunk ++ [breakByte]))
  | text (w : ArgumentWidth) (s : String) (hn : w.Holds (Bytes.ofText s).length)
      (ha : mode.Admits .text w (Bytes.ofText s).length) :
      Spells mode (.text s)
        (Major.text.spell w (Bytes.ofText s).length ++ Bytes.ofText s)
  /-- Every chunk of a text is a text by itself. -/
  | openText (s : String) (chunks : List (ArgumentWidth × Bytes)) (hl : mode = .lenient)
      (hn : ∀ c ∈ chunks, c.1.Holds c.2.length) (hs : Bytes.ofText s = chunks.flatMap (·.2))
      (hc : ∀ c ∈ chunks, ∃ t, c.2 = Bytes.ofText t) :
      Spells mode (.text s)
        (Major.text.opening ++ (chunks.flatMap Major.text.chunk ++ [breakByte]))
  | array (w : ArgumentWidth) (items : List (Value × Bytes))
      (hi : ∀ i ∈ items, Spells mode i.1 i.2) (hn : w.Holds items.length)
      (ha : mode.Admits .array w items.length) :
      Spells mode (.array (items.map (·.1)))
        (Major.array.spell w items.length ++ items.flatMap (·.2))
  | openArray (items : List (Value × Bytes)) (hl : mode = .lenient)
      (hi : ∀ i ∈ items, Spells mode i.1 i.2) :
      Spells mode (.array (items.map (·.1)))
        (Major.array.opening ++ (items.flatMap (·.2) ++ [breakByte]))
  | map (w : ArgumentWidth) (pairs : List ((Value × Value) × (Bytes × Bytes)))
      (hk : ∀ p ∈ pairs, Spells mode p.1.1 p.2.1) (hv : ∀ p ∈ pairs, Spells mode p.1.2 p.2.2)
      (hn : w.Holds pairs.length) (ha : mode.Admits .map w pairs.length) :
      Spells mode (.map (pairs.map (·.1)))
        (Major.map.spell w pairs.length ++ pairs.flatMap fun p => p.2.1 ++ p.2.2)
  | openMap (pairs : List ((Value × Value) × (Bytes × Bytes))) (hl : mode = .lenient)
      (hk : ∀ p ∈ pairs, Spells mode p.1.1 p.2.1) (hv : ∀ p ∈ pairs, Spells mode p.1.2 p.2.2) :
      Spells mode (.map (pairs.map (·.1)))
        (Major.map.opening ++ ((pairs.flatMap fun p => p.2.1 ++ p.2.2) ++ [breakByte]))
  | tag (w : ArgumentWidth) (n : Nat) (item : Value) (bs : Bytes) (hi : Spells mode item bs)
      (hn : w.Holds n) (ha : mode.Admits .tag w n) :
      Spells mode (.tag (UInt64.ofNat n) item) (Major.tag.spell w n ++ bs)
  /-- A simple value is in the initial byte or in a byte of its own. -/
  | simple (w : ArgumentWidth) (n : UInt8) (hw : w.bytes ≤ 1) (hn : w.Holds n.toNat)
      (ha : mode.Admits .special w n.toNat) :
      Spells mode (Value.ofSimple n) (Major.special.spell w n.toNat)
  | float (w : ArgumentWidth) (n : Nat) (d : Double) (hn : w.Holds n)
      (ha : mode.Admits .special w n) (hd : w.expand? n = some d) :
      Spells mode (.float d) (Major.special.spell w n)

section Special

theorem toUInt8_ofNat (n : Nat) : (UInt64.ofNat n).toUInt8 = UInt8.ofNat n := by
  apply UInt8.toNat_inj.mp
  rw [UInt64.toNat_toUInt8, UInt64.toNat_ofNat', UInt8.toNat_ofNat']
  omega

/-- The float of a head is what its argument expands to. -/
theorem float?_definite (w : ArgumentWidth) (n : Nat) :
    (Head.definite .special (UInt64.ofNat n) (1 + w.bytes)).float? = w.expand? n := by
  have hhalf : (UInt64.ofNat n).toUInt16 = UInt16.ofNat n := by
    apply UInt16.toNat_inj.mp
    rw [UInt64.toNat_toUInt16, UInt64.toNat_ofNat', UInt16.toNat_ofNat']
    omega
  have hsingle : (UInt64.ofNat n).toUInt32 = UInt32.ofNat n := by
    apply UInt32.toNat_inj.mp
    rw [UInt64.toNat_toUInt32, UInt64.toNat_ofNat', UInt32.toNat_ofNat']
    omega
  cases w with
  | inline | one | eight => rfl
  | two => exact congrArg (fun h => some (Double.ofHalf h)) hhalf
  | four => exact congrArg (fun s => some (Double.ofSingle s)) hsingle

/-- The simple value of a head is in its initial byte or in the one behind it. -/
theorem simple?_definite (w : ArgumentWidth) (n : Nat) :
    (Head.definite .special (UInt64.ofNat n) (1 + w.bytes)).simple? =
      if w.bytes ≤ 1 then some (UInt8.ofNat n) else none := by
  have hbyte := toUInt8_ofNat n
  cases w with
  | inline | one => exact congrArg some hbyte
  | two | four | eight => rfl

theorem expand?_eq_none_iff {w : ArgumentWidth} {n : Nat} :
    w.expand? n = none ↔ w.bytes ≤ 1 := by
  cases w <;> simp [ArgumentWidth.expand?, ArgumentWidth.bytes]

/-- Where the argument is no float it is a simple value. -/
theorem ofSpecial_definite (w : ArgumentWidth) (n : Nat) :
    Value.ofSpecial (Head.definite .special (UInt64.ofNat n) (1 + w.bytes)) =
      .ok (match w.expand? n with
        | some d => .float d
        | none => Value.ofSimple (UInt8.ofNat n)) := by
  unfold Value.ofSpecial
  rw [float?_definite, simple?_definite]
  cases h : w.expand? n with
  | none =>
    rw [if_pos (expand?_eq_none_iff.mp h)]
    rfl
  | some d => rfl

/-- A head of the special major that has a value spells it. -/
theorem spells_of_special {mode : Mode} {w : ArgumentWidth} {n : Nat} {v : Value}
    (hn : w.Holds n) (ha : mode.Admits .special w n)
    (hv : Value.ofSpecial (Head.definite .special (UInt64.ofNat n) (1 + w.bytes)) = .ok v) :
    Spells mode v (Major.special.spell w n) := by
  rw [ofSpecial_definite, Except.ok.injEq] at hv
  subst hv
  cases h : w.expand? n with
  | some d => exact .float w n d hn ha h
  | none =>
    have hw := expand?_eq_none_iff.mp h
    have hlt : n < 256 := by
      cases w <;> simp only [ArgumentWidth.bytes, ArgumentWidth.Holds] at hw hn <;> omega
    have hbyte : (UInt8.ofNat n).toNat = n := UInt8.toNat_ofNat_of_lt' hlt
    rw [← hbyte] at hn ha
    have hspells := Spells.simple w (UInt8.ofNat n) hw hn ha
    rwa [hbyte] at hspells

theorem ofSimple_leaf (n : UInt8) :
    (Value.ofSimple n).nesting = 0 ∧ (Value.ofSimple n).parts = [Value.ofSimple n] ∧
      ∀ options, (Value.ofSimple n).Within options := by
  unfold Value.ofSimple
  split_ifs <;> exact ⟨rfl, rfl, fun _ => trivial⟩

end Special

section Text

/-- Bytes are read as a text just if they are its encoding. -/
theorem toText?_eq_some_iff {bs : Bytes} {s : String} :
    Bytes.toText? bs = some s ↔ Bytes.ofText s = bs := by
  unfold Bytes.toText? String.fromUTF8? Bytes.ofText
  constructor
  · intro h
    split at h
    · cases h
      rfl
    · cases h
  · rintro rfl
    exact dif_pos s.isValidUTF8

theorem textOf_eq_ok_iff {bs : Bytes} {s : String} : textOf bs = .ok s ↔ Bytes.ofText s = bs := by
  rw [← toText?_eq_some_iff, textOf]
  cases h : Bytes.toText? bs <;> simp

theorem isNone_toText?_iff {bs : Bytes} :
    (Bytes.toText? bs).isNone = false ↔ ∃ s, bs = Bytes.ofText s := by
  rw [Option.isNone_eq_false_iff, Option.isSome_iff_exists]
  exact exists_congr fun s => toText?_eq_some_iff.trans eq_comm

end Text

/-- The bytes that lenient mode reads as a value, where any NaN may stand for any other. -/
def Encodes (v : Value) (bs : Bytes) : Prop := ∃ w : Value, w.Alike v ∧ Spells .lenient w bs

/-- The bytes of a value do not begin with a break. -/
theorem Spells.noBreak {mode : Mode} {v : Value} {bs : Bytes} (h : Spells mode v bs) :
    NoBreak bs := by
  cases h with
  | unsigned w n hn | negative w n hn | simple w n hw hn | float w n d hn =>
    exact noBreak_spell _ hn
  | bytes w b hn | text w s hn => exact (noBreak_spell _ hn).append _
  | array w items hi hn | map w pairs hk hv hn => exact (noBreak_spell _ hn).append _
  | tag w n item bs hi hn => exact (noBreak_spell _ hn).append _
  | openBytes | openText | openArray | openMap => exact (noBreak_opening (by decide)).append _

end CborCodec
