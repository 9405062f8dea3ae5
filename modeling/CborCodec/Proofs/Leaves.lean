import CborCodec.Proofs.Canonical
import CborCodec.Proofs.Copying
/-!
What is written in one call without asking the input: leaves, leaves behind tags, and strings in
chunks. For each there are the bytes, the value they are read back as, and the condition on which
they are written at all.
-/

namespace CborCodec

/-- What is spelled in strict mode is spelled in any. -/
theorem Mode.Admits.of_strict {mode : Mode} {m : Major} {w : ArgumentWidth} {n : Nat}
    (h : Mode.strict.Admits m w n) : mode.Admits m w n := by
  cases mode with
  | lenient => trivial
  | canonical => exact h.1
  | strict => exact h

/-- What strict mode reads is read in every mode as the same value. -/
theorem Spells.of_strict {mode : Mode} {v : Value} {bs : Bytes} (h : Spells .strict v bs) :
    Spells mode v bs := by
  induction h with
  | unsigned w n hn ha => exact .unsigned w n hn ha.of_strict
  | negative w n hn ha => exact .negative w n hn ha.of_strict
  | bytes w b hn ha => exact .bytes w b hn ha.of_strict
  | text w s hn ha => exact .text w s hn ha.of_strict
  | openBytes chunks hl | openText s chunks hl | openArray items hl | openMap pairs hl => cases hl
  | array w items hi hn ha ih => exact .array w items ih hn ha.of_strict
  | map w pairs hk hv hn ha ihk ihv => exact .map w pairs ihk ihv hn ha.of_strict
  | tag w n item bs hi hn ha ih => exact .tag w n item bs ih hn ha.of_strict
  | simple w n hw hn ha => exact .simple w n hw hn ha.of_strict
  | float w n d hn ha hd => exact .float w n d hn ha.of_strict hd

namespace Value

def ofInt : Int → Value
  | .ofNat n => unsigned (UInt64.ofNat n)
  | .negSucc n => negative (UInt64.ofNat n)

theorem emit_ofInt {τ : Type} [Output τ] (n : Int) :
    ((ofInt n).emit : EStateM Error τ Unit) = emitInteger n := by
  cases n <;> rfl

mutual

/-- The value with the constants in the place of the simple values that stand for them. -/
def named : Value → Value
  | array items => array (namedItems items)
  | map pairs => map (namedPairs pairs)
  | tag number item => tag number (named item)
  | simple n => ofSimple n
  | v => v

def namedItems : List Value → List Value
  | [] => []
  | item :: items => named item :: namedItems items

def namedPairs : List (Value × Value) → List (Value × Value)
  | [] => []
  | (key, value) :: pairs => (named key, named value) :: namedPairs pairs

end

theorem namedItems_eq (items : List Value) : namedItems items = items.map named := by
  induction items with
  | nil => rfl
  | cons item items ih => rw [namedItems, ih, List.map_cons]

theorem namedPairs_eq (pairs : List (Value × Value)) :
    namedPairs pairs = pairs.map fun p => (p.1.named, p.2.named) := by
  induction pairs with
  | nil => rfl
  | cons pair pairs ih => rw [namedPairs, ih, List.map_cons]

theorem avoids_ofSimple {n : UInt8} (h : n < 24 ∨ 32 ≤ n) : (ofSimple n).Avoids 20 := by
  by_cases hplain : n < 20 ∨ 32 ≤ n
  · rw [ofSimple_of_avoids hplain, avoids_simple]
    exact hplain
  · rw [not_or, UInt8.not_lt] at hplain
    rcases eq_constant hplain.1 (h.resolve_right hplain.2) with rfl | rfl | rfl | rfl
    · exact avoids_leaf (v := .false) rfl (by simp)
    · exact avoids_leaf (v := .true) rfl (by simp)
    · exact avoids_leaf (v := .null) rfl (by simp)
    · exact avoids_leaf (v := .undefined) rfl (by simp)

/-- Naming the constants leaves the encoding as it is. -/
theorem wire_named {v : Value} (h : v.Avoids 24) : v.named.Avoids 20 ∧ v.named.wire = v.wire := by
  induction v with
  | array items ih =>
    rw [avoids_array] at h
    rw [named, namedItems_eq, avoids_array, List.forall_mem_map, wire, wire, wireItems_eq,
      wireItems_eq, List.length_map, List.flatMap_map]
    exact ⟨fun i hi => (ih i hi (h i hi)).1,
      congrArg _ (List.flatMap_congr fun i hi => (ih i hi (h i hi)).2)⟩
  | map pairs ih =>
    rw [avoids_map] at h
    have hkey (p) (hp : p ∈ pairs) := (ih p hp).1 (h p hp).1
    have hvalue (p) (hp : p ∈ pairs) := (ih p hp).2 (h p hp).2
    rw [named, namedPairs_eq, avoids_map, List.forall_mem_map, wire, wire, wirePairs_eq,
      wirePairs_eq, List.length_map, List.flatMap_map]
    refine ⟨fun p hp => ⟨(hkey p hp).1, (hvalue p hp).1⟩, congrArg _ ?_⟩
    apply List.flatMap_congr
    intro p hp
    rw [(hkey p hp).2, (hvalue p hp).2]
  | tag n item ih =>
    rw [avoids_tag] at h
    rw [named, avoids_tag, wire, wire, (ih h).2]
    exact ⟨(ih h).1, rfl⟩
  | simple n =>
    rw [avoids_simple] at h
    obtain ⟨hholds, hadmits⟩ := admits_simple h
    exact ⟨avoids_ofSimple h, (wire_ofSimple (by split_ifs <;> decide) hholds hadmits).2⟩
  | _ => exact ⟨avoids_leaf rfl (by simp [named]), rfl⟩

/-- The encoding of a value, which may have simple values for constants, is read back with the
constants themselves, and with the quiet NaN for any other. -/
theorem spells_named {v : Value} (hv : v.Avoids 24) (hb : v.wire.length < 2 ^ 64) :
    Spells .strict v.named.quiet v.wire := by
  obtain ⟨havoids, hwire⟩ := wire_named hv
  rw [← hwire] at hb ⊢
  exact spells_wire havoids hb

end Value

namespace Leaf

/-- The value as which a leaf is written, if it is one by itself. -/
def value? : Leaf → Option Value
  | integer _ n => some (Value.ofInt n.val)
  | double d => some (.float d)
  | single s => some (.float (Double.ofSingle s.bits))
  | bool b => some (if b then .true else .false)
  | text s => some (.text s)
  | bytes b => some (.bytes b)
  | value v => some v
  | simple n => some (.simple n)
  | half _ | option _ | argument .. | list _ => none

/-- The leaf is no bare head, nor is one inside it. -/
inductive Whole : Leaf → Prop
  | plain {l : Leaf} {v : Value} (h : l.value? = some v) : Whole l
  | half (bits : UInt16) : Whole (half bits)
  | none : Whole (option none)
  | some {l : Leaf} (h : Whole l) : Whole (option (some l))
  | list {elements : List Leaf} (h : ∀ l ∈ elements, Whole l) : Whole (list elements)

mutual

def wire : Leaf → Bytes
  | half bits => Head.encodeHalf bits
  | option inner => wireOption inner
  | argument major n => Head.encode major n
  | list elements => Head.encode .array (UInt64.ofNat elements.length) ++ wireElements elements
  | l => (l.value?.map Value.wire).getD []

def wireOption : Option Leaf → Bytes
  | none => Value.undefined.wire
  | some l => wire l

def wireElements : List Leaf → Bytes
  | [] => []
  | l :: ls => wire l ++ wireElements ls

end

mutual

/-- The value as which a leaf is read back. Of the NaNs only half precision keeps its pattern. -/
def denote : Leaf → Value
  | half bits => .float (Double.ofHalf bits)
  | option inner => denoteOption inner
  | list elements => .array (denoteElements elements)
  | l => (l.value?.map fun v => v.named.quiet).getD .undefined

def denoteOption : Option Leaf → Value
  | none => .undefined
  | some l => denote l

def denoteElements : List Leaf → List Value
  | [] => []
  | l :: ls => denote l :: denoteElements ls

end

mutual

def Encodable : Leaf → Prop
  | option inner => EncodableOption inner
  | list elements => EncodableElements elements
  | l => ∀ v, l.value? = some v → v.Avoids 24

def EncodableOption : Option Leaf → Prop
  | none => True
  | some l => Encodable l

def EncodableElements : List Leaf → Prop
  | [] => True
  | l :: ls => Encodable l ∧ EncodableElements ls

end

theorem wireElements_eq (elements : List Leaf) : wireElements elements = elements.flatMap wire := by
  induction elements with
  | nil => rfl
  | cons l ls ih => rw [wireElements, ih, List.flatMap_cons]

theorem denoteElements_eq (elements : List Leaf) :
    denoteElements elements = elements.map denote := by
  induction elements with
  | nil => rfl
  | cons l ls ih => rw [denoteElements, ih, List.map_cons]

theorem encodableElements_iff {elements : List Leaf} :
    EncodableElements elements ↔ ∀ l ∈ elements, l.Encodable := by
  induction elements with
  | nil => simp [EncodableElements]
  | cons l ls ih => rw [EncodableElements, ih, List.forall_mem_cons]

variable {τ : Type} [Output τ] [Recording τ] {l : Leaf} {v : Value}

omit [Recording τ] in
theorem elementCalls_eq (elements : List Leaf) :
    (elementCalls elements : List (EStateM Error τ Unit)) = elements.map emit := by
  induction elements with
  | nil => rfl
  | cons l ls ih => rw [elementCalls, ih, List.map_cons]

omit [Recording τ] in
/-- A leaf that is one value is written and read back as that value is. -/
theorem plain_eq (h : l.value? = some v) :
    (l.emit : EStateM Error τ Unit) = v.emit ∧ l.wire = v.wire ∧ l.denote = v.named.quiet ∧
      (l.Encodable ↔ v.Avoids 24) := by
  cases l with
  | half | option | argument | list => cases h
  | integer t n =>
    cases h
    exact ⟨(emitTyped_eq t n).trans (Value.emit_ofInt n.val).symm, rfl, rfl,
      by simp [Encodable, value?]⟩
  | bool b =>
    cases h
    cases b <;> exact ⟨rfl, rfl, rfl, by simp [Encodable, value?]⟩
  | _ =>
    cases h
    exact ⟨rfl, rfl, rfl, by simp [Encodable, value?]⟩

/-- A leaf without reserved simple values is written as its bytes. -/
theorem emits (h : l.Whole) :
    Emits (Output.putHead (τ := τ)) l.emit l.Encodable l.wire () := by
  induction h with
  | @plain l v h =>
    obtain ⟨hemit, hwire, -, hencodable⟩ := plain_eq (τ := τ) h
    rw [hemit, hwire]
    exact (v.emits put_eq).congr hencodable.symm
  | half bits => exact (Emits.piece _).congr (by simp [Encodable, value?])
  | none => exact emits_checked (encodeSimple_inline (by decide))
  | some _ ih => exact ih
  | @list elements _ ih =>
    have hlen : elements.length = elements.length * Container.array.slots := (Nat.mul_one _).symm
    rw [emit, elementCalls_eq, wire, wireElements_eq, Encodable, encodableElements_iff]
    exact .container hlen ih

/-- What is written for a leaf is read back as what it denotes. -/
theorem spells (h : l.Whole) (hl : l.Encodable) (hb : l.wire.length < 2 ^ 64) :
    Spells .strict l.denote l.wire := by
  induction h with
  | @plain l v h =>
    obtain ⟨-, hwire, hdenote, hencodable⟩ := plain_eq (τ := GrowingOutput) h
    rw [hwire] at hb ⊢
    rw [hdenote]
    exact Value.spells_named (hencodable.mp hl) hb
  | half bits =>
    have hadmits : Mode.strict.Admits .special .two bits.toNat := by
      refine ⟨?_, fun _ => shortestFloat_of_le (by decide)⟩
      rw [Narrowest, if_pos rfl]
      intro hw
      cases hw
    rw [wire, encodeHalf_eq_spell]
    exact .float .two bits.toNat _ bits.toNat_lt hadmits (expand?_two bits)
  | none => exact spells_ofSimple (n := simpleUndefined) (by decide)
  | some _ ih => exact ih hl hb
  | @list elements _ ih =>
    rw [Encodable, encodableElements_iff] at hl
    rw [wire, wireElements_eq, List.length_append] at hb
    have hspells : ∀ l ∈ elements, Spells .strict l.denote l.wire := by
      intro l hmem
      have hle := length_le_of_mem_flatMap (f := wire) hmem
      exact ih l hmem (hl l hmem) (by omega)
    have hlen : elements.length < 2 ^ 64 := by
      have hcount := length_mul_le_flatMap fun l hmem => (hspells l hmem).noBreak.length_pos
      omega
    have h := Spells.array (.shortest elements.length) (elements.map fun l => (l.denote, l.wire))
      (List.forall_mem_map.mpr hspells)
    rw [List.length_map, List.map_map, List.flatMap_map] at h
    rw [wire, wireElements_eq, denote, denoteElements_eq, encode_ofNat _ hlen]
    exact h (ArgumentWidth.holds_shortest hlen) (admits_shortest (by decide))

end Leaf

namespace TagNumber

/-- The tag, and zero in the place of what is none. -/
def word (t : TagNumber) : UInt64 :=
  t.toWord?.getD 0

end TagNumber

section Tagged

variable {τ : Type} [Output τ]

def wireTags (tags : List TagNumber) : Bytes :=
  tags.flatMap fun t => Head.encode .tag t.word

/-- Tags are written in order, if all of them are tag numbers. -/
theorem emits_tags (tags : List TagNumber) :
    Emits (Output.putHead (τ := τ)) (Program.emitTags tags)
      (∀ t ∈ tags, (t.toWord?).isSome) (wireTags tags) () := by
  have hcons (t : TagNumber) (ts : List TagNumber) :
      (Program.emitTags (t :: ts) : EStateM Error τ Unit) =
        t.toWord?.elim (throw .itemValueOutOfRange) (emitArgument .tag) >>= fun _ =>
          Program.emitTags ts := by
    rw [Program.emitTags]
    cases t.toWord? <;> rfl
  refine Emits.each (P := fun t : TagNumber => t.toWord?.isSome = true) rfl hcons fun t _ => ?_
  cases h : t.toWord? with
  | some number =>
    rw [TagNumber.word, h]
    exact (Emits.piece _).congr (by simp)
  | none => exact ⟨fun h => (by cases h), fun _ => ⟨[], rfl, List.nil_prefix⟩⟩

def taggedWith (tags : List TagNumber) (v : Value) : Value :=
  tags.foldr (fun t v => .tag t.word v) v

/-- Heads of tags in front of a value spell the value behind these tags. -/
theorem spells_tagged {v : Value} {bs : Bytes} (tags : List TagNumber)
    (h : Spells .strict v bs) : Spells .strict (taggedWith tags v) (wireTags tags ++ bs) := by
  induction tags with
  | nil => exact h
  | cons t tags ih =>
    have htag := Spells.tag (.shortest t.word.toNat) t.word.toNat _ _ ih
      (ArgumentWidth.holds_shortest t.word.toNat_lt) (admits_shortest (by decide))
    rw [UInt64.ofNat_toNat] at htag
    rw [wireTags, List.flatMap_cons, List.append_assoc, encode_eq_spell]
    exact htag

end Tagged

section Streams

namespace ChunkCall

variable {α : Type} {calls : List (ChunkCall α)}

def chunk? : ChunkCall α → Option α
  | chunk c | attempt c => some c
  | fail => none

def Propagates : ChunkCall α → Prop
  | attempt _ => False
  | chunk _ | fail => True

def Plain : ChunkCall α → Prop
  | chunk _ => True
  | attempt _ | fail => False

/-- Calls that can neither fail nor ignore a failure are chunks. -/
theorem exists_chunks (h : ∀ c ∈ calls, c.Plain) : ∃ chunks : List α, calls = chunks.map chunk := by
  induction calls with
  | nil => exact ⟨[], rfl⟩
  | cons call calls ih =>
    rw [List.forall_mem_cons] at h
    obtain ⟨chunks, rfl⟩ := ih h.2
    cases call with
    | chunk c => exact ⟨c :: chunks, rfl⟩
    | attempt | fail => exact absurd h.1 id

theorem filterMap_chunks (chunks : List α) : (chunks.map chunk).filterMap chunk? = chunks := by
  rw [List.filterMap_map]
  exact List.filterMap_some

end ChunkCall

variable {τ α : Type} [Output τ] {m : Major} (payload : α → Bytes) {calls : List (ChunkCall α)}

def wireStream (m : Major) (payload : α → Bytes) (calls : List (ChunkCall α)) : Bytes :=
  m.opening ++ ((calls.filterMap ChunkCall.chunk?).flatMap (fun c =>
    Head.encode m (UInt64.ofNat (payload c).length) ++ payload c) ++ [breakByte])

theorem encodeIndefinite_eq (h : m = .bytes ∨ m = .text ∨ m = .array ∨ m = .map) :
    Head.encodeIndefinite m = .ok m.opening := by
  have hbits := @initialBits_or m 31 (by decide)
  have heq : Head.encodeIndefinite m = .ok [m.initialBits ||| 31] := by
    rcases h with rfl | rfl | rfl | rfl <;> rfl
  rw [heq]
  exact congrArg (fun b => Except.ok [b]) hbits

/-- Chunks are written between the opening of their string and the break. -/
theorem emits_stream [Recording τ] (hm : m = .bytes ∨ m = .text) (h : ∀ c ∈ calls, c.Plain) :
    Emits (Output.putHead (τ := τ))
      (Program.emitStream m (fun c => emitString m (payload c)) calls) True
      (wireStream m payload calls) () := by
  have hopening := encodeIndefinite_eq (m := m) (by rcases hm with rfl | rfl <;> simp)
  obtain ⟨chunks, rfl⟩ := ChunkCall.exists_chunks h
  have hchunks : Emits (Output.putHead (τ := τ))
      (Program.emitChunks (fun c => emitString m (payload c)) (chunks.map .chunk))
      (∀ _ ∈ chunks, True) _ () :=
    Emits.each (g := fun cs => Program.emitChunks _ (cs.map .chunk)) rfl (fun _ _ => rfl)
      fun c _ => emits_string put_eq m (payload c)
  rw [wireStream, ChunkCall.filterMap_chunks]
  exact ((emits_checked hopening).bind (hchunks.bind (.piece [breakByte]))).congr (by simp)

/-- A string is ended only if no call in it fails, unless the failure is passed over. -/
theorem plain_of_emitStream {emit : α → EStateM Error τ Unit} {s t : τ}
    (hp : ∀ c ∈ calls, c.Propagates) (h : Program.emitStream m emit calls s = .ok () t) :
    ∀ c ∈ calls, c.Plain := by
  obtain ⟨_, u, -, hrest⟩ := bind_eq_ok.mp h
  obtain ⟨_, v, hcalls, -⟩ := bind_eq_ok.mp hrest
  clear h hrest
  induction calls generalizing u with
  | nil => simp
  | cons call calls ih =>
    rw [List.forall_mem_cons] at hp ⊢
    obtain ⟨_, w, hcall, hrest⟩ := bind_eq_ok.mp hcalls
    refine ⟨?_, ih hp.2 w hrest⟩
    cases call with
    | chunk c => trivial
    | attempt c => exact absurd hp.1 id
    | fail => cases hcall

theorem length_payload_lt (chunks : List α)
    (h : (chunks.flatMap fun c =>
      Head.encode m (UInt64.ofNat (payload c).length) ++ payload c).length < 2 ^ 64) :
    ∀ c ∈ chunks, (payload c).length < 2 ^ 64 := by
  intro c hc
  have hle := length_le_of_mem_flatMap
    (f := fun c => Head.encode m (UInt64.ofNat (payload c).length) ++ payload c) hc
  rw [List.length_append] at hle
  omega

/-- The chunks of a stream have their lengths in the narrowest width. -/
theorem flatMap_chunk_eq {chunks : List α} (h : ∀ c ∈ chunks, (payload c).length < 2 ^ 64) :
    chunks.flatMap (fun c => Head.encode m (UInt64.ofNat (payload c).length) ++ payload c) =
      (chunks.map fun c => (ArgumentWidth.shortest (payload c).length, payload c)).flatMap
        m.chunk := by
  rw [List.flatMap_map]
  apply List.flatMap_congr
  intro c hc
  rw [encode_ofNat _ (h c hc)]
  rfl

end Streams

end CborCodec
