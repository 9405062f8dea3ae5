import CborCodec.Proofs.Heads
import Mathlib.Data.ENat.Basic
/-!
The grammar of items. An item is a head with what it announces: nothing, a payload, a number of
items, or a run up to the break. The grammar knows no stack and no order of checks; it has the mode
as a parameter, the greatest total payload of a string, and the greatest definite count of a
container, which is infinite where the format itself is meant.
-/

namespace CborCodec

/-- A chunk of a string: its payload behind a definite head of the string's major. -/
def Major.chunk (m : Major) (c : ArgumentWidth × Bytes) : Bytes :=
  m.spell c.1 c.2.length ++ c.2

inductive Item (mode : Mode) (maxString : Nat) (maxCount : ℕ∞) : Bytes → Prop
  /-- Integers, simple values and floats. -/
  | bare (m : Major) (w : ArgumentWidth) (n : Nat)
      (hm : m = .unsigned ∨ m = .negative ∨ m = .special) (hn : w.Holds n)
      (ha : mode.Admits m w n) : Item mode maxString maxCount (m.spell w n)
  | string (m : Major) (w : ArgumentWidth) (payload : Bytes) (hm : m = .bytes ∨ m = .text)
      (hn : w.Holds payload.length) (ha : mode.Admits m w payload.length)
      (hs : payload.length ≤ maxString) :
      Item mode maxString maxCount (m.spell w payload.length ++ payload)
  | chunked (m : Major) (chunks : List (ArgumentWidth × Bytes)) (hm : m = .bytes ∨ m = .text)
      (hl : mode = .lenient) (hn : ∀ c ∈ chunks, c.1.Holds c.2.length)
      (hs : (chunks.map (·.2.length)).sum ≤ maxString) :
      Item mode maxString maxCount (m.opening ++ (chunks.flatMap m.chunk ++ [breakByte]))
  | array (w : ArgumentWidth) (items : List Bytes)
      (hi : ∀ i ∈ items, Item mode maxString maxCount i) (hn : w.Holds items.length)
      (ha : mode.Admits .array w items.length) (hc : (items.length : ℕ∞) ≤ maxCount) :
      Item mode maxString maxCount (Major.array.spell w items.length ++ items.flatten)
  | openArray (items : List Bytes) (hl : mode = .lenient)
      (hi : ∀ i ∈ items, Item mode maxString maxCount i) :
      Item mode maxString maxCount (Major.array.opening ++ (items.flatten ++ [breakByte]))
  /-- A map declares pairs, each of which is two items. -/
  | map (w : ArgumentWidth) (n : Nat) (items : List Bytes)
      (hi : ∀ i ∈ items, Item mode maxString maxCount i) (hp : items.length = 2 * n)
      (hn : w.Holds n) (ha : mode.Admits .map w n) (hc : (n : ℕ∞) ≤ maxCount) :
      Item mode maxString maxCount (Major.map.spell w n ++ items.flatten)
  | openMap (items : List Bytes) (hl : mode = .lenient)
      (hi : ∀ i ∈ items, Item mode maxString maxCount i) (hp : items.length % 2 = 0) :
      Item mode maxString maxCount (Major.map.opening ++ (items.flatten ++ [breakByte]))
  | tag (w : ArgumentWidth) (n : Nat) (item : Bytes) (hi : Item mode maxString maxCount item)
      (hn : w.Holds n) (ha : mode.Admits .tag w n) :
      Item mode maxString maxCount (Major.tag.spell w n ++ item)

def NoBreak (bs : Bytes) : Prop := ∃ b rest, bs = b :: rest ∧ b ≠ breakByte

theorem NoBreak.append {bs : Bytes} (h : NoBreak bs) (more : Bytes) : NoBreak (bs ++ more) := by
  obtain ⟨b, rest, rfl, hb⟩ := h
  exact ⟨b, rest ++ more, rfl, hb⟩

theorem NoBreak.length_pos {bs : Bytes} (h : NoBreak bs) : 0 < bs.length := by
  obtain ⟨b, rest, rfl, -⟩ := h
  exact Nat.succ_pos _

/-- Only additional information 31 of the special major is a break. -/
theorem initialByte_ne_break {m : Major} {info : Nat} (h : info < 32)
    (hb : m ≠ .special ∨ info ≠ 31) : m.initialByte info ≠ breakByte := by
  intro he
  have hto : m.number * 32 + info = 255 := by
    rw [← m.toNat_initialByte h, he]
    rfl
  have hlt := m.number_lt
  rcases hb with hb | hb
  · have hm := m.ofNumber_number
    rw [show m.number = 7 by omega] at hm
    exact hb hm.symm
  · omega

theorem noBreak_spell (m : Major) {w : ArgumentWidth} {n : Nat} (h : w.Holds n) :
    NoBreak (m.spell w n) := by
  refine ⟨_, _, rfl, initialByte_ne_break (ArgumentWidth.info_lt h) (Or.inr ?_)⟩
  cases w <;> simp only [ArgumentWidth.Holds, ArgumentWidth.info] at h ⊢ <;> omega

theorem noBreak_opening {m : Major} (h : m ≠ .special) : NoBreak m.opening :=
  ⟨_, _, rfl, initialByte_ne_break (by decide) (Or.inl h)⟩

namespace Item

variable {mode : Mode} {maxString : Nat} {maxCount : ℕ∞} {bs : Bytes}

/-- No item begins with a break. -/
theorem noBreak (h : Item mode maxString maxCount bs) : NoBreak bs := by
  cases h with
  | bare m w n hm hn ha => exact noBreak_spell m hn
  | string m w payload hm hn ha hs => exact (noBreak_spell m hn).append _
  | chunked m chunks hm hl hn hs =>
    refine (noBreak_opening ?_).append _
    rintro rfl
    rcases hm with hm | hm <;> cases hm
  | array w items hi hn ha hc => exact (noBreak_spell _ hn).append _
  | openArray items hl hi => exact (noBreak_opening (by decide)).append _
  | map w n items hi hp hn ha hc => exact (noBreak_spell _ hn).append _
  | openMap items hl hi hp => exact (noBreak_opening (by decide)).append _
  | tag w n item hi hn ha => exact (noBreak_spell _ hn).append _

/-- Without a limit on counts there are at least the items that there are with one. -/
theorem unlimited (h : Item mode maxString maxCount bs) : Item mode maxString ⊤ bs := by
  induction h with
  | bare m w n hm hn ha => exact .bare m w n hm hn ha
  | string m w payload hm hn ha hs => exact .string m w payload hm hn ha hs
  | chunked m chunks hm hl hn hs => exact .chunked m chunks hm hl hn hs
  | array w items _ hn ha _ ih => exact .array w items ih hn ha le_top
  | openArray items hl _ ih => exact .openArray items hl ih
  | map w n items _ hp hn ha _ ih => exact .map w n items ih hp hn ha le_top
  | openMap items hl _ hp ih => exact .openMap items hl ih hp
  | tag w n item _ hn ha ih => exact .tag w n item ih hn ha

end Item

/-- Where each element has as many bytes, all of them have as many times their number. -/
theorem length_mul_le_flatMap {α : Type} {f : α → Bytes} {items : List α} {k : Nat}
    (h : ∀ i ∈ items, k ≤ (f i).length) : items.length * k ≤ (items.flatMap f).length := by
  induction items with
  | nil => simp
  | cons item items ih =>
    rw [List.forall_mem_cons] at h
    have hle := ih h.2
    rw [List.length_cons, List.flatMap_cons, List.length_append, Nat.succ_mul]
    omega

theorem length_le_flatten {items : List Bytes} (h : ∀ i ∈ items, 0 < i.length) :
    items.length ≤ items.flatten.length := by
  have hle := length_mul_le_flatMap (f := id) h
  rwa [Nat.succ_eq_add_one, Nat.zero_add, Nat.mul_one, List.flatMap_id] at hle

theorem length_le_of_mem_flatten {items : List Bytes} {item : Bytes} (h : item ∈ items) :
    item.length ≤ items.flatten.length :=
  (List.sublist_flatten_of_mem h).length_le

theorem length_le_of_mem_flatMap {α : Type} {f : α → Bytes} {items : List α} {i : α}
    (h : i ∈ items) : (f i).length ≤ (items.flatMap f).length := by
  rw [List.flatMap_def]
  exact length_le_of_mem_flatten (List.mem_map_of_mem h)

theorem sum_chunks_le (m : Major) (chunks : List (ArgumentWidth × Bytes)) :
    (chunks.map (·.2.length)).sum ≤ (chunks.flatMap m.chunk).length := by
  induction chunks with
  | nil => exact Nat.zero_le _
  | cons c chunks ih =>
    rw [List.map_cons, List.sum_cons, List.flatMap_cons, List.length_append, Major.chunk,
      List.length_append]
    omega

/-- A limit is none where it exceeds the bytes: payloads are among them, and each item of a
container has a byte at least. -/
theorem Item.bounded {mode : Mode} {maxString maxString' maxCount : Nat} {bs : Bytes}
    (h : Item mode maxString ⊤ bs) (hs : maxString ≤ maxString' ∨ bs.length ≤ maxString')
    (hb : bs.length ≤ maxCount) : Item mode maxString' maxCount bs := by
  -- The items of a container are no more than its bytes, and none is longer than all of it.
  induction h with
  | bare m w n hm hn ha => exact .bare m w n hm hn ha
  | string m w payload hm hn ha hp =>
    rw [List.length_append] at hs
    exact .string m w payload hm hn ha (by omega)
  | chunked m chunks hm hl hn hp =>
    have hsum := sum_chunks_le m chunks
    simp only [List.length_append] at hs
    exact .chunked m chunks hm hl hn (by omega)
  | array w items hi hn ha _ ih =>
    rw [List.length_append] at hs hb
    have hcount := length_le_flatten fun i hmem => (hi i hmem).noBreak.length_pos
    refine .array w items (fun i hmem => ?_) hn ha (by exact_mod_cast (by omega))
    have hle := length_le_of_mem_flatten hmem
    exact ih i hmem (by omega) (by omega)
  | openArray items hl hi ih =>
    refine .openArray items hl fun i hmem => ?_
    simp only [List.length_append] at hs hb
    have hle := length_le_of_mem_flatten hmem
    exact ih i hmem (by omega) (by omega)
  | map w n items hi hp hn ha _ ih =>
    rw [List.length_append] at hs hb
    have hcount := length_le_flatten fun i hmem => (hi i hmem).noBreak.length_pos
    refine .map w n items (fun i hmem => ?_) hp hn ha (by exact_mod_cast (by omega))
    have hle := length_le_of_mem_flatten hmem
    exact ih i hmem (by omega) (by omega)
  | openMap items hl hi hp ih =>
    refine .openMap items hl (fun i hmem => ?_) hp
    simp only [List.length_append] at hs hb
    have hle := length_le_of_mem_flatten hmem
    exact ih i hmem (by omega) (by omega)
  | tag w n item _ hn ha ih =>
    rw [List.length_append] at hs hb
    exact .tag w n item (ih (by omega) (by omega)) hn ha

theorem Item.limited {mode : Mode} {maxString maxCount : Nat} {bs : Bytes}
    (h : Item mode maxString ⊤ bs) (hb : bs.length ≤ maxCount) :
    Item mode maxString maxCount bs :=
  h.bounded (Or.inl le_rfl) hb

end CborCodec
