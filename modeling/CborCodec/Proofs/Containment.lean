import CborCodec.Proofs.Recognition
import Mathlib.Logic.Relation
/-!
Items inside items. A container is a head and the items that the head counts or a break ends. Two
items never begin the same bytes, since a walk over the bytes ends at one place only; so a
container is split into its items in one way, and whatever mode and limits hold for an item hold
for all items inside it.
-/

namespace CborCodec

def Options.widest : Options where
  mode := .lenient
  maxStringSize := 0xFFFFFFFFFFFFFFFF
  maxItems := 0xFFFFFFFFFFFFFFFF

/-- An item of the format, whatever is asked of it besides. -/
abbrev AnyItem (bs : Bytes) : Prop := WellFormed .widest bs

theorem toNat_le_widest (n : UInt64) : n.toNat ≤ Options.widest.maxStringSize.toNat :=
  Nat.le_of_lt_succ n.toNat_lt

def Head.count (h : Head) : Nat :=
  match h.major with
  | .array => h.value.toNat
  | .map => 2 * h.value.toNat
  | .tag => 1
  | _ => 0

/-- The bytes are a head with the items that follow it: as many as it counts, or in a container
of indefinite length as many as come before the break. -/
inductive Elements : Head → List Bytes → Bytes → Prop
  | counted {h : Head} {lead : Bytes} {items : List Bytes} (hs : h.Spelled lead)
      (hd : h.indefinite = false) (hc : items.length = h.count) (hi : ∀ i ∈ items, AnyItem i) :
      Elements h items (lead ++ items.flatten)
  | opened {m : Major} {items : List Bytes} (hm : m = .array ∨ m = .map)
      (hi : ∀ i ∈ items, AnyItem i) :
      Elements ⟨m, true, 1, 0⟩ items (m.opening ++ (items.flatten ++ [breakByte]))

/-- The second item is an element of the first, a key or a value of it, or what its tag is on. -/
def Encloses (whole part : Bytes) : Prop := ∃ h items, Elements h items whole ∧ part ∈ items

def Inside : Bytes → Bytes → Prop := Relation.ReflTransGen Encloses

/-- The bytes are a string of so many bytes, in one piece or in all its chunks together. -/
inductive Payload : Nat → Bytes → Prop
  | whole {m : Major} {w : ArgumentWidth} {payload : Bytes} (hm : m = .bytes ∨ m = .text)
      (hn : w.Holds payload.length) : Payload payload.length (m.spell w payload.length ++ payload)
  | chunked {m : Major} {chunks : List (ArgumentWidth × Bytes)} (hm : m = .bytes ∨ m = .text)
      (hn : ∀ c ∈ chunks, c.1.Holds c.2.length) :
      Payload (chunks.map (·.2.length)).sum
        (m.opening ++ (chunks.flatMap m.chunk ++ [breakByte]))

section Unambiguous

variable {mode : Mode} {maxString : Nat} {maxCount : ℕ∞} {bs r r' : Bytes}

/-- What passes any mode and limits is an item of the format. -/
theorem Item.any (h : Item mode maxString maxCount bs)
    (hs : maxString ≤ Options.widest.maxStringSize.toNat) : AnyItem bs := by
  have hcount {w : ArgumentWidth} {n : Nat} (hn : w.Holds n) :
      (n : ℕ∞) ≤ (Options.widest.maxItems.toNat : ℕ∞) := by
    have hlt := ArgumentWidth.lt_of_holds hn
    exact_mod_cast Nat.le_of_lt_succ hlt
  induction h with
  | bare m w n hm hn ha => exact .bare m w n hm hn trivial
  | string m w payload hm hn ha hp => exact .string m w payload hm hn trivial (hp.trans hs)
  | chunked m chunks hm hl hn hp => exact .chunked m chunks hm rfl hn (hp.trans hs)
  | array w items hi hn ha hc ih => exact .array w items ih hn trivial (hcount hn)
  | openArray items hl hi ih => exact .openArray items rfl ih
  | map w n items hi hp hn ha hc ih => exact .map w n items ih hp hn trivial (hcount hn)
  | openMap items hl hi hp ih => exact .openMap items rfl ih hp
  | tag w n item hi hn ha ih => exact .tag w n item ih hn trivial

/-- No item is the beginning of another: the walk over the bytes ends at one place. -/
theorem AnyItem.eq_of_append_eq {i i' : Bytes} (h : AnyItem i) (h' : AnyItem i')
    (he : i ++ r = i' ++ r') : i = i' := by
  obtain ⟨t, ht, hadv⟩ := Accepts.skipItem h (MemoryInput.ofBytes (i ++ r)) r rfl
  obtain ⟨t', ht', hadv'⟩ := Accepts.skipItem h' (MemoryInput.ofBytes (i ++ r)) r' he
  rw [ht] at ht'
  cases ht'
  have hlen : i.length = i'.length := Nat.add_left_cancel (hadv.2.symm.trans hadv'.2)
  exact (List.append_inj he hlen).1

/-- A head is known by its bytes, whatever is behind it. -/
theorem Head.Spelled.eq_of_append_eq {h h' : Head} {lead lead' : Bytes} (s : h.Spelled lead)
    (s' : h'.Spelled lead') (he : lead ++ r = lead' ++ r') : h = h' ∧ r = r' := by
  have hdecode := Head.decode_spelled s r
  rw [he, Head.decode_spelled s' r'] at hdecode
  cases hdecode
  exact ⟨rfl, (List.append_inj he (s.length_eq.trans s'.length_eq.symm)).2⟩

/-- Bytes are cut in one way only into a known number of items. -/
theorem items_eq_of_counted {items items' : List Bytes} (hi : ∀ i ∈ items, AnyItem i)
    (hi' : ∀ i ∈ items', AnyItem i) (hlen : items.length = items'.length)
    (he : items.flatten ++ r = items'.flatten ++ r') : items = items' := by
  induction items generalizing items' with
  | nil => exact (List.length_eq_zero_iff.mp hlen.symm).symm
  | cons i items ih =>
    obtain ⟨i', items', rfl⟩ := List.exists_cons_of_length_eq_add_one hlen.symm
    rw [List.forall_mem_cons] at hi hi'
    simp only [List.flatten_cons, List.append_assoc] at he
    obtain rfl := hi.1.eq_of_append_eq hi'.1 he
    rw [ih hi.2 hi'.2 (Nat.succ.inj hlen) (List.append_cancel_left he)]

/-- Bytes are cut in one way only into items up to a break. -/
theorem items_eq_of_opened {items items' : List Bytes} (hi : ∀ i ∈ items, AnyItem i)
    (hi' : ∀ i ∈ items', AnyItem i)
    (he : items.flatten ++ breakByte :: r = items'.flatten ++ breakByte :: r') :
    items = items' := by
  -- No item begins with the break, so neither list ends before the other.
  have hstart {i more : Bytes} (h : AnyItem i) : i ++ more ≠ breakByte :: r ∧
      i ++ more ≠ breakByte :: r' := by
    obtain ⟨b, rest, rfl, hb⟩ := h.noBreak
    exact ⟨fun heq => hb (List.cons.inj heq).1, fun heq => hb (List.cons.inj heq).1⟩
  induction items generalizing items' with
  | nil =>
    cases items' with
    | nil => rfl
    | cons i' items' =>
      rw [List.forall_mem_cons] at hi'
      rw [List.flatten_cons, List.append_assoc] at he
      exact absurd he.symm (hstart hi'.1).1
  | cons i items ih =>
    rw [List.forall_mem_cons] at hi
    cases items' with
    | nil =>
      rw [List.flatten_cons, List.append_assoc] at he
      exact absurd he (hstart hi.1).2
    | cons i' items' =>
      rw [List.forall_mem_cons] at hi'
      simp only [List.flatten_cons, List.append_assoc] at he
      obtain rfl := hi.1.eq_of_append_eq hi'.1 he
      rw [ih hi.2 hi'.2 (List.append_cancel_left he)]

/-- A run of chunks is split into its chunks in one way, widths apart. -/
theorem payloads_eq_of_opened {m : Major} {chunks chunks' : List (ArgumentWidth × Bytes)}
    (hn : ∀ c ∈ chunks, c.1.Holds c.2.length) (hn' : ∀ c ∈ chunks', c.1.Holds c.2.length)
    (he : chunks.flatMap m.chunk ++ breakByte :: r = chunks'.flatMap m.chunk ++ breakByte :: r') :
    chunks.map (·.2) = chunks'.map (·.2) := by
  have hstart {c : ArgumentWidth × Bytes} {more : Bytes} (h : c.1.Holds c.2.length) :
      m.chunk c ++ more ≠ breakByte :: r ∧ m.chunk c ++ more ≠ breakByte :: r' := by
    obtain ⟨b, rest, heq, hb⟩ := (noBreak_spell m h).append (c.2 ++ more)
    rw [Major.chunk, List.append_assoc, heq]
    exact ⟨fun heq => hb (List.cons.inj heq).1, fun heq => hb (List.cons.inj heq).1⟩
  induction chunks generalizing chunks' with
  | nil =>
    cases chunks' with
    | nil => rfl
    | cons c' chunks' =>
      rw [List.forall_mem_cons] at hn'
      rw [List.flatMap_cons, List.append_assoc] at he
      exact absurd he.symm (hstart hn'.1).1
  | cons c chunks ih =>
    rw [List.forall_mem_cons] at hn
    cases chunks' with
    | nil =>
      rw [List.flatMap_cons, List.append_assoc] at he
      exact absurd he (hstart hn.1).2
    | cons c' chunks' =>
      rw [List.forall_mem_cons] at hn'
      simp only [List.flatMap_cons, Major.chunk, List.append_assoc] at he
      obtain ⟨hhead, hrest⟩ := Head.Spelled.eq_of_append_eq (.definite m c.1 _ hn.1)
        (.definite m c'.1 _ hn'.1) he
      have hlen : c.2.length = c'.2.length := by
        have hval := congrArg (fun h : Head => h.value.toNat) hhead
        simp only [Head.definite] at hval
        rwa [ArgumentWidth.toNat_of_holds hn.1,
          ArgumentWidth.toNat_of_holds hn'.1] at hval
      obtain ⟨hpayload, hmore⟩ := List.append_inj hrest hlen
      rw [List.map_cons, List.map_cons, hpayload, ih hn.2 hn'.2 hmore]

end Unambiguous

section Parts

variable {mode : Mode} {maxString : Nat} {maxCount : ℕ∞} {bs : Bytes}

/-- Where a head is spelled at the front, the elements are what is behind it. -/
theorem Elements.behind {h h' : Head} {items : List Bytes} {lead rest : Bytes}
    (hs : h'.Spelled lead) (he : Elements h items (lead ++ rest)) :
    h = h' ∧ (∀ i ∈ items, AnyItem i) ∧
      ((h'.indefinite = false ∧ items.length = h'.count ∧ rest = items.flatten) ∨
        (h'.indefinite = true ∧ (h'.major = .array ∨ h'.major = .map) ∧
          rest = items.flatten ++ [breakByte])) := by
  generalize hbs : lead ++ rest = bs at he
  cases he with
  | counted hs' hd hc hi =>
    obtain ⟨rfl, rfl⟩ := hs.eq_of_append_eq hs' hbs
    exact ⟨rfl, hi, Or.inl ⟨hd, hc, rfl⟩⟩
  | @opened m _ hm hi =>
    have hallows : m.allowsIndefinite = true := by rcases hm with rfl | rfl <;> rfl
    obtain ⟨rfl, rfl⟩ := hs.eq_of_append_eq (.opening m hallows) hbs
    exact ⟨rfl, hi, Or.inr ⟨rfl, hm, rfl⟩⟩

/-- The bytes of an item determine its elements. -/
theorem Elements.unique {h h' : Head} {items items' : List Bytes} (he : Elements h items bs)
    (he' : Elements h' items' bs) : h = h' ∧ items = items' := by
  cases he' with
  | counted hs hd hc hi =>
    obtain ⟨rfl, hall, ⟨-, hlen, hflat⟩ | ⟨hopen, -⟩⟩ := he.behind hs
    · exact ⟨rfl, items_eq_of_counted hall hi (hlen.trans hc.symm)
        (congrArg (· ++ ([] : Bytes)) hflat.symm)⟩
    · rw [hd] at hopen
      cases hopen
  | @opened m _ hm hi =>
    have hallows : m.allowsIndefinite = true := by rcases hm with rfl | rfl <;> rfl
    obtain ⟨rfl, hall, ⟨hclosed, -⟩ | ⟨-, -, hflat⟩⟩ := he.behind (.opening m hallows)
    · cases hclosed
    · exact ⟨rfl, items_eq_of_opened hall hi hflat.symm⟩

/-- Nothing follows a head that counts nothing and opens no container. -/
theorem Elements.eq_nil {h h' : Head} {items : List Bytes} {lead rest : Bytes}
    (hs : h'.Spelled lead) (he : Elements h items (lead ++ rest)) (hc : h'.count = 0)
    (ho : h'.indefinite = true → ¬(h'.major = .array ∨ h'.major = .map)) :
    h = h' ∧ items = [] := by
  obtain ⟨rfl, -, ⟨-, hlen, -⟩ | ⟨hopen, hm, -⟩⟩ := he.behind hs
  · exact ⟨rfl, List.length_eq_zero_iff.mp (hlen.trans hc)⟩
  · exact absurd hm (ho hopen)

/-- What holds for an item holds for the items that follow its head, and a head that declares
their number declares no more of them than is allowed. -/
theorem Item.of_elements {h : Head} {items : List Bytes} (hitem : Item mode maxString maxCount bs)
    (hs : maxString ≤ Options.widest.maxStringSize.toNat) (he : Elements h items bs) :
    (∀ i ∈ items, Item mode maxString maxCount i) ∧
      (h.Declares → (h.value.toNat : ℕ∞) ≤ maxCount) := by
  cases hitem with
  | bare m w n hm hn ha =>
    rw [← List.append_nil (m.spell w n)] at he
    have hnone : (Head.definite m (UInt64.ofNat n) (1 + w.bytes)).count = 0 ∧
        ¬(m = .array ∨ m = .map) := by
      rcases hm with rfl | rfl | rfl <;> exact ⟨rfl, by decide⟩
    obtain ⟨rfl, rfl⟩ := he.eq_nil (.definite m w n hn) hnone.1 fun _ => hnone.2
    exact ⟨by simp, fun hd => absurd hd.1 hnone.2⟩
  | string m w payload hm hn ha hp =>
    have hnone : (Head.definite m (UInt64.ofNat payload.length) (1 + w.bytes)).count = 0 ∧
        ¬(m = .array ∨ m = .map) := by
      rcases hm with rfl | rfl <;> exact ⟨rfl, by decide⟩
    obtain ⟨rfl, rfl⟩ := he.eq_nil (.definite m w _ hn) hnone.1 fun _ => hnone.2
    exact ⟨by simp, fun hd => absurd hd.1 hnone.2⟩
  | chunked m chunks hm hl hn hp =>
    have hnone : (⟨m, true, 1, 0⟩ : Head).count = 0 ∧ m.allowsIndefinite = true ∧
        ¬(m = .array ∨ m = .map) := by
      rcases hm with rfl | rfl <;> exact ⟨rfl, rfl, by decide⟩
    obtain ⟨rfl, rfl⟩ := he.eq_nil (.opening m hnone.2.1) hnone.1 fun _ => hnone.2.2
    exact ⟨by simp, fun hd => absurd hd.1 hnone.2.2⟩
  | array w elements hi hn ha hc =>
    have hval := ArgumentWidth.toNat_of_holds hn
    obtain ⟨rfl, rfl⟩ := he.unique
      (.counted (.definite .array w _ hn) rfl hval.symm fun i hmem => (hi i hmem).any hs)
    exact ⟨hi, fun _ => by rwa [Head.definite, hval]⟩
  | openArray elements hl hi =>
    obtain ⟨rfl, rfl⟩ := he.unique (.opened (Or.inl rfl) fun i hmem => (hi i hmem).any hs)
    exact ⟨hi, fun hd => by cases hd.2⟩
  | map w n elements hi hp hn ha hc =>
    have hval := ArgumentWidth.toNat_of_holds hn
    have hcount : elements.length = (Head.definite .map (UInt64.ofNat n) (1 + w.bytes)).count := by
      rw [Head.count, Head.definite, hval, hp]
    obtain ⟨rfl, rfl⟩ := he.unique
      (.counted (.definite .map w _ hn) rfl hcount fun i hmem => (hi i hmem).any hs)
    exact ⟨hi, fun _ => by rwa [Head.definite, hval]⟩
  | openMap elements hl hi hp =>
    obtain ⟨rfl, rfl⟩ := he.unique (.opened (Or.inr rfl) fun i hmem => (hi i hmem).any hs)
    exact ⟨hi, fun hd => by cases hd.2⟩
  | tag w n item hi hn ha =>
    have hone : ∀ i ∈ [item], Item mode maxString maxCount i := by simpa using hi
    have hown := Elements.counted (.definite .tag w n hn) rfl rfl
      fun i hmem => (hone i hmem).any hs
    rw [List.flatten_singleton] at hown
    obtain ⟨rfl, rfl⟩ := he.unique hown
    exact ⟨hone, by rintro ⟨h | h, -⟩ <;> cases h⟩

/-- The items inside an item are items of the same mode within the same limits. -/
theorem Item.inside {part : Bytes} (h : Item mode maxString maxCount bs)
    (hs : maxString ≤ Options.widest.maxStringSize.toNat) (hp : Inside bs part) :
    Item mode maxString maxCount part := by
  induction hp with
  | refl => exact h
  | tail _ hstep ih =>
    obtain ⟨head, items, he, hmem⟩ := hstep
    exact (ih.of_elements hs he).1 _ hmem

/-- Where a head is spelled at the front of a string, it is that of the string. -/
theorem Payload.behind {h : Head} {lead rest : Bytes} {total : Nat} (hs : h.Spelled lead)
    (hp : Payload total (lead ++ rest)) :
    (h.major = .bytes ∨ h.major = .text) ∧
      ((h.indefinite = false ∧ total = h.value.toNat) ∨
        (h.indefinite = true ∧ ∃ chunks : List (ArgumentWidth × Bytes),
          (∀ c ∈ chunks, c.1.Holds c.2.length) ∧ total = (chunks.map (·.2.length)).sum ∧
          rest = chunks.flatMap h.major.chunk ++ [breakByte])) := by
  generalize hbs : lead ++ rest = bs at hp
  cases hp with
  | @whole m w payload hm hn =>
    obtain ⟨rfl, -⟩ := hs.eq_of_append_eq (.definite m w _ hn) hbs
    exact ⟨hm, Or.inl ⟨rfl, (ArgumentWidth.toNat_of_holds hn).symm⟩⟩
  | @chunked m chunks hm hn =>
    have hallows : m.allowsIndefinite = true := by rcases hm with rfl | rfl <;> rfl
    obtain ⟨rfl, rfl⟩ := hs.eq_of_append_eq (.opening m hallows) hbs
    exact ⟨hm, Or.inr ⟨rfl, chunks, hn, rfl, rfl⟩⟩

/-- An item that is a string is within the limit on strings. -/
theorem Item.of_payload {total : Nat} (h : Item mode maxString maxCount bs)
    (hp : Payload total bs) : total ≤ maxString := by
  cases h with
  | bare m w n hm hn ha =>
    rw [← List.append_nil (m.spell w n)] at hp
    obtain ⟨hstring, -⟩ := hp.behind (.definite m w n hn)
    rcases hm with rfl | rfl | rfl <;> rcases hstring with hm | hm <;> cases hm
  | string m w payload hm hn ha hs =>
    have hval := ArgumentWidth.toNat_of_holds hn
    obtain ⟨-, ⟨-, rfl⟩ | ⟨hi, -⟩⟩ := hp.behind (.definite m w _ hn)
    · rwa [Head.definite, hval]
    · cases hi
  | chunked m chunks hm hl hn hs =>
    have hallows : m.allowsIndefinite = true := by rcases hm with rfl | rfl <;> rfl
    obtain ⟨-, ⟨hi, -⟩ | ⟨-, chunks', hn', rfl, hrest⟩⟩ := hp.behind (.opening m hallows)
    · cases hi
    · have hsame := congrArg (List.map List.length)
        (payloads_eq_of_opened hn hn' hrest)
      rw [List.map_map, List.map_map] at hsame
      exact (congrArg List.sum hsame).symm.trans_le hs
  | array w items hi hn =>
    obtain ⟨hm | hm, -⟩ := hp.behind (.definite .array w _ hn) <;> cases hm
  | openArray items hl hi =>
    obtain ⟨hm | hm, -⟩ := hp.behind (.opening .array rfl) <;> cases hm
  | map w n items hi hp' hn =>
    obtain ⟨hm | hm, -⟩ := hp.behind (.definite .map w n hn) <;> cases hm
  | openMap items hl hi =>
    obtain ⟨hm | hm, -⟩ := hp.behind (.opening .map rfl) <;> cases hm
  | tag w n item hi hn =>
    obtain ⟨hm | hm, -⟩ := hp.behind (.definite .tag w n hn) <;> cases hm

end Parts

end CborCodec
