import CborCodec.Proofs.Contents
import CborCodec.Typed
/-!
The decoder computes the denotation: what it reads a value from spells the value, within the
limits, and in front of bytes that spell a value within the limits it reads that value.
-/

namespace CborCodec

variable {σ : Type} [Input σ]

section Soundness

variable {options : Options} {depth : Nat} {head : Head} {lead : Bytes}

/-- What has to hold of a value and the bytes it was read from. -/
def Denoted (options : Options) (depth : Nat) (v : Value) (bs : Bytes) : Prop :=
  Spells options.mode v bs ∧ v.Fits options depth

theorem reads_bytes (hs : head.Spelled lead) (hc : head.check options.mode = .ok ())
    (hm : head.major = .bytes) :
    Reads (do return Value.bytes (← readPayload options head) : EStateM Error σ Value)
      fun v bs => Denoted options depth v (lead ++ bs) := by
  intro s v t e
  obtain ⟨out, u, hu, e⟩ := bind_eq_ok.1 e
  obtain ⟨rfl, rfl⟩ := pure_eq_ok.1 e
  cases hi : head.indefinite with
  | false =>
    obtain ⟨w, -, hn, rfl, hadmits⟩ := hs.exists_spell hi
    have ha := hadmits options.mode hc
    obtain ⟨bs, hadv, rfl, hlen, hle, -⟩ := Reads.readPayload_definite options hi s out u hu
    rw [hm, ← hlen] at ha
    rw [← hlen] at hn
    refine ⟨out, hadv, ?_, Value.fits_of_leaf rfl rfl hle⟩
    rw [hm, ← hlen]
    exact .bytes w out hn ha
  | true =>
    obtain ⟨rfl, -, hmode⟩ := hs.eq_opening hi
    have hlenient := hmode options.mode hc
    obtain ⟨bs, hadv, chunks, hbs, rfl, hn, hle, -⟩ :=
      Reads.readPayload_indefinite options hi s out u hu
    rw [hm] at hbs
    subst hbs
    refine ⟨_, hadv, ?_, Value.fits_of_leaf rfl rfl hle⟩
    rw [hm]
    exact .openBytes chunks (by simpa [hm] using hlenient) hn

theorem reads_text (hs : head.Spelled lead) (hc : head.check options.mode = .ok ())
    (hm : head.major = .text) :
    Reads (do
      let bytes ← readPayload options head
      return Value.text (← known (textOf bytes)) : EStateM Error σ Value)
      fun v bs => Denoted options depth v (lead ++ bs) := by
  intro s v t e
  obtain ⟨out, u, hu, e⟩ := bind_eq_ok.1 e
  obtain ⟨text, x, hx, e⟩ := bind_eq_ok.1 e
  obtain ⟨htext, rfl⟩ := known_eq_ok.1 hx
  obtain ⟨rfl, rfl⟩ := pure_eq_ok.1 e
  rw [textOf_eq_ok_iff] at htext
  subst htext
  cases hi : head.indefinite with
  | false =>
    obtain ⟨w, -, hn, rfl, hadmits⟩ := hs.exists_spell hi
    have ha := hadmits options.mode hc
    obtain ⟨bs, hadv, rfl, hlen, hle, -⟩ := Reads.readPayload_definite options hi s _ u hu
    rw [hm, ← hlen] at ha
    rw [← hlen] at hn
    refine ⟨_, hadv, ?_, Value.fits_of_leaf rfl rfl hle⟩
    rw [hm, ← hlen]
    exact .text w text hn ha
  | true =>
    obtain ⟨rfl, -, hmode⟩ := hs.eq_opening hi
    have hlenient := hmode options.mode hc
    obtain ⟨bs, hadv, chunks, hbs, hout, hn, hle, hchunks⟩ :=
      Reads.readPayload_indefinite options hi s _ u hu
    rw [hm] at hbs
    subst hbs
    refine ⟨_, hadv, ?_, Value.fits_of_leaf rfl rfl hle⟩
    rw [hm]
    exact .openText text chunks (by simpa [hm] using hlenient) hn hout (hchunks hm)

/-- An array denotes its elements, each nested one level less deep. -/
theorem reads_array {item : EStateM Error σ Value} (h : Reads item (Denoted options depth))
    (hs : head.Spelled lead) (hc : head.check options.mode = .ok ()) (hm : head.major = .array) :
    Reads (do
      let (_, items) ← elements options .array head item item
      return Value.array items.reverse : EStateM Error σ Value)
      fun v bs => Denoted options (depth + 1) v (lead ++ bs) := by
  intro s v t e
  obtain ⟨out, u, hu, e⟩ := bind_eq_ok.1 e
  obtain ⟨rfl, rfl⟩ := pure_eq_ok.1 e
  obtain ⟨bs, hadv, items, hout, hle, hall, hbs⟩ := Reads.elements h h s out u hu
  refine ⟨bs, hadv, ?_, ?_⟩
  · rw [hout]
    have hspells (i) (hi : i ∈ items) : Spells options.mode i.1 i.2 := (hall i hi).1
    cases hi : head.indefinite with
    | false =>
      obtain ⟨w, -, hn, rfl, hadmits⟩ := hs.exists_spell hi
      have ha := hadmits options.mode hc
      rw [hi, if_neg Bool.false_ne_true] at hbs
      obtain ⟨rfl, hlen⟩ := hbs
      rw [hm, ← hlen] at ha ⊢
      rw [← hlen] at hn
      exact .array w items hspells hn ha
    | true =>
      obtain ⟨rfl, -, hmode⟩ := hs.eq_opening hi
      have hlenient := hmode options.mode hc
      rw [hi, if_pos rfl] at hbs
      rw [hbs, hm]
      exact .openArray items (by simpa [hm] using hlenient) hspells
  · rw [hout, Value.fits_array, List.length_map, List.forall_mem_map]
    exact ⟨hle, fun i hi => (hall i hi).2⟩

/-- Pairs whose bytes are those of a key before those of a value. -/
theorem exists_pairs {Q : Value → Bytes → Prop} {items : List ((Value × Value) × Bytes)}
    (h : ∀ i ∈ items, ∃ k v, i.2 = k ++ v ∧ Q i.1.1 k ∧ Q i.1.2 v) :
    ∃ pairs : List ((Value × Value) × (Bytes × Bytes)), pairs.map (·.1) = items.map (·.1) ∧
      (pairs.flatMap fun p => p.2.1 ++ p.2.2) = items.flatMap (·.2) ∧
      ∀ p ∈ pairs, Q p.1.1 p.2.1 ∧ Q p.1.2 p.2.2 := by
  induction items with
  | nil => exact ⟨[], rfl, rfl, by simp⟩
  | cons item items ih =>
    rw [List.forall_mem_cons] at h
    obtain ⟨⟨k, v, hbs, hk, hv⟩, hitems⟩ := h
    obtain ⟨pairs, hmap, hflat, hall⟩ := ih hitems
    refine ⟨(item.1, (k, v)) :: pairs, ?_, ?_, List.forall_mem_cons.mpr ⟨⟨hk, hv⟩, hall⟩⟩
    · rw [List.map_cons, hmap, List.map_cons]
    · rw [List.flatMap_cons, hflat, List.flatMap_cons, hbs]

/-- A map denotes its pairs, each nested one level less deep. -/
theorem reads_map {item : EStateM Error σ Value} (h : Reads item (Denoted options depth))
    (hs : head.Spelled lead) (hc : head.check options.mode = .ok ()) (hm : head.major = .map) :
    Reads (do
      let (_, pairs) ← elements options .map head (pairOf item) (owedPairOf item)
      return Value.map pairs.reverse : EStateM Error σ Value)
      fun v bs => Denoted options (depth + 1) v (lead ++ bs) := by
  intro s v t e
  obtain ⟨out, u, hu, e⟩ := bind_eq_ok.1 e
  obtain ⟨rfl, rfl⟩ := pure_eq_ok.1 e
  obtain ⟨bs, hadv, items, hout, hle, hall, hbs⟩ :=
    Reads.elements (Reads.pairOf h) (Reads.owedPairOf h) s out u hu
  obtain ⟨pairs, hmap, hflat, hpairs⟩ := exists_pairs hall
  have hlength : pairs.length = items.length := by
    have hmaps := congrArg List.length hmap
    rwa [List.length_map, List.length_map] at hmaps
  rw [← hmap] at hout
  rw [← hflat] at hbs
  rw [← hlength] at hle hbs
  refine ⟨bs, hadv, ?_, ?_⟩
  · rw [hout]
    have hk (p) (hp : p ∈ pairs) : Spells options.mode p.1.1 p.2.1 := (hpairs p hp).1.1
    have hv (p) (hp : p ∈ pairs) : Spells options.mode p.1.2 p.2.2 := (hpairs p hp).2.1
    cases hi : head.indefinite with
    | false =>
      obtain ⟨w, -, hn, rfl, hadmits⟩ := hs.exists_spell hi
      have ha := hadmits options.mode hc
      rw [hi, if_neg Bool.false_ne_true] at hbs
      obtain ⟨rfl, hlen⟩ := hbs
      rw [hm, ← hlen] at ha ⊢
      rw [← hlen] at hn
      exact .map w pairs hk hv hn ha
    | true =>
      obtain ⟨rfl, -, hmode⟩ := hs.eq_opening hi
      have hlenient := hmode options.mode hc
      rw [hi, if_pos rfl] at hbs
      rw [hbs, hm]
      exact .openMap pairs (by simpa [hm] using hlenient) hk hv
  · rw [hout, Value.fits_map, List.length_map, List.forall_mem_map]
    exact ⟨hle, fun p hp => ⟨(hpairs p hp).1.2, (hpairs p hp).2.2⟩⟩

theorem reads_integer (hs : head.Spelled lead) (hc : head.check options.mode = .ok ())
    (hm : head.major = .unsigned ∨ head.major = .negative) {v : Value}
    (hv : v = if head.major = .unsigned then .unsigned head.value else .negative head.value) :
    Reads (pure v : EStateM Error σ Value) fun v bs => Denoted options depth v (lead ++ bs) := by
  refine (Reads.pure v).mono ?_
  rintro _ bs ⟨rfl, rfl⟩
  rw [List.append_nil, hv]
  cases hi : head.indefinite with
  | true =>
    obtain ⟨-, hallows, -⟩ := hs.eq_opening hi
    rcases hm with hm | hm <;> simp [hm, Major.allowsIndefinite] at hallows
  | false =>
    obtain ⟨w, -, hn, rfl, hadmits⟩ := hs.exists_spell hi
    have ha := hadmits options.mode hc
    have hval : UInt64.ofNat head.value.toNat = head.value := UInt64.ofNat_toNat
    rcases hm with hm | hm <;> rw [hm] at ha ⊢
    · have hspells := Spells.unsigned w _ hn ha
      rw [hval] at hspells
      exact ⟨hspells, Value.fits_of_leaf rfl rfl trivial⟩
    · have hspells := Spells.negative w _ hn ha
      rw [hval] at hspells
      exact ⟨hspells, Value.fits_of_leaf rfl rfl trivial⟩

/-- A float or simple value is within any limits. -/
theorem ofSpecial_leaf {v : Value} (hv : Value.ofSpecial head = .ok v) : v.Fits options depth := by
  unfold Value.ofSpecial at hv
  split at hv
  · cases hv
    exact Value.fits_of_leaf rfl rfl trivial
  · next n _ _ =>
    cases hv
    obtain ⟨hnest, hparts, hwithin⟩ := ofSimple_leaf n
    exact Value.fits_of_leaf hnest hparts (hwithin options)
  · cases hv

theorem reads_special (hs : head.Spelled lead) (hc : head.check options.mode = .ok ())
    (hm : head.major = .special) :
    Reads (known (Value.ofSpecial head) : EStateM Error σ Value)
      fun v bs => Denoted options depth v (lead ++ bs) := by
  refine (Reads.known _).mono ?_
  rintro v bs ⟨hv, rfl⟩
  rw [List.append_nil]
  refine ⟨?_, ofSpecial_leaf hv⟩
  cases hi : head.indefinite with
  | true => simp [Value.ofSpecial, Head.float?, Head.simple?, hi] at hv
  | false =>
    obtain ⟨w, hhead, hn, rfl, hadmits⟩ := hs.exists_spell hi
    have ha := hadmits options.mode hc
    rw [hm] at ha hhead ⊢
    rw [hhead] at hv
    exact spells_of_special hn ha hv

theorem reads_tag {item : EStateM Error σ Value} (h : Reads item (Denoted options depth))
    (hs : head.Spelled lead) (hc : head.check options.mode = .ok ()) (hm : head.major = .tag) :
    Reads (do return Value.tag head.value (← item) : EStateM Error σ Value)
      fun v bs => Denoted options (depth + 1) v (lead ++ bs) := by
  intro s v t e
  obtain ⟨inner, u, hu, e⟩ := bind_eq_ok.1 e
  obtain ⟨rfl, rfl⟩ := pure_eq_ok.1 e
  obtain ⟨bs, hadv, hspells, hfits⟩ := h s inner u hu
  refine ⟨bs, hadv, ?_, Value.fits_tag.mpr hfits⟩
  cases hi : head.indefinite with
  | true =>
    obtain ⟨-, hallows, -⟩ := hs.eq_opening hi
    simp [hm, Major.allowsIndefinite] at hallows
  | false =>
    obtain ⟨w, -, hn, rfl, hadmits⟩ := hs.exists_spell hi
    have ha := hadmits options.mode hc
    have hval : UInt64.ofNat head.value.toNat = head.value := UInt64.ofNat_toNat
    rw [hm] at ha ⊢
    have htag := Spells.tag w _ inner bs hspells hn ha
    rwa [hval] at htag

/-- The head and the contents that follow it spell the value. -/
theorem reads_decodeContents {inner : Option (EStateM Error σ Value)}
    (hinner : ∀ item, inner = some item →
      ∃ below, depth = below + 1 ∧ Reads item (Denoted options below))
    (hs : head.Spelled lead) (hc : head.check options.mode = .ok ()) :
    Reads (Value.decodeContents options inner head)
      fun v bs => Denoted options depth v (lead ++ bs) := by
  cases hm : head.major <;> simp only [Value.decodeContents, hm]
  case unsigned => exact reads_integer hs hc (Or.inl hm) (by rw [if_pos hm])
  case negative => exact reads_integer hs hc (Or.inr hm) (by rw [if_neg (by simp [hm])])
  case bytes => exact reads_bytes hs hc hm
  case text => exact reads_text hs hc hm
  case special => exact reads_special hs hc hm
  all_goals
    cases inner with
    | none => exact fun s v t e => by cases e
    | some item => ?_
    obtain ⟨below, rfl, hitem⟩ := hinner item rfl
    simp only [Value.descend, pure_bind]
  case array =>
    rw [arrayItems_eq]
    exact reads_array hitem hs hc hm
  case map =>
    rw [mapItems_eq]
    exact reads_map hitem hs hc hm
  case tag => exact reads_tag hitem hs hc hm

/-- What holds behind every head that passes the mode holds of items. -/
theorem reads_headed {D : Value → Bytes → Prop} {f : Head → EStateM Error σ Value}
    (h : ∀ head lead, head.Spelled lead → head.check options.mode = .ok () →
      Reads (f head) fun v bs => D v (lead ++ bs)) :
    Reads (readHead options.mode >>= f) D := by
  intro s v t e
  obtain ⟨head, u, hu, e⟩ := bind_eq_ok.1 e
  obtain ⟨lead, hadv, hs, hc⟩ := Reads.readHead options.mode s head u hu
  obtain ⟨bs, hadv', hv⟩ := h head lead hs hc u v t e
  exact ⟨lead ++ bs, hadv.trans hadv', hv⟩

/-- By induction on the depth, the bytes that are decoded denote the value. -/
theorem reads_decodeWithin (options : Options) (depth : Nat) :
    Reads (Value.decodeWithin options depth : EStateM Error σ Value) (Denoted options depth) := by
  induction depth with
  | zero => exact reads_headed fun head lead hs hc => reads_decodeContents (by simp) hs hc
  | succ depth ih =>
    refine reads_headed fun head lead hs hc => reads_decodeContents ?_ hs hc
    rintro item ⟨⟩
    exact ⟨depth, rfl, ih⟩

end Soundness

section Completeness

variable [Reliable σ] {options : Options} {depth : Nat} {v : Value}

/-- A payload is no longer than the chunks it is in. -/
theorem length_payload_le (m : Major) (chunks : List (ArgumentWidth × Bytes)) :
    (chunks.flatMap (·.2)).length ≤ (chunks.flatMap m.chunk).length := by
  induction chunks with
  | nil => exact Nat.le_refl 0
  | cons chunk chunks ih =>
    simp only [List.flatMap_cons, Major.chunk, List.length_append]
    omega

omit [Reliable σ] in
theorem decodeWithin_eq (options : Options) (depth : Nat) :
    ∃ inner, (Value.decodeWithin options depth : EStateM Error σ Value) =
      readHead options.mode >>= Value.decodeContents options inner := by
  cases depth with
  | zero => exact ⟨none, rfl⟩
  | succ depth => exact ⟨some (Value.decodeWithin options depth), rfl⟩

/-- Contents that are no items are read at any depth. -/
theorem accepts_leaf {head : Head} {lead bs : Bytes} (hs : head.Spelled lead)
    (hc : head.check options.mode = .ok ())
    (hx : ∀ inner : Option (EStateM Error σ Value),
      Accepts (Value.decodeContents options inner head) v bs) :
    Accepts (Value.decodeWithin options depth : EStateM Error σ Value) v (lead ++ bs) := by
  obtain ⟨inner, heq⟩ := decodeWithin_eq (σ := σ) options depth
  rw [heq]
  exact (Accepts.readHead hs hc).bind (hx inner)

theorem accepts_below {head : Head} {lead bs : Bytes} (hs : head.Spelled lead)
    (hc : head.check options.mode = .ok ())
    (hx : Accepts (Value.decodeContents options
      (some (Value.decodeWithin options depth : EStateM Error σ Value)) head) v bs) :
    Accepts (Value.decodeWithin options (depth + 1) : EStateM Error σ Value) v (lead ++ bs) :=
  (Accepts.readHead hs hc).bind hx

theorem Value.Fits.exists_depth (h : v.Fits options depth) (hv : 0 < v.nesting) :
    ∃ below, depth = below + 1 :=
  Nat.exists_eq_add_one_of_ne_zero (hv.trans_le h.nesting_le).ne'

omit [Reliable σ] in
theorem accepts_bytes {head : Head} {b bs : Bytes} (hm : head.major = .bytes)
    (h : Accepts (readPayload options head : EStateM Error σ Bytes) b bs)
    (inner : Option (EStateM Error σ Value)) :
    Accepts (Value.decodeContents options inner head) (.bytes b) bs := by
  have hbytes := h.map Value.bytes
  simp only [Value.decodeContents, hm]
  exact hbytes

omit [Reliable σ] in
/-- A payload that is the bytes of a text is decoded to the text. -/
theorem accepts_text {head : Head} {s : String} {bs : Bytes} (hm : head.major = .text)
    (h : Accepts (readPayload options head : EStateM Error σ Bytes) (Bytes.ofText s) bs)
    (inner : Option (EStateM Error σ Value)) :
    Accepts (Value.decodeContents options inner head) (.text s) bs := by
  have hknown : Accepts (known (textOf (Bytes.ofText s)) >>= fun s => Pure.pure (Value.text s) :
      EStateM Error σ Value) (.text s) [] :=
    (Accepts.known (textOf_eq_ok_iff.mpr rfl)).bind (.pure _)
  have htext := Accepts.bind
    (f := fun b => known (textOf b) >>= fun s => Pure.pure (Value.text s)) h hknown
  simp only [Value.decodeContents, hm]
  rwa [List.append_nil] at htext

omit [Reliable σ] in
theorem accepts_array {head : Head} {item : EStateM Error σ Value} {count : Nat}
    {items : List Value} {bs : Bytes} (hm : head.major = .array)
    (h : Accepts (elements options .array head item item) (count, items.reverse) bs) :
    Accepts (Value.decodeContents options (some item) head) (.array items) bs := by
  have harray := h.map fun out => Value.array out.2.reverse
  rw [List.reverse_reverse] at harray
  simp only [Value.decodeContents, hm, Value.descend, pure_bind]
  rw [arrayItems_eq]
  exact harray

omit [Reliable σ] in
theorem accepts_map {head : Head} {item : EStateM Error σ Value} {count : Nat}
    {pairs : List (Value × Value)} {bs : Bytes} (hm : head.major = .map)
    (h : Accepts (elements options .map head (pairOf item) (owedPairOf item))
      (count, pairs.reverse) bs) :
    Accepts (Value.decodeContents options (some item) head) (.map pairs) bs := by
  have hmap := h.map fun out => Value.map out.2.reverse
  rw [List.reverse_reverse] at hmap
  simp only [Value.decodeContents, hm, Value.descend, pure_bind]
  rw [mapItems_eq]
  exact hmap

/-- In front of the bytes that spell a value within the limits, that value is read. -/
theorem accepts_decodeWithin {bs : Bytes} (h : Spells options.mode v bs)
    (hf : v.Fits options depth) (hm : bs.length ≤ allocationLimit) :
    Accepts (Value.decodeWithin options depth : EStateM Error σ Value) v bs := by
  induction h generalizing depth with
  | unsigned w n hn ha =>
    rw [← List.append_nil (Major.unsigned.spell w n)]
    exact accepts_leaf (.definite .unsigned w n hn) ((check_definite hn).2 ha) fun _ => .pure _
  | negative w n hn ha =>
    rw [← List.append_nil (Major.negative.spell w n)]
    exact accepts_leaf (.definite .negative w n hn) ((check_definite hn).2 ha) fun _ => .pure _
  | bytes w b hn ha =>
    have hother : ¬Major.bytes = .text := by decide
    have hval := ArgumentWidth.toNat_of_holds hn
    have hwithin := hf.within _ (List.mem_singleton_self _)
    rw [List.length_append, Major.length_spell] at hm
    exact accepts_leaf (.definite .bytes w _ hn) ((check_definite hn).2 ha)
      (accepts_bytes rfl (.readPayload_definite rfl hval hwithin (by omega)
        fun htext => absurd htext hother))
  | openBytes chunks hl hn =>
    have hother : ¬Major.bytes = .text := by decide
    have hwithin := hf.within _ (List.mem_singleton_self _)
    have hlen := length_payload_le .bytes chunks
    simp only [Major.opening, List.length_append, List.length_singleton] at hm
    exact accepts_leaf (.opening .bytes rfl) (check_opening.2 (Or.inl hl))
      (accepts_bytes rfl (.readPayload_indefinite rfl hl chunks hn hwithin (by omega)
        fun htext => absurd htext hother))
  | text w s hn ha =>
    have hval := ArgumentWidth.toNat_of_holds hn
    have hwithin := hf.within _ (List.mem_singleton_self _)
    rw [List.length_append, Major.length_spell] at hm
    exact accepts_leaf (.definite .text w _ hn) ((check_definite hn).2 ha)
      (accepts_text rfl (.readPayload_definite rfl hval hwithin (by omega) fun _ => ⟨s, rfl⟩))
  | openText s chunks hl hn hs hc =>
    have hwithin := hf.within _ (List.mem_singleton_self _)
    have hlen := length_payload_le .text chunks
    simp only [Major.opening, List.length_append, List.length_singleton] at hm
    rw [Value.Within, hs] at hwithin
    refine accepts_leaf (.opening .text rfl) (check_opening.2 (Or.inl hl)) (accepts_text rfl ?_)
    rw [hs]
    exact .readPayload_indefinite rfl hl chunks hn hwithin (by omega) fun _ => hc
  | array w items hi hn ha ih =>
    obtain ⟨below, rfl⟩ := hf.exists_depth (Nat.succ_pos _)
    rw [Value.fits_array, List.length_map, List.forall_mem_map] at hf
    have hval := ArgumentWidth.toNat_of_holds hn
    -- No item is empty, so the check of what is available passes.
    have hcount : items.length * 1 ≤ (items.flatMap (·.2)).length :=
      length_mul_le_flatMap fun i hmem => (hi i hmem).noBreak.length_pos
    rw [Nat.mul_one] at hcount
    rw [List.length_append] at hm
    have hitems (i) (hmem : i ∈ items) : Accepts
        (Value.decodeWithin options below : EStateM Error σ Value) i.1 i.2 := by
      have hle : i.2.length ≤ _ := length_le_of_mem_flatMap (f := (·.2)) hmem
      exact ih i hmem (hf.2 i hmem) (by omega)
    exact accepts_below (.definite .array w _ hn) ((check_definite hn).2 ha)
      (accepts_array rfl (.elements_definite items rfl hval hf.1 hcount hitems))
  | openArray items hl hi ih =>
    obtain ⟨below, rfl⟩ := hf.exists_depth (Nat.succ_pos _)
    rw [Value.fits_array, List.length_map, List.forall_mem_map] at hf
    simp only [List.length_append] at hm
    have hitems (i) (hmem : i ∈ items) : NoBreak i.2 ∧ Accepts
        (Value.decodeWithin options below : EStateM Error σ Value) i.1 i.2 := by
      have hle : i.2.length ≤ _ := length_le_of_mem_flatMap (f := (·.2)) hmem
      exact ⟨(hi i hmem).noBreak, ih i hmem (hf.2 i hmem) (by omega)⟩
    exact accepts_below (.opening .array rfl) (check_opening.2 (Or.inl hl))
      (accepts_array rfl (.elements_indefinite items rfl hf.1 hitems))
  | map w pairs hk hv hn ha ihk ihv =>
    obtain ⟨below, rfl⟩ := hf.exists_depth (Nat.succ_pos _)
    rw [Value.fits_map, List.length_map, List.forall_mem_map] at hf
    have hval := ArgumentWidth.toNat_of_holds hn
    have hcount : pairs.length * 2 ≤ (pairs.flatMap fun p => p.2.1 ++ p.2.2).length := by
      refine length_mul_le_flatMap ?_
      intro p hmem
      have hkey := (hk p hmem).noBreak.length_pos
      have hvalue := (hv p hmem).noBreak.length_pos
      rw [List.length_append]
      omega
    rw [List.length_append] at hm
    have hitems (p) (hmem : p ∈ pairs) : Accepts
        (pairOf (Value.decodeWithin options below : EStateM Error σ Value)) p.1
        (p.2.1 ++ p.2.2) := by
      have hle := length_le_of_mem_flatMap (f := fun p => p.2.1 ++ p.2.2) hmem
      rw [List.length_append] at hle
      exact .pairOf (ihk p hmem (hf.2 p hmem).1 (by omega)) (ihv p hmem (hf.2 p hmem).2 (by omega))
    have helements : Accepts (elements options .map
        (Head.definite .map (UInt64.ofNat pairs.length) (1 + w.bytes))
        (pairOf (Value.decodeWithin options below))
        (owedPairOf (Value.decodeWithin options below) : EStateM Error σ (Value × Value))) _ _ :=
      .elements_definite (pairs.map fun p => (p.1, p.2.1 ++ p.2.2)) rfl
        (by rw [List.length_map]; exact hval) (by rw [List.length_map]; exact hf.1)
        (by simp only [capacityFor, if_true, List.length_map, List.flatMap_map]; omega)
        (List.forall_mem_map.mpr hitems)
    simp only [List.map_map, List.flatMap_map, List.length_map] at helements
    exact accepts_below (.definite .map w _ hn) ((check_definite hn).2 ha)
      (accepts_map rfl helements)
  | openMap pairs hl hk hv ihk ihv =>
    obtain ⟨below, rfl⟩ := hf.exists_depth (Nat.succ_pos _)
    rw [Value.fits_map, List.length_map, List.forall_mem_map] at hf
    simp only [List.length_append] at hm
    have hitems (p) (hmem : p ∈ pairs) : NoBreak (p.2.1 ++ p.2.2) ∧ Accepts
        (owedPairOf (Value.decodeWithin options below : EStateM Error σ Value)) p.1
        (p.2.1 ++ p.2.2) := by
      have hle := length_le_of_mem_flatMap (f := fun p => p.2.1 ++ p.2.2) hmem
      simp only [List.length_append] at hle
      exact ⟨(hk p hmem).noBreak.append _, .owedPairOf (ihk p hmem (hf.2 p hmem).1 (by omega))
        (hv p hmem).noBreak (ihv p hmem (hf.2 p hmem).2 (by omega))⟩
    have helements : Accepts (elements options .map ⟨.map, true, 1, 0⟩
        (pairOf (Value.decodeWithin options below))
        (owedPairOf (Value.decodeWithin options below) : EStateM Error σ (Value × Value))) _ _ :=
      .elements_indefinite (pairs.map fun p => (p.1, p.2.1 ++ p.2.2)) rfl (by simpa using hf.1)
        (List.forall_mem_map.mpr hitems)
    simp only [List.map_map, List.flatMap_map, List.length_map] at helements
    exact accepts_below (.opening .map rfl) (check_opening.2 (Or.inl hl))
      (accepts_map rfl helements)
  | tag w n item bs hi hn ha ih =>
    obtain ⟨below, rfl⟩ := hf.exists_depth (Nat.succ_pos _)
    rw [Value.fits_tag] at hf
    rw [List.length_append] at hm
    have hitem := ih hf (by omega)
    have htag := hitem.map (Value.tag (UInt64.ofNat n))
    exact accepts_below (.definite .tag w n hn) ((check_definite hn).2 ha) htag
  | simple w n hw hn ha =>
    have hvalue : Value.ofSpecial (Head.definite .special (UInt64.ofNat n.toNat) (1 + w.bytes)) =
        .ok (Value.ofSimple n) := by
      rw [ofSpecial_definite, expand?_eq_none_iff.mpr hw, UInt8.ofNat_toNat]
    rw [← List.append_nil (Major.special.spell w n.toNat)]
    exact accepts_leaf (.definite .special w _ hn) ((check_definite hn).2 ha) fun _ =>
      .known hvalue
  | float w n d hn ha hd =>
    have hvalue : Value.ofSpecial (Head.definite .special (UInt64.ofNat n) (1 + w.bytes)) =
        .ok (.float d) := by
      rw [ofSpecial_definite, hd]
    rw [← List.append_nil (Major.special.spell w n)]
    exact accepts_leaf (.definite .special w _ hn) ((check_definite hn).2 ha) fun _ =>
      .known hvalue

end Completeness

section Memory

theorem decodeBytes_eq_ok_iff {α : Type} {x : EStateM Error MemoryInput α} {data : Bytes} {a : α}
    {n : Nat} : decodeBytes x data = .ok (a, n) ↔
      ∃ t, x (MemoryInput.ofBytes data) = .ok a t ∧ t.offset = n := by
  unfold decodeBytes
  constructor
  · intro h
    split at h
    · next t ht =>
      cases h
      exact ⟨t, ht, rfl⟩
    · cases h
  · rintro ⟨t, ht, rfl⟩
    rw [ht]

/-- In every mode the first value is the one that the first bytes spell within the limits. -/
theorem decode_eq_ok_iff (options : Options) (data : Bytes) (v : Value) (n : Nat)
    (hdata : data.length ≤ allocationLimit) :
    decodeBytes (Value.decode options) data = .ok (v, n) ↔
      n ≤ data.length ∧ Spells options.mode v (data.take n) ∧
        v.Fits options options.maxDepth.toNat := by
  rw [decodeBytes_eq_ok_iff]
  constructor
  · rintro ⟨t, ht, rfl⟩
    obtain ⟨bs, hadv, hspells, hfits⟩ := reads_decodeWithin options _ _ v t ht
    obtain ⟨hle, rfl⟩ := MemoryInput.take_of_advances hadv
    exact ⟨hle, hspells, hfits⟩
  · rintro ⟨hle, hspells, hfits⟩
    have htake : (data.take n).length ≤ allocationLimit := by
      rw [List.length_take_of_le hle]
      exact hle.trans hdata
    obtain ⟨t, ht, hadv⟩ := accepts_decodeWithin hspells hfits htake (MemoryInput.ofBytes data)
      (data.drop n) (MemoryInput.stream_ofBytes data n)
    exact ⟨t, ht, MemoryInput.offset_of_advances hle hadv⟩

/-- The lenient decoder gives, up to the patterns of NaNs, a value that the first bytes encode and
that is within the limits, and it gives all of them. -/
theorem decode_iff_encodes (options : Options) (data : Bytes) (v : Value) (n : Nat)
    (hmode : options.mode = .lenient) (hdata : data.length ≤ allocationLimit) :
    (∃ w : Value, w.Alike v ∧ decodeBytes (Value.decode options) data = .ok (w, n)) ↔
      n ≤ data.length ∧ Encodes v (data.take n) ∧ v.Fits options options.maxDepth.toNat := by
  constructor
  · rintro ⟨w, halike, hw⟩
    rw [decode_eq_ok_iff options data w n hdata, hmode] at hw
    obtain ⟨hle, hspells, hfits⟩ := hw
    exact ⟨hle, ⟨w, halike, hspells⟩, halike.fits_iff.mp hfits⟩
  · rintro ⟨hle, ⟨w, halike, hspells⟩, hfits⟩
    refine ⟨w, halike, ?_⟩
    rw [decode_eq_ok_iff options data w n hdata, hmode]
    exact ⟨hle, hspells, halike.fits_iff.mpr hfits⟩

theorem decode_open_array_nan :
    ∃ w : Value, w.Alike (.array [.float (Double.ofHalf 0x7E00)]) ∧
      decodeBytes (Value.decode {}) [0x9F, 0xF9, 0x7E, 0x01, 0xFF] = .ok (w, 5) := by
  have hnan : Spells .lenient (.float (Double.ofHalf 0x7E01)) [0xF9, 0x7E, 0x01] :=
    .float .two 0x7E01 _ (by decide) trivial rfl
  have harray : Spells .lenient (.array [.float (Double.ofHalf 0x7E01)])
      [0x9F, 0xF9, 0x7E, 0x01, 0xFF] :=
    .openArray [(.float (Double.ofHalf 0x7E01), [0xF9, 0x7E, 0x01])] rfl (by simpa using hnan)
  have hfits : (Value.array [.float (Double.ofHalf 0x7E00)]).Fits {} 256 :=
    ⟨by decide, by simp [Value.parts, Value.partsItems, Value.Within]⟩
  exact (decode_iff_encodes {} _ _ 5 rfl (by decide)).2
    ⟨by decide, ⟨_, by rfl, harray⟩, hfits⟩

end Memory

end CborCodec
