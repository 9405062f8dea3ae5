import CborCodec.Proofs.Programs
/-!
What a program of leaves, containers and streams comes to. It is written exactly if its tags are
tags, its simple values are not reserved and its counts are those of its calls; and then its bytes
are read back as the value that the program describes.
-/

namespace CborCodec

namespace Program

/-- A call that says by itself what is to be written. -/
def Plain : Program → Prop
  | leaf l | tagged _ l => l.Whole
  | container .. => True
  | byteCalls calls => ∀ c ∈ calls, c.Plain
  | textCalls calls => ∀ c ∈ calls, c.Plain
  | raw _ | itemFrom | attempt _ | fail => False

/-- Its tags are tags, its simple values are not reserved, its count is that of its calls. -/
def Declared : Program → Prop
  | leaf l => l.Encodable
  | tagged tags l => (∀ t ∈ tags, t.toWord?.isSome) ∧ l.Encodable
  | container kind (some count) calls => count.toNat * kind.slots = calls.length
  | _ => True

/-- Neither a container without a count nor a string in chunks. -/
def Definite : Program → Prop
  | container _ none _ | byteCalls _ | textCalls _ => False
  | _ => True

mutual

def wire : Program → Bytes
  | leaf l => l.wire
  | tagged tags l => wireTags tags ++ l.wire
  | container kind count calls => lead kind count ++ (wireAll calls ++ trail count)
  | byteCalls calls => wireStream .bytes id calls
  | textCalls calls => wireStream .text Bytes.ofText calls
  | raw _ | itemFrom | attempt _ | fail => []

def wireAll : List Program → Bytes
  | [] => []
  | call :: calls => wire call ++ wireAll calls

end

mutual

def denote : Program → Value
  | leaf l => l.denote
  | tagged tags l => taggedWith tags l.denote
  | container .array _ calls => .array (denoteAll calls)
  | container .map _ calls => .map (pairUp (denoteAll calls))
  | byteCalls calls => .bytes (calls.filterMap ChunkCall.chunk?).flatten
  | textCalls calls => .text (String.join (calls.filterMap ChunkCall.chunk?))
  | raw _ | itemFrom | attempt _ | fail => .undefined

def denoteAll : List Program → List Value
  | [] => []
  | call :: calls => denote call :: denoteAll calls

end

theorem wireAll_eq (calls : List Program) : wireAll calls = calls.flatMap wire := by
  induction calls with
  | nil => rfl
  | cons c cs ih => rw [wireAll, ih, List.flatMap_cons]

theorem denoteAll_eq (calls : List Program) : denoteAll calls = calls.map denote := by
  induction calls with
  | nil => rfl
  | cons c cs ih => rw [denoteAll, ih, List.map_cons]

theorem Plain.places {p : Program} (h : p.Plain) : p.places = 1 := by
  cases p with
  | raw | itemFrom | attempt | fail => cases h
  | _ => rfl

section Emission

variable {σ τ : Type} [Input σ] [Output τ] [Recording τ]

/-- As `Declared`, where the declared number of calls is one of 64 bits. -/
def Counted : Program → Prop
  | container kind (some count) calls =>
    count.toNat * kind.slots = calls.length ∧ calls.length < UInt64.size
  | p => p.Declared

omit [Recording τ] in
/-- Calls of one place each are written one behind another, if the container has the places. -/
theorem emits_runAll (options : Options) {declared : Option Nat} (taken : Nat)
    {calls : List Program} (hplaces : ∀ c ∈ calls, c.places = 1)
    (h : ∀ c ∈ calls, ∀ taken, Emits (putBeside (σ := σ) (τ := τ)) (run options declared taken c)
      (HasPlaces declared taken 1 ∧ c.Throughout Counted) c.wire ()) :
    Emits (putBeside (σ := σ) (τ := τ)) (runAll options declared taken calls)
      (HasPlaces declared taken calls.length ∧ ∀ c ∈ calls, c.Throughout Counted)
      (wireAll calls) (taken + calls.length) := by
  induction calls generalizing taken with
  | nil => exact (Emits.pure taken).congr (by simp [HasPlaces])
  | cons c cs ih =>
    rw [List.forall_mem_cons] at hplaces h
    have hrest := ih (taken + c.places) hplaces.2 h.2
    rw [hplaces.1, Nat.add_assoc, Nat.add_comm 1] at hrest
    rw [runAll, wireAll, List.length_cons, hplaces.1]
    refine ((h.1 taken).bind hrest).congr ?_
    have hsplit : HasPlaces declared taken 1 ∧ HasPlaces declared (taken + 1) cs.length ↔
        HasPlaces declared taken (cs.length + 1) := by
      unfold HasPlaces
      rw [← forall_and]
      exact forall_congr' fun k => by
        rw [← imp_and]
        exact imp_congr_right fun _ => by omega
    rw [List.forall_mem_cons, ← hsplit]
    tauto

/-- A plain program writes its bytes, or is refused on the way. -/
theorem emits (options : Options) {p : Program} (h : p.Throughout Plain) (declared : Option Nat)
    (taken : Nat) :
    Emits (putBeside (σ := σ) (τ := τ)) (run options declared taken p)
      (HasPlaces declared taken 1 ∧ p.Throughout Counted) p.wire () := by
  have hplace := emits_takePlace (σ := σ) (τ := τ) declared taken
  induction p generalizing declared taken with
  | leaf l =>
    rw [throughout_of_parts rfl] at h ⊢
    exact hplace.bind (l.emits h).onSecond
  | tagged tags l =>
    rw [throughout_of_parts rfl] at h ⊢
    exact hplace.bind ((emits_tags tags).onSecond.bind (l.emits h).onSecond)
  | byteCalls calls =>
    rw [throughout_of_parts rfl] at h ⊢
    exact hplace.bind (emits_stream id (Or.inl rfl) h).onSecond
  | textCalls calls =>
    rw [throughout_of_parts rfl] at h ⊢
    exact hplace.bind (emits_stream Bytes.ofText (Or.inr rfl) h).onSecond
  | container kind count calls ih =>
    rw [throughout_container] at h ⊢
    have hplaces (c) (hc : c ∈ calls) : c.places = 1 := (h.2 c hc).self.places
    have hcalls (inner : Option Nat) := emits_runAll options 0 hplaces
      fun c hc taken => ih c hc (h.2 c hc) inner taken (emits_takePlace inner taken)
    refine (hplace.bind ((emits_openContainer kind count).onSecond.bind
      ((hcalls _).bind (emits_endContainer kind count _).onSecond))).congr
      (and_congr_right fun _ => ?_)
    cases count with
    | none => simp [declares, HasPlaces, Counted, Declared]
    | some count =>
      simp only [declares, HasPlaces, Counted, Option.map_some, Option.some.injEq, forall_eq',
        Nat.zero_add]
      constructor
      · rintro ⟨hsize, ⟨-, hall⟩, hlen⟩
        exact ⟨⟨hlen.symm, hlen ▸ hsize⟩, hall⟩
      · rintro ⟨⟨hlen, hsize⟩, hall⟩
        exact ⟨hlen ▸ hsize, ⟨Or.inr hlen.ge, hall⟩, hlen.symm⟩
  | raw | itemFrom | fail => exact absurd h.self id
  | attempt call => exact absurd h.self id

end Emission

section Meaning

variable {mode : Mode} {count : Option UInt64} {calls : List Program}

/-- The bytes of joined texts are their bytes joined. -/
theorem ofText_join (chunks : List String) :
    Bytes.ofText (String.join chunks) = chunks.flatMap Bytes.ofText := by
  induction chunks with
  | nil => rfl
  | cons c cs ih =>
    rw [String.join_cons, List.flatMap_cons, ← ih]
    simp [Bytes.ofText, String.toByteArray_append]

/-- The head of a container with the count that it declares. -/
theorem encode_count (m : Major) {count : UInt64} {n : Nat} (h : count.toNat = n) :
    Head.encode m count = m.spell (.shortest n) n ∧ (ArgumentWidth.shortest n).Holds n := by
  subst h
  exact ⟨encode_eq_spell m count, ArgumentWidth.holds_shortest count.toNat_lt⟩

/-- Calls that spell values spell, in an array, the array of these. -/
theorem spells_array (h : ∀ c ∈ calls, Spells mode c.denote c.wire)
    (hd : Declared (container .array count calls)) (hm : count = none → mode = .lenient) :
    Spells mode (denote (container .array count calls)) (wire (container .array count calls)) := by
  let items := calls.map fun c => (c.denote, c.wire)
  have hitems : ∀ i ∈ items, Spells mode i.1 i.2 := List.forall_mem_map.mpr h
  have hvalue : items.map (·.1) = denoteAll calls := by rw [denoteAll_eq, List.map_map]; rfl
  have hwire : items.flatMap (·.2) = wireAll calls := by rw [wireAll_eq, List.flatMap_map]
  rw [denote, ← hvalue]
  cases count with
  | none =>
    rw [wire, ← hwire]
    exact .openArray items (hm rfl) hitems
  | some n =>
    have hlen : n.toNat = items.length := by
      rw [List.length_map]
      exact (Nat.mul_one _).symm.trans hd
    obtain ⟨hhead, hholds⟩ := encode_count .array hlen
    rw [wire, ← hwire, trail, List.append_nil]
    show Spells mode _ (Head.encode .array n ++ _)
    rw [hhead]
    exact .array _ items hitems hholds (admits_shortest (by decide)).of_strict

/-- Calls that spell values spell, two by two in a map, the map of these. -/
theorem spells_map (h : ∀ c ∈ calls, Spells mode c.denote c.wire)
    (heven : calls.length % 2 = 0) (hd : Declared (container .map count calls))
    (hm : count = none → mode = .lenient) :
    Spells mode (denote (container .map count calls)) (wire (container .map count calls)) := by
  obtain ⟨twos, rfl⟩ := exists_pairUp heven
  let pairs := twos.map fun p => ((p.1.denote, p.2.denote), (p.1.wire, p.2.wire))
  rw [List.forall_mem_flatMap] at h
  have hkeys : ∀ p ∈ pairs, Spells mode p.1.1 p.2.1 :=
    List.forall_mem_map.mpr fun p hp => h p hp p.1 (by simp)
  have hvalues : ∀ p ∈ pairs, Spells mode p.1.2 p.2.2 :=
    List.forall_mem_map.mpr fun p hp => h p hp p.2 (by simp)
  have hvalue : pairs.map (·.1) =
      pairUp (denoteAll (twos.flatMap fun p => [p.1, p.2])) := by
    have hflat : (twos.flatMap fun p => [p.1, p.2]).map denote =
        (pairs.map (·.1)).flatMap fun p => [p.1, p.2] := by
      rw [List.map_flatMap, List.flatMap_map, List.flatMap_map]
      rfl
    rw [denoteAll_eq, hflat, pairUp_flatMap]
  have hwire : (pairs.flatMap fun p => p.2.1 ++ p.2.2) =
      wireAll (twos.flatMap fun p => [p.1, p.2]) := by
    rw [wireAll_eq, List.flatMap_assoc, List.flatMap_map]
    simp
  rw [denote, ← hvalue]
  cases count with
  | none =>
    rw [wire, ← hwire]
    exact .openMap pairs (hm rfl) hkeys hvalues
  | some n =>
    have hlen : n.toNat = pairs.length := by
      have htwice : n.toNat * 2 = (twos.flatMap fun p => [p.1, p.2]).length := hd
      have hlength : (twos.flatMap fun p => [p.1, p.2]).length = twos.length * 2 := by
        simp [List.map_const']
      rw [List.length_map]
      omega
    obtain ⟨hhead, hholds⟩ := encode_count .map hlen
    rw [wire, ← hwire, trail, List.append_nil]
    show Spells mode _ (Head.encode .map n ++ _)
    rw [hhead]
    exact .map _ pairs hkeys hvalues hholds (admits_shortest (by decide)).of_strict

/-- The bytes of a call are some of those of the container. -/
theorem length_wire_le {kind : Container} {c : Program} (hc : c ∈ calls) :
    c.wire.length ≤ (container kind count calls).wire.length := by
  have hpart := length_le_of_mem_flatMap (f := wire) hc
  rw [← wireAll_eq] at hpart
  rw [wire, List.length_append, List.length_append]
  omega

/-- The bytes of a program are one spelling of the value that it describes. -/
theorem spells {p : Program} (hp : p.Throughout Plain) (heven : p.Throughout Even)
    (hd : p.Throughout Declared) (hm : mode = .lenient ∨ p.Throughout Definite)
    (hb : p.wire.length < 2 ^ 64) : Spells mode p.denote p.wire := by
  induction p with
  | leaf l =>
    rw [throughout_of_parts rfl] at hp hd
    exact (Leaf.spells hp hd hb).of_strict
  | tagged tags l =>
    rw [throughout_of_parts rfl] at hp hd
    rw [wire, List.length_append] at hb
    exact (spells_tagged tags (Leaf.spells hp hd.2 (by omega))).of_strict
  | byteCalls calls =>
    have hl : mode = .lenient := hm.resolve_right fun h => h.self
    rw [denote, wire, wireStream] at *
    generalize calls.filterMap ChunkCall.chunk? = chunks at *
    rw [List.length_append, List.length_append] at hb
    have hlengths := length_payload_lt (m := .bytes) id chunks (by omega)
    have h := Spells.openBytes (chunks.map fun c => (.shortest (id c).length, id c)) hl
      (List.forall_mem_map.mpr fun c hc => ArgumentWidth.holds_shortest (hlengths c hc))
    rw [← flatMap_chunk_eq id hlengths, List.flatMap_map] at h
    rw [← List.flatMap_id]
    exact h
  | textCalls calls =>
    have hl : mode = .lenient := hm.resolve_right fun h => h.self
    rw [denote, wire, wireStream] at *
    generalize calls.filterMap ChunkCall.chunk? = chunks at *
    rw [List.length_append, List.length_append] at hb
    have hlengths := length_payload_lt (m := .text) Bytes.ofText chunks (by omega)
    have h := Spells.openText (String.join chunks)
      (chunks.map fun c => (.shortest (Bytes.ofText c).length, Bytes.ofText c)) hl
      (List.forall_mem_map.mpr fun c hc => ArgumentWidth.holds_shortest (hlengths c hc))
      (by rw [ofText_join, List.flatMap_map]) (List.forall_mem_map.mpr fun c _ => ⟨c, rfl⟩)
    rw [← flatMap_chunk_eq Bytes.ofText hlengths] at h
    exact h
  | container kind count calls ih =>
    have hopen : count = none → mode = .lenient := by
      rintro rfl
      exact hm.resolve_right fun h => h.self
    rw [throughout_container] at hp heven hd
    have hcalls : ∀ c ∈ calls, Spells mode c.denote c.wire := by
      intro c hc
      apply ih c hc (hp.2 c hc) (heven.2 c hc) (hd.2 c hc)
      · exact hm.imp_right fun h => (throughout_container.mp h).2 c hc
      · exact (length_wire_le hc).trans_lt hb
    cases kind with
    | array => exact spells_array hcalls hd.1 hopen
    | map =>
      refine spells_map hcalls ?_ hd.1 hopen
      cases count with
      | none =>
        have hplaces : (calls.map places).sum = calls.length := by
          have hone : calls.map places = calls.map fun _ => 1 :=
            List.map_congr_left fun c hc => (hp.2 c hc).self.places
          rw [hone]
          simp
        exact hplaces ▸ heven.1
      | some n =>
        have htwice : n.toNat * 2 = calls.length := hd.1
        omega
  | raw | itemFrom | fail => exact absurd hp.self id
  | attempt call => exact absurd hp.self id

/-- Short of 64 bits of bytes no more calls can be made than 64 bits can count. -/
theorem counted_iff {p : Program} (hp : p.Throughout Plain) (heven : p.Throughout Even)
    (hb : p.wire.length < 2 ^ 64) : p.Throughout Counted ↔ p.Throughout Declared := by
  induction p with
  | container kind count calls ih =>
    rw [throughout_container] at hp heven ⊢
    have hpart (c) (hc : c ∈ calls) : c.wire.length < 2 ^ 64 := (length_wire_le hc).trans_lt hb
    have hcalls : (∀ c ∈ calls, c.Throughout Counted) ↔ ∀ c ∈ calls, c.Throughout Declared :=
      forall₂_congr fun c hc => ih c hc (hp.2 c hc) (heven.2 c hc) (hpart c hc)
    rw [throughout_container, hcalls]
    refine and_congr_left fun hd => ?_
    -- Every call that is declared so writes a byte at least.
    have hspells (c) (hc : c ∈ calls) : Spells .lenient c.denote c.wire :=
      spells (hp.2 c hc) (heven.2 c hc) (hd c hc) (Or.inl rfl) (hpart c hc)
    have hcount := length_mul_le_flatMap fun c hc => (hspells c hc).noBreak.length_pos
    rw [← wireAll_eq] at hcount
    rw [wire, List.length_append, List.length_append] at hb
    have hsize : calls.length < UInt64.size := by
      unfold UInt64.size
      omega
    cases count with
    | none => exact Iff.rfl
    | some n => exact and_iff_left hsize
  | attempt call => exact absurd hp.self id
  | _ => rw [throughout_of_parts rfl, throughout_of_parts rfl]; rfl

end Meaning

section Described

variable {σ : Type} [Input σ]

/-- While memory lasts, a program of plain calls, with a value for each key, is written exactly if
it is declared as it should be, and else is refused for a value out of range. What is written is
read back as the value that the program describes, in lenient mode, and without chunks and open
containers in every mode. -/
theorem emit_described (options : Options) {p : Program} (hp : p.Throughout Plain)
    (heven : p.Throughout Even) (s : σ) (o : GrowingOutput) (hroom : o.HasRoom p.wire.length) :
    ((∃ t, p.emit options (s, o) = .ok () t) ↔ p.Throughout Declared) ∧
      (¬p.Throughout Declared → ∃ t, p.emit options (s, o) = .error .itemValueOutOfRange t) ∧
      ∀ t, p.emit options (s, o) = .ok () t → t.1 = s ∧ t.2.toBytes = o.toBytes ++ p.wire ∧
        ∀ reading : Options, reading.mode = .lenient ∨ p.Throughout Definite →
          p.denote.Fits reading reading.maxDepth.toNat →
          decodeBytes (Value.decode reading) p.wire = .ok (p.denote, p.wire.length) := by
  have hlength : p.wire.length ≤ allocationLimit := by
    unfold GrowingOutput.HasRoom at hroom
    omega
  have hword : p.wire.length < 2 ^ 64 := lt_of_le_of_lt hlength (by decide)
  obtain ⟨y, hy, hemits⟩ :=
    (emits (σ := σ) (τ := GrowingOutput) options hp none 0).exists_onSecond
  have hvalid : HasPlaces none 0 1 ∧ p.Throughout Counted ↔ p.Throughout Declared := by
    have hplaces : HasPlaces none 0 1 := by
      intro k hk
      cases hk
    rw [counted_iff hp heven hword]
    exact and_iff_right hplaces
  have hemits := hemits.congr hvalid
  have hrun : p.emit options (s, o) = onSecond y (s, o) := congrFun hy (s, o)
  rw [hrun]
  by_cases hd : p.Throughout Declared
  · obtain ⟨o', ho', hbytes⟩ := hemits.writes hd o hroom
    have hok : onSecond y (s, o) = .ok () (s, o') := by simp only [onSecond, ho']
    rw [hok]
    refine ⟨iff_of_true ⟨_, rfl⟩ hd, fun hn => absurd hd hn, fun t ht => ?_⟩
    cases ht
    refine ⟨rfl, hbytes, fun reading hm hfits => ?_⟩
    rw [decode_eq_ok_iff reading _ _ _ hlength, List.take_length]
    exact ⟨le_rfl, spells hp heven hd hm hword, hfits⟩
  · obtain ⟨o', ho'⟩ := hemits.refuses hd o hroom
    have herror : onSecond y (s, o) = .error .itemValueOutOfRange (s, o') := by
      simp only [onSecond, ho']
    rw [herror]
    refine ⟨iff_of_false ?_ hd, fun _ => ⟨_, rfl⟩, ?_⟩
    · rintro ⟨t, ht⟩
      cases ht
    · intro t ht
      cases ht

/-- A map without a count, in which a tagged NaN and a string in chunks are an array of two. -/
def sample : Program :=
  container .map none [leaf (.text "a"),
    container .array (some 2) [tagged [.integer 1] (.half 0x7E01), byteStream [[1], [2]]]]

theorem throughout_sample {P : Program → Prop} (houter : P sample) (hkey : P (leaf (.text "a")))
    (hinner : P (container .array (some 2) [tagged [.integer 1] (.half 0x7E01),
      byteStream [[1], [2]]]))
    (htagged : P (tagged [.integer 1] (.half 0x7E01))) (hstring : P (byteStream [[1], [2]])) :
    sample.Throughout P := by
  refine throughout_container.mpr ⟨houter, List.forall_mem_cons.mpr ⟨?_, ?_⟩⟩
  · exact (throughout_of_parts rfl).mpr hkey
  · rw [List.forall_mem_singleton, throughout_container, List.forall_mem_cons,
      List.forall_mem_singleton]
    exact ⟨hinner, (throughout_of_parts rfl).mpr htagged, (throughout_of_parts rfl).mpr hstring⟩

theorem emit_described_sample :
    ∃ t, sample.emit {} (MemoryInput.ofBytes [], GrowingOutput.ofCapacity 0) = .ok () t ∧
      decodeBytes (Value.decode {}) t.2.toBytes =
        .ok (.map [(.text "a", .array [.tag 1 (.float (Double.ofHalf 0x7E01)), .bytes [1, 2]])],
          15) := by
  have hplain : sample.Throughout Plain :=
    throughout_sample trivial (.plain rfl) trivial (.half _)
      (by simp [Plain, byteStream, ChunkCall.Plain])
  have heven : sample.Throughout Even := throughout_sample rfl trivial trivial trivial trivial
  have hdeclared : sample.Throughout Declared :=
    throughout_sample trivial (by simp [Declared, Leaf.Encodable, Leaf.value?, Value.Avoids,
      Value.parts]) rfl (by simp [Declared, Leaf.Encodable, Leaf.value?, TagNumber.toWord?,
      UInt64.size]) trivial
  have hroom : (GrowingOutput.ofCapacity 0).HasRoom sample.wire.length := by
    unfold GrowingOutput.HasRoom
    decide
  have hdenote : sample.denote =
    .map [(.text "a", .array [.tag 1 (.float (Double.ofHalf 0x7E01)), .bytes [1, 2]])] := rfl
  have hfits : sample.denote.Fits {} 256 := by
    rw [hdenote]
    refine ⟨by decide, ?_⟩
    simp [Value.parts, Value.partsItems, Value.partsPairs, Value.Within]
    decide
  obtain ⟨hok, -, hwritten⟩ :=
    emit_described {} hplain heven (MemoryInput.ofBytes []) (GrowingOutput.ofCapacity 0) hroom
  obtain ⟨t, ht⟩ := hok.mpr hdeclared
  obtain ⟨-, hbytes, hread⟩ := hwritten t ht
  refine ⟨t, ht, ?_⟩
  rw [hbytes]
  exact hread {} (Or.inl rfl) hfits

end Described

end Program

end CborCodec
