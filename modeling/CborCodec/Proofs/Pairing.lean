import CborCodec.Proofs.Programs
import CborCodec.Proofs.Rejecting
/-!
What calls write that succeed. Where every failure is passed on and what is copied is whole, a call
writes one item, but for one thing: the break of a map without a count is written after any number
of calls. With an odd number of them the bytes are refused by every walk over them, and so are
those of all containers around the map.
-/

namespace CborCodec

/-- Lenient mode, with limits that no part of so many bytes exceeds. -/
structure Options.Generous (reading : Options) (n : Nat) : Prop where
  lenient : reading.mode = .lenient
  strings : n ≤ reading.maxStringSize.toNat
  items : n ≤ reading.maxItems.toNat

theorem Options.Generous.mono {reading : Options} {m n : Nat} (h : reading.Generous n)
    (hle : m ≤ n) : reading.Generous m :=
  ⟨h.lenient, hle.trans h.strings, hle.trans h.items⟩

theorem AnyItem.wellFormed {reading : Options} {bs : Bytes} (h : AnyItem bs)
    (hr : reading.Generous bs.length) : WellFormed reading bs := by
  have hitem := h.unlimited.bounded (Or.inr hr.strings) hr.items
  rw [WellFormed, hr.lenient]
  exact hitem

/-- No walk gets over the bytes, whatever is behind them, nor over anything around them. -/
def Refused (bs : Bytes) : Prop :=
  ∀ reading : Options, reading.Generous bs.length → ∀ below,
    Rejects (walkItem reading below : EStateM Error (MemoryInput × Nowhere) Unit)
      .itemTypeMismatch bs

namespace Program

def Whole : Program → Prop
  | leaf l | tagged _ l => l.Whole
  | raw bs => AnyItem bs
  | _ => True

def Propagates : Program → Prop
  | attempt _ => False
  | byteCalls calls => ∀ c ∈ calls, c.Propagates
  | textCalls calls => ∀ c ∈ calls, c.Propagates
  | _ => True

/-- The bytes are those of one call: an item, or refused for a map with an odd number of calls. -/
structure Makes (p : Program) (bs : Bytes) : Prop where
  places : p.places = 1
  noBreak : NoBreak bs
  item : p.Throughout Even → AnyItem bs
  refused : ¬p.Throughout Even → Refused bs

section Makes

variable {p : Program} {bs : Bytes} {kind : Container} {count : Option UInt64}
  {calls : List Program} {pieces : List Bytes}

/-- A call without others inside makes an item if it makes one by itself. -/
theorem Makes.of_item (hparts : p.parts = [p]) (hp : p.places = 1) (heven : p.Even)
    (h : AnyItem bs) : p.Makes bs :=
  ⟨hp, h.noBreak, fun _ => h, fun hn => absurd ((throughout_of_parts hparts).mpr heven) hn⟩

/-- Calls take as many places as they make pieces. -/
theorem places_eq (h : List.Forall₂ Makes calls pieces) :
    (calls.map places).sum = pieces.length := by
  induction h with
  | nil => rfl
  | cons hmakes _ ih => rw [List.map_cons, List.sum_cons, List.length_cons, hmakes.places, ih,
      Nat.add_comm]

theorem noBreak_of_mem (h : List.Forall₂ Makes calls pieces) : ∀ i ∈ pieces, NoBreak i := by
  induction h with
  | nil => simp
  | cons hmakes _ ih => exact List.forall_mem_cons.mpr ⟨hmakes.noBreak, ih⟩

/-- If no map inside has an odd number of calls, all pieces are items. -/
theorem anyItem_of_mem (h : List.Forall₂ Makes calls pieces)
    (heven : ∀ c ∈ calls, c.Throughout Even) : ∀ i ∈ pieces, AnyItem i := by
  induction h with
  | nil => simp
  | cons hmakes _ ih =>
    rw [List.forall_mem_cons] at heven
    exact List.forall_mem_cons.mpr ⟨hmakes.item heven.1, ih heven.2⟩

/-- Where not all calls make items there is a first that does not. -/
theorem exists_refused (h : List.Forall₂ Makes calls pieces)
    (hn : ¬∀ c ∈ calls, c.Throughout Even) :
    ∃ before bad behind, pieces = before ++ bad :: behind ∧ (∀ i ∈ before, AnyItem i) ∧
      Refused bad := by
  induction h with
  | nil => simp at hn
  | @cons c bs cs pieces hmakes _ ih =>
    by_cases hc : c.Throughout Even
    · obtain ⟨before, bad, behind, rfl, hitems, hbad⟩ :=
        ih fun hall => hn (List.forall_mem_cons.mpr ⟨hc, hall⟩)
      exact ⟨bs :: before, bad, behind, rfl,
        List.forall_mem_cons.mpr ⟨hmakes.item hc, hitems⟩, hbad⟩
    · exact ⟨[], bs, pieces, rfl, by simp, hmakes.refused hc⟩

def headOf (kind : Container) : Option UInt64 → Head
  | none => ⟨kind.major, true, 1, 0⟩
  | some n => .definite kind.major n (1 + (ArgumentWidth.shortest n.toNat).bytes)

theorem spelled_headOf (kind : Container) (count : Option UInt64) :
    (headOf kind count).Spelled (lead kind count) := by
  cases count with
  | none => exact .opening kind.major (by cases kind <;> rfl)
  | some n =>
    have h := Head.Spelled.definite kind.major (.shortest n.toNat) n.toNat
      (ArgumentWidth.holds_shortest n.toNat_lt)
    rw [UInt64.ofNat_toNat] at h
    rw [lead, encode_eq_spell]
    exact h

theorem check_headOf {reading : Options} (hr : reading.mode = .lenient) :
    (headOf kind count).check reading.mode = .ok () := by
  rw [hr]
  rfl

theorem noBreak_lead (kind : Container) (count : Option UInt64) : NoBreak (lead kind count) := by
  cases count with
  | none => exact noBreak_opening (by cases kind <;> decide)
  | some n =>
    rw [lead, encode_eq_spell]
    exact noBreak_spell _ (ArgumentWidth.holds_shortest n.toNat_lt)

/-- Items between a head and its end make an item, if their number is the declared one and maps get
pairs. -/
theorem anyItem_container (hitems : ∀ i ∈ pieces, AnyItem i)
    (hcount : ∀ n, declares kind count = some n → pieces.length = n)
    (heven : kind = .map → count = none → pieces.length % 2 = 0) :
    AnyItem (lead kind count ++ (pieces.flatten ++ trail count)) := by
  cases count with
  | none =>
    cases kind with
    | array => exact .openArray pieces rfl hitems
    | map => exact .openMap pieces rfl hitems (heven rfl rfl)
  | some n =>
    have hlen : pieces.length = n.toNat * kind.slots := hcount _ rfl
    have hholds := ArgumentWidth.holds_shortest n.toNat_lt
    have hlimit : (n.toNat : ℕ∞) ≤ (Options.widest.maxItems.toNat : ℕ∞) := by
      exact_mod_cast Nat.le_of_lt_succ n.toNat_lt
    rw [lead, trail, List.append_nil, encode_eq_spell]
    cases kind with
    | array =>
      have hone : pieces.length = n.toNat := hlen.trans (Nat.mul_one _)
      rw [← hone] at hholds hlimit ⊢
      exact .array _ pieces hitems hholds trivial hlimit
    | map =>
      exact .map _ n.toNat pieces hitems (hlen.trans (Nat.mul_comm _ _)) hholds trivial hlimit

/-- A container with so many pieces declares no more than there is room for. -/
theorem count_headOf_le {reading : Options} {size : Nat}
    (hcount : ∀ n, declares kind count = some n → pieces.length = n)
    (hpieces : pieces.length ≤ size) (hsize : size ≤ reading.maxItems.toNat)
    (hd : (headOf kind count).Declares) :
    (headOf kind count).value.toNat ≤ reading.maxItems.toNat ∧
      (headOf kind count).value.toNat ≤ capacityFor (headOf kind count).major size := by
  cases count with
  | none => exact absurd hd.2 (by simp [headOf])
  | some n =>
    have hlen : pieces.length = n.toNat * kind.slots := hcount _ rfl
    cases kind with
    | array =>
      rw [Container.slots] at hlen
      show n.toNat ≤ _ ∧ n.toNat ≤ size
      omega
    | map =>
      rw [Container.slots] at hlen
      show n.toNat ≤ _ ∧ n.toNat ≤ size / 2
      omega

/-- The frame of a container is not done before its last piece. -/
theorem frame_headOf_open {k : Nat}
    (hcount : ∀ n, declares kind count = some n → pieces.length = n) (hk : k < pieces.length) :
    (Frame.ofHead (headOf kind count)).indefinite = true ∨
      k < (Frame.ofHead (headOf kind count)).remaining := by
  cases count with
  | none => exact Or.inl rfl
  | some n =>
    have hlen : pieces.length = n.toNat * kind.slots := hcount _ rfl
    refine Or.inr ?_
    cases kind with
    | array =>
      rw [Container.slots] at hlen
      show k < n.toNat
      omega
    | map =>
      rw [Container.slots] at hlen
      show k < 2 * n.toNat
      omega

theorem length_le_container {i : Bytes} (hi : i ∈ pieces) :
    i.length ≤ (lead kind count ++ (pieces.flatten ++ trail count)).length := by
  have hle := length_le_of_mem_flatten hi
  rw [List.length_append, List.length_append]
  omega

/-- A container with a piece that is refused is refused, and so is a map with a key to spare. -/
theorem refused_container (h : List.Forall₂ Makes calls pieces)
    (hcount : ∀ n, declares kind count = some n → pieces.length = n)
    (hn : ¬(container kind count calls).Throughout Even) :
    Refused (lead kind count ++ (pieces.flatten ++ trail count)) := by
  intro reading hr below
  have hsize (i) (hi : i ∈ pieces) : reading.Generous i.length := hr.mono (length_le_container hi)
  have hbreaks := noBreak_of_mem h
  have hpieces := length_le_flatten fun i hi => (hbreaks i hi).length_pos
  have hitems := hr.items
  rw [List.length_append] at hitems
  apply Rejects.headed (spelled_headOf kind count) (check_headOf hr.lenient)
    (count_headOf_le hcount (by rw [List.length_append]; omega) (by omega))
  by_cases hcalls : ∀ c ∈ calls, c.Throughout Even
  · -- All pieces are items, so it is the map itself that has an odd number of them.
    have hown : ¬Even (container kind count calls) := fun heven =>
      hn (throughout_container.mpr ⟨heven, hcalls⟩)
    obtain ⟨rfl, rfl⟩ : kind = .map ∧ count = none := by
      cases kind <;> cases count <;> simp [Even] at hown ⊢
    rw [Even, places_eq h] at hown
    apply Rejects.owed rfl rfl (iff_of_false Bool.false_ne_true hown)
    intro i hi
    exact (anyItem_of_mem h hcalls i hi).wellFormed (hsize i hi)
  · obtain ⟨before, bad, behind, rfl, hbefore, hbad⟩ := exists_refused h hcalls
    have hmem : bad ∈ before ++ bad :: behind := by simp
    have hmajor : (headOf kind count).major = .array ∨ (headOf kind count).major = .map := by
      cases count <;> cases kind <;> simp [headOf, Container.major, Head.definite]
    have hopen := frame_headOf_open hcount (k := before.length) (by simp)
    have hwell : ∀ i ∈ before, WellFormed reading i := fun i hi =>
      (hbefore i hi).wellFormed (hsize i (List.mem_append_left _ hi))
    -- The walk stops in the bad piece, so that nothing behind it is looked at.
    have hinside : Rejects (resume reading (Frame.ofHead (headOf kind count) :: below) :
        EStateM Error (MemoryInput × Nowhere) Unit) .itemTypeMismatch (before.flatten ++ bad) :=
      .inside hmajor hopen hwell (hbreaks bad hmem) (hbad reading (hsize bad hmem))
    have happend := hinside.append (behind.flatten ++ trail count)
    rw [List.flatten_append, List.flatten_cons]
    simpa only [List.append_assoc] using happend

/-- A container is one piece by itself, refused if a piece inside it is or if it is an odd map. -/
theorem makes_container (h : List.Forall₂ Makes calls pieces)
    (hcount : ∀ n, declares kind count = some n → pieces.length = n) :
    Makes (container kind count calls) (lead kind count ++ (pieces.flatten ++ trail count)) where
  places := rfl
  noBreak := (noBreak_lead kind count).append _
  item heven := by
    rw [throughout_container] at heven
    refine anyItem_container (anyItem_of_mem h heven.2) hcount ?_
    rintro rfl rfl
    rw [← places_eq h]
    exact heven.1
  refused := refused_container h hcount

end Makes

section Runs

open Recording

variable {σ τ : Type} [Input σ] [Output τ] [Recording τ] {options : Options}
  {declared : Option Nat} {taken made : Nat} {s t : σ × τ}

omit [Input σ] in
theorem written_beside {α : Type} {x : EStateM Error τ α} {P : Prop} {bs : Bytes} {a c : α}
    (h : Emits Output.putHead x P bs a) (hx : onSecond x s = .ok c t) :
    P ∧ c = a ∧ written t.2 = written s.2 ++ bs :=
  h.written (onSecond_eq_ok.mp hx).1

omit [Input σ] in
/-- A string that is ended, where failures are passed on, has all of its chunks. -/
theorem written_stream {m : Major} (hm : m = .bytes ∨ m = .text) {α : Type} (payload : α → Bytes)
    {calls : List (ChunkCall α)} (hp : ∀ c ∈ calls, c.Propagates)
    (h : onSecond (emitStream m (fun c => emitString m (payload c)) calls) s = .ok () t) :
    written t.2 = written s.2 ++ wireStream m payload calls :=
  have hplain := plain_of_emitStream hp (onSecond_eq_ok.mp h).1
  (written_beside (emits_stream payload hm hplain) h).2.2

omit [Input σ] [Output τ] [Recording τ] in
theorem takePlace_ok (h : takePlace declared taken s = .ok () t) : s = t := by
  cases declared with
  | none => exact (pure_eq_ok.mp h).2
  | some n => exact (failIf_eq_ok.mp h).2

omit [Input σ] [Output τ] [Recording τ] in
theorem of_takePlace {α : Type} {f : Unit → EStateM Error (σ × τ) α} {a : α}
    (h : (takePlace declared taken >>= f) s = .ok a t) : f () s = .ok a t := by
  obtain ⟨_, u, hplace, hrest⟩ := bind_eq_ok.mp h
  rw [takePlace_ok hplace]
  exact hrest

/-- The chunks of a string that are written make an item, whichever others have failed. -/
theorem anyItem_stream {m : Major} (hm : m = .bytes ∨ m = .text) {α : Type} (payload : α → Bytes)
    {calls : List (ChunkCall α)} (h : (wireStream m payload calls).length < 2 ^ 64) :
    AnyItem (wireStream m payload calls) := by
  rw [wireStream] at h ⊢
  rw [List.length_append, List.length_append] at h
  have hlengths := length_payload_lt payload (calls.filterMap ChunkCall.chunk?) (m := m) (by omega)
  rw [flatMap_chunk_eq payload hlengths] at h ⊢
  refine .chunked m _ hm rfl ?_ ?_
  · exact List.forall_mem_map.mpr fun c hc => ArgumentWidth.holds_shortest (hlengths c hc)
  · refine (sum_chunks_le m _).trans (Nat.le_of_lt_succ ?_)
    show _ < 2 ^ 64
    omega

omit [Recording τ] in
/-- Calls that all succeed are counted by their places. -/
theorem runAll_made {calls : List Program}
    (h : runAll options declared taken calls s = .ok made t) :
    made = taken + (calls.map places).sum := by
  induction calls generalizing taken s with
  | nil => exact (pure_eq_ok.mp h).1.symm
  | cons c cs ih =>
    obtain ⟨_, u, -, hrest⟩ := bind_eq_ok.mp h
    rw [ih hrest, List.map_cons, List.sum_cons, Nat.add_assoc]

/-- Calls that all succeed have written a piece each. -/
theorem makes_of_runAll {calls : List Program}
    (ih : ∀ c ∈ calls, ∀ {taken : Nat} {s t : σ × τ}, run options declared taken c s = .ok () t →
      (written t.2).length < 2 ^ 64 → ∃ bs, written t.2 = written s.2 ++ bs ∧ c.Makes bs)
    (h : runAll options declared taken calls s = .ok made t)
    (hsize : (written t.2).length < 2 ^ 64) :
    ∃ pieces, written t.2 = written s.2 ++ pieces.flatten ∧ List.Forall₂ Makes calls pieces := by
  induction calls generalizing taken s with
  | nil =>
    obtain ⟨-, rfl⟩ := pure_eq_ok.mp h
    exact ⟨[], (List.append_nil _).symm, .nil⟩
  | cons c cs ihcs =>
    rw [List.forall_mem_cons] at ih
    obtain ⟨_, u, hfirst, hrest⟩ := bind_eq_ok.mp h
    obtain ⟨pieces, hwritten, hpieces⟩ := ihcs ih.2 hrest
    have hshort : (written u.2).length < 2 ^ 64 := by
      rw [hwritten, List.length_append] at hsize
      omega
    obtain ⟨bs, hbs, hmakes⟩ := ih.1 hfirst hshort
    refine ⟨bs :: pieces, ?_, .cons hmakes hpieces⟩
    rw [hwritten, hbs, List.flatten_cons, List.append_assoc]

/-- A container that succeeds has written what each of its calls makes, as many as it declares. -/
theorem pieces_of_container {kind : Container} {count : Option UInt64} {calls : List Program}
    (ih : ∀ c ∈ calls, ∀ {declared : Option Nat} {taken : Nat} {s t : σ × τ},
      run options declared taken c s = .ok () t → (written t.2).length < 2 ^ 64 →
        ∃ bs, written t.2 = written s.2 ++ bs ∧ c.Makes bs)
    (h : run options declared taken (container kind count calls) s = .ok () t)
    (hsize : (written t.2).length < 2 ^ 64) :
    ∃ pieces, written t.2 = written s.2 ++ (lead kind count ++ (pieces.flatten ++ trail count)) ∧
      List.Forall₂ Makes calls pieces ∧
      ∀ n, declares kind count = some n → pieces.length = n := by
  obtain ⟨inner, v, hopen, hrest⟩ := bind_eq_ok.mp (of_takePlace h)
  obtain ⟨made, w, hcalls, hclose⟩ := bind_eq_ok.mp hrest
  obtain ⟨-, rfl, hlead⟩ := written_beside (emits_openContainer kind count) hopen
  obtain ⟨hmade, -, htrail⟩ := written_beside (emits_endContainer kind count made) hclose
  have hshort : (written w.2).length < 2 ^ 64 := by
    rw [htrail, List.length_append] at hsize
    omega
  obtain ⟨pieces, hwritten, hpieces⟩ := makes_of_runAll (fun c hc => ih c hc) hcalls hshort
  refine ⟨pieces, ?_, hpieces, fun n hn => ?_⟩
  · rw [htrail, hwritten, hlead, List.append_assoc, List.append_assoc]
  · rw [← places_eq hpieces, ← hmade n hn, runAll_made hcalls, Nat.zero_add]

/-- A call that succeeds has written one item, unless a map in it has an odd number of calls. -/
theorem makes_of_run (options : Options) {p : Program} (hw : p.Throughout Whole)
    (hp : p.Throughout Propagates) {declared : Option Nat} {taken : Nat} {s t : σ × τ}
    (h : run options declared taken p s = .ok () t) (hsize : (written t.2).length < 2 ^ 64) :
    ∃ bs, written t.2 = written s.2 ++ bs ∧ p.Makes bs := by
  have hlength {bs : Bytes} {s t : σ × τ} (hwritten : written t.2 = written s.2 ++ bs)
      (hsize : (written t.2).length < 2 ^ 64) : bs.length < 2 ^ 64 := by
    rw [hwritten, List.length_append] at hsize
    omega
  induction p generalizing declared taken s t with
  | leaf l =>
    have hemit := of_takePlace h
    rw [throughout_of_parts rfl] at hw
    obtain ⟨hl, -, hwritten⟩ := written_beside (l.emits hw) hemit
    exact ⟨l.wire, hwritten, .of_item rfl rfl trivial
      (l.spells hw hl (hlength hwritten hsize)).anyItem⟩
  | raw bs =>
    have hput := of_takePlace h
    rw [throughout_of_parts rfl] at hw
    obtain ⟨-, -, hwritten⟩ := written_beside (emits_put put_eq bs) hput
    exact ⟨bs, hwritten, .of_item rfl rfl trivial hw⟩
  | itemFrom =>
    have hcopy := of_takePlace h
    obtain ⟨bs, hadv, hwritten⟩ := copied_copyItem options s
    obtain ⟨item, hitem, hwell⟩ := Reads.copyItem options _ _ _ hcopy
    rw [hcopy, final_ok] at hadv hwritten
    rw [hadv.eq_left hitem] at hwritten
    exact ⟨item, hwritten, .of_item rfl rfl trivial
      (hwell.any (toNat_le_widest _))⟩
  | tagged tags l =>
    obtain ⟨_, v, htags, hemit⟩ := bind_eq_ok.mp (of_takePlace h)
    rw [throughout_of_parts rfl] at hw
    obtain ⟨-, -, hlead⟩ := written_beside (emits_tags tags) htags
    obtain ⟨hl, -, hwritten⟩ := written_beside (l.emits hw) hemit
    refine ⟨wireTags tags ++ l.wire, by rw [hwritten, hlead, List.append_assoc],
      .of_item rfl rfl trivial ?_⟩
    exact (spells_tagged tags (l.spells hw hl (hlength hwritten hsize))).anyItem
  | byteCalls calls =>
    have hemit := of_takePlace h
    rw [throughout_of_parts rfl] at hp
    have hwritten := written_stream (Or.inl rfl) id hp hemit
    exact ⟨_, hwritten, .of_item rfl rfl trivial
      (anyItem_stream (Or.inl rfl) id (hlength hwritten hsize))⟩
  | textCalls calls =>
    have hemit := of_takePlace h
    rw [throughout_of_parts rfl] at hp
    have hwritten := written_stream (Or.inr rfl) Bytes.ofText hp hemit
    exact ⟨_, hwritten, .of_item rfl rfl trivial
      (anyItem_stream (Or.inr rfl) Bytes.ofText (hlength hwritten hsize))⟩
  | container kind count calls ih =>
    rw [throughout_container] at hw hp
    obtain ⟨pieces, hwritten, hpieces, hcount⟩ := pieces_of_container
      (fun c hc => ih c hc (hw.2 c hc) (hp.2 c hc)) h hsize
    exact ⟨_, hwritten, makes_container hpieces hcount⟩
  | attempt call => exact absurd hp.self id
  | fail => cases h

/-- Calls that are whole and pass on every failure write, if they succeed, one item that every
lenient walk with room for it gets over, exactly if each map without a count has an even number of
calls. Otherwise such a walk refuses the bytes for their type. -/
theorem itemLength_of_run (options : Options) {p : Program} (hw : p.Throughout Whole)
    (hp : p.Throughout Propagates) {declared : Option Nat} {taken : Nat} {s t : σ × τ}
    (h : run options declared taken p s = .ok () t) (hsize : (written t.2).length < 2 ^ 64) :
    ∃ bs, written t.2 = written s.2 ++ bs ∧ ∀ (reading : Options) (rest : Bytes),
      reading.Generous bs.length →
        (p.Throughout Even → itemLength reading (bs ++ rest) = .ok bs.length) ∧
        (¬p.Throughout Even → itemLength reading (bs ++ rest) = .error .itemTypeMismatch) := by
  obtain ⟨bs, hwritten, hmakes⟩ := makes_of_run options hw hp h hsize
  refine ⟨bs, hwritten, fun reading rest hr => ⟨fun heven => ?_, fun hodd => ?_⟩⟩
  · rw [itemLength_eq_ok_iff, List.take_left, List.length_append]
    exact ⟨Nat.le_add_right _ _, (hmakes.item heven).wellFormed hr⟩
  · exact itemLength_of_rejects (hmakes.refused hodd reading hr []) rest

def zero : Program := leaf (.integer (.unsigned .w8) ⟨0, by decide⟩)

def written? (p : Program) : Option Bytes :=
  match p.emit {} (MemoryInput.ofBytes [], GrowingOutput.ofCapacity 0) with
  | .ok _ t => some t.2.toBytes
  | .error _ _ => none

theorem itemLength_even_map :
    (container .map none [zero, zero]).written? = some [0xBF, 0x00, 0x00, 0xFF] ∧
      itemLength {} [0xBF, 0x00, 0x00, 0xFF] = .ok 4 := by
  obtain ⟨t, ht, hbytes⟩ : ∃ t, (container .map none [zero, zero]).emit {}
      (MemoryInput.ofBytes [], GrowingOutput.ofCapacity 0) = .ok () t ∧
        t.2.toBytes = [0xBF, 0x00, 0x00, 0xFF] := ⟨_, rfl, rfl⟩
  have hcalls {P : Program → Prop} (h : P zero) : ∀ c ∈ [zero, zero], c.Throughout P := by
    simp [(throughout_of_parts (p := zero) rfl).mpr h]
  have hwhole : (container .map none [zero, zero]).Throughout Whole :=
    throughout_container.mpr ⟨trivial, hcalls (.plain rfl)⟩
  have hpropagates : (container .map none [zero, zero]).Throughout Propagates :=
    throughout_container.mpr ⟨trivial, hcalls trivial⟩
  have heven : (container .map none [zero, zero]).Throughout Even :=
    throughout_container.mpr ⟨rfl, hcalls trivial⟩
  have hsize : (written t.2).length < 2 ^ 64 := (congrArg List.length hbytes).trans_lt (by decide)
  obtain ⟨bs, hwritten, hread⟩ := itemLength_of_run {} hwhole hpropagates ht hsize
  obtain rfl : bs = [0xBF, 0x00, 0x00, 0xFF] := hwritten.symm.trans hbytes
  refine ⟨rfl, (hread {} [] ⟨rfl, by decide, by decide⟩).1 heven⟩

/-- A single call in a map without a count succeeds, and no walk gets over the bytes. -/
theorem itemLength_odd_map :
    (container .map none [zero]).written? = some [0xBF, 0x00, 0xFF] ∧
      itemLength {} [0xBF, 0x00, 0xFF] = .error .itemTypeMismatch :=
  ⟨rfl, by decide +kernel⟩

end Runs

end Program

end CborCodec
