import CborCodec.Proofs.Walking
import CborCodec.Sequence
/-!
The walk recognises the grammar. What a stack of frames still asks for is a predicate on the bytes
to come; a step consumes bytes and leaves a stack that asks for the rest, so a walk that ends has
consumed what its first stack asked for. Conversely the walk accepts each item of the grammar in
front of whatever it then accepts. The main statement puts the two together for the length of an
item in memory.
-/

namespace CborCodec

variable {σ τ : Type} [Input σ] [Output τ]

abbrev WellFormed (options : Options) (bs : Bytes) : Prop :=
  Item options.mode options.maxStringSize.toNat options.maxItems.toNat bs

/-- What may follow, up to its end, an item that a frame stands for. -/
def Frame.Closes (options : Options) (frame : Frame) (bs : Bytes) : Prop :=
  match frame.major with
  | .unsigned | .negative => bs = []
  | .special => frame.indefinite = false ∧ bs = []
  | .bytes | .text =>
    if frame.indefinite then
      ∃ chunks : List (ArgumentWidth × Bytes),
        bs = chunks.flatMap frame.major.chunk ++ [breakByte] ∧
        (∀ c ∈ chunks, c.1.Holds c.2.length) ∧
        (chunks.map (·.2.length)).sum ≤ options.maxStringSize.toNat
    else bs.length = frame.remaining ∧ frame.remaining ≤ options.maxStringSize.toNat
  | .array | .map =>
    ∃ items : List Bytes, (∀ i ∈ items, WellFormed options i) ∧
      if frame.indefinite then
        bs = items.flatten ++ [breakByte] ∧
          (frame.major = .map → (items.length % 2 = 1 ↔ frame.owed = true))
      else bs = items.flatten ∧ items.length = frame.remaining
  | .tag => WellFormed options bs

/-- What may follow, up to the end of the last of them, all frames of a stack. -/
def Completes (options : Options) : List Frame → Bytes → Prop
  | [], bs => bs = []
  | frame :: below, bs =>
    ∃ own rest, bs = own ++ rest ∧ frame.Closes options own ∧ Completes options below rest

section Soundness

variable {options : Options} {frame : Frame} {below frames : List Frame}

/-- A definite head and what closes its frame are an item. -/
theorem wellFormed_of_definite {h : Head} {lead bs : Bytes} (hs : h.Spelled lead)
    (hi : h.indefinite = false) (hc : h.check options.mode = .ok ())
    (hd : h.Declares → h.value.toNat ≤ options.maxItems.toNat)
    (hb : (Frame.ofHead h).Closes options bs) : WellFormed options (lead ++ bs) := by
  obtain ⟨w, -, hn, hlead, hadmits⟩ := hs.exists_spell hi
  have ha := hadmits options.mode hc
  subst hlead
  cases hm : h.major with
  | unsigned | negative =>
    simp only [Frame.Closes, Frame.ofHead, hm] at hb
    rw [hm] at ha
    rw [hb, List.append_nil]
    exact .bare _ w _ (by simp) hn ha
  | special =>
    simp only [Frame.Closes, Frame.ofHead, hm] at hb
    rw [hm] at ha
    rw [hb.2, List.append_nil]
    exact .bare _ w _ (by simp) hn ha
  | bytes | text =>
    simp only [Frame.Closes, Frame.ofHead, hm, hi] at hb
    obtain ⟨hlen, hle⟩ := hb
    simp only [reduceCtorEq, if_false] at hlen hle
    rw [hm, ← hlen] at ha
    rw [← hlen] at hn hle ⊢
    exact .string _ w bs (by simp) hn ha hle
  | array =>
    simp only [Frame.Closes, Frame.ofHead, hm, hi] at hb
    obtain ⟨items, hitems, rfl, hlen⟩ := hb
    simp only [reduceCtorEq, if_false] at hlen
    have hle := hd ⟨Or.inl hm, hi⟩
    rw [hm, ← hlen] at ha
    rw [← hlen] at hn hle ⊢
    exact .array w items hitems hn ha (by exact_mod_cast hle)
  | map =>
    simp only [Frame.Closes, Frame.ofHead, hm, hi] at hb
    obtain ⟨items, hitems, rfl, hlen⟩ := hb
    simp only [if_true] at hlen
    have hle := hd ⟨Or.inr hm, hi⟩
    rw [hm] at ha
    exact .map w _ items hitems hlen hn ha (by exact_mod_cast hle)
  | tag =>
    simp only [Frame.Closes, Frame.ofHead, hm] at hb
    rw [hm] at ha
    exact .tag w _ bs hb hn ha

/-- A head of indefinite length and what closes its frame are an item; a break is none. -/
theorem wellFormed_of_opening {h : Head} {lead bs : Bytes} (hs : h.Spelled lead)
    (hi : h.indefinite = true) (hc : h.check options.mode = .ok ())
    (hb : (Frame.ofHead h).Closes options bs) : WellFormed options (lead ++ bs) := by
  obtain ⟨rfl, hallows, hmode⟩ := hs.eq_opening hi
  -- Beyond lenient mode only the break has an indefinite head, and it closes no frame.
  have hlenient := hmode options.mode hc
  cases hm : h.major with
  | unsigned | negative | tag =>
    rw [hm] at hallows
    cases hallows
  | special =>
    simp only [Frame.Closes, Frame.ofHead, hm, hi] at hb
    cases hb.1
  | bytes | text =>
    simp only [Frame.Closes, Frame.ofHead, hm, hi, if_true] at hb
    obtain ⟨chunks, rfl, hn, hsum⟩ := hb
    exact .chunked _ chunks (by simp) (by simpa [hm] using hlenient) hn hsum
  | array =>
    simp only [Frame.Closes, Frame.ofHead, hm, hi, if_true] at hb
    obtain ⟨items, hitems, rfl, -⟩ := hb
    exact .openArray items (by simpa [hm] using hlenient) hitems
  | map =>
    simp only [Frame.Closes, Frame.ofHead, hm, hi, if_true] at hb
    obtain ⟨items, hitems, rfl, hpairs⟩ := hb
    have hodd := hpairs trivial
    simp only [Bool.false_eq_true, iff_false] at hodd
    exact .openMap items (by simpa [hm] using hlenient) hitems (by omega)

/-- What closes the frame that was taken makes an item of it. -/
theorem wellFormed_of_takeFrame {s t : σ × τ} (e : takeFrame options s = .ok frame t) :
    ∃ lead, Advances s lead t ∧
      ∀ bs, frame.Closes options bs → WellFormed options (lead ++ bs) := by
  obtain ⟨lead, hadv, h, rfl, hs, hc, hd⟩ := Reads.takeFrame options s frame t e
  refine ⟨lead, hadv, fun bs hb => ?_⟩
  cases hi : h.indefinite with
  | false => exact wellFormed_of_definite hs hi hc hd hb
  | true => exact wellFormed_of_opening hs hi hc hb

/-- An element that is opened leaves a stack that asks for the rest of it. -/
theorem completes_of_openElement {s t : σ × τ}
    (e : openElement options frame below s = .ok frames t)
    (hf : ∀ item more, WellFormed options item → frame.advance.Closes options more →
      frame.Closes options (item ++ more)) :
    ∃ used, Advances s used t ∧ ∀ more, Completes options frames more →
      Completes options (frame :: below) (used ++ more) := by
  obtain ⟨child, u, hu, e⟩ := bind_eq_ok.1 e
  obtain ⟨rfl, rfl⟩ := pure_eq_ok.1 e
  obtain ⟨lead, hadv, hitem⟩ := wellFormed_of_takeFrame hu
  refine ⟨lead, hadv, ?_⟩
  -- What is still asked for is the rest of the child, then of its container, then of those below.
  rintro more ⟨own, rest, rfl, hown, own', rest', rfl, hown', hbelow⟩
  refine ⟨lead ++ own ++ own', rest', by simp, ?_, hbelow⟩
  exact hf _ _ (hitem own hown) hown'

/-- An item in front of what closes the rest of a counted container closes all of it. -/
theorem closes_advance_definite (hm : frame.major = .array ∨ frame.major = .map)
    (hi : frame.indefinite = false) (hr : frame.remaining ≠ 0) {item more : Bytes}
    (hitem : WellFormed options item) (hmore : frame.advance.Closes options more) :
    frame.Closes options (item ++ more) := by
  rcases hm with hm | hm <;> simp only [Frame.Closes, Frame.advance, hm, hi] at hmore ⊢ <;>
  · obtain ⟨items, hall, rfl, hlen⟩ := hmore
    refine ⟨item :: items, List.forall_mem_cons.mpr ⟨hitem, hall⟩, rfl, ?_⟩
    rw [List.length_cons, hlen]
    omega

/-- An item in front of what closes the rest of an open container closes all of it. -/
theorem closes_advance_indefinite (hm : frame.major = .array ∨ frame.major = .map)
    (hi : frame.indefinite = true) {item more : Bytes} (hitem : WellFormed options item)
    (hmore : frame.advance.Closes options more) : frame.Closes options (item ++ more) := by
  rcases hm with hm | hm <;> simp only [Frame.Closes, Frame.advance, hm, hi] at hmore ⊢ <;>
  · obtain ⟨items, hall, hmore⟩ := hmore
    simp only [reduceCtorEq, if_true] at hmore ⊢
    obtain ⟨rfl, hpairs⟩ := hmore
    refine ⟨item :: items, List.forall_mem_cons.mpr ⟨hitem, hall⟩, by simp, fun hmap => ?_⟩
    -- One more item changes the parity, and so it does whether a value is owed.
    have hodd := hpairs hmap
    cases howed : frame.owed <;> simp_all <;> omega

theorem closes_end (hm : frame.major = .array ∨ frame.major = .map)
    (hi : frame.indefinite = false) (hr : frame.remaining = 0) : frame.Closes options [] := by
  rcases hm with hm | hm <;> simp only [Frame.Closes, hm, hi, hr] <;>
  exact ⟨[], by simp, rfl, rfl⟩

theorem closes_break (hm : frame.major = .array ∨ frame.major = .map)
    (hi : frame.indefinite = true) (howed : frame.owed = false) :
    frame.Closes options [breakByte] := by
  rcases hm with hm | hm <;> simp only [Frame.Closes, hm, hi, howed] <;>
  exact ⟨[], by simp, rfl, by simp⟩

/-- What completes the stack after a step completes the stack before it, behind the step's bytes. -/
theorem completes_of_stepContainer {s t : σ × τ} (hm : frame.major = .array ∨ frame.major = .map)
    (e : stepContainer options frame below s = .ok frames t) :
    ∃ used, Advances s used t ∧ ∀ more, Completes options frames more →
      Completes options (frame :: below) (used ++ more) := by
  cases hi : frame.indefinite with
  | false =>
    rw [stepContainer, if_neg (by simp [hi])] at e
    split at e
    · next hr =>
      obtain ⟨rfl, rfl⟩ := pure_eq_ok.1 e
      exact ⟨[], Advances.rfl, fun more hmore => ⟨[], more, rfl, closes_end hm hi hr, hmore⟩⟩
    · next hr =>
      exact completes_of_openElement e fun item more => closes_advance_definite hm hi hr
  | true =>
    rw [stepContainer, if_pos hi] at e
    obtain ⟨ended, u, hu, e⟩ := bind_eq_ok.1 e
    cases ended with
    | true =>
      obtain ⟨_, v, hv, e⟩ := bind_eq_ok.1 e
      obtain ⟨rfl, rfl⟩ := pure_eq_ok.1 e
      obtain ⟨howed, hadv⟩ := advances_closeContainer hu hv
      exact ⟨[breakByte], hadv, fun more hmore =>
        ⟨[breakByte], more, rfl, closes_break hm hi howed, hmore⟩⟩
    | false =>
      have hnone := (atBreak_eq_ok hu).1
      obtain ⟨used, hadv, hused⟩ := completes_of_openElement e
        fun item more => closes_advance_indefinite hm hi
      exact ⟨used, hnone.trans hadv, hused⟩

/-- What a step leaves to ask for, its stack had to ask for behind what the step consumed. -/
theorem completes_of_step {s t : σ × τ} (e : step options frame below s = .ok frames t) :
    ∃ used, Advances s used t ∧ ∀ more, Completes options frames more →
      Completes options (frame :: below) (used ++ more) := by
  have hdone {used : Bytes} (hclose : frame.Closes options used) (more : Bytes)
      (hmore : Completes options below more) :
      Completes options (frame :: below) (used ++ more) := ⟨used, more, rfl, hclose, hmore⟩
  cases hm : frame.major <;> simp only [step, hm] at e
  case unsigned | negative =>
    obtain ⟨rfl, rfl⟩ := pure_eq_ok.1 e
    exact ⟨[], Advances.rfl, hdone (by simp [Frame.Closes, hm])⟩
  case special =>
    obtain ⟨_, u, hu, e⟩ := bind_eq_ok.1 e
    obtain ⟨hi, rfl⟩ := failIf_eq_ok.1 hu
    obtain ⟨rfl, rfl⟩ := pure_eq_ok.1 e
    exact ⟨[], Advances.rfl, hdone (by simpa [Frame.Closes, hm] using hi)⟩
  case bytes | text =>
    obtain ⟨_, u, hu, e⟩ := bind_eq_ok.1 e
    obtain ⟨rfl, rfl⟩ := pure_eq_ok.1 e
    cases hi : frame.indefinite with
    | false =>
      rw [transferString_definite hi] at hu
      obtain ⟨bs, hadv, hbs⟩ := Reads.transferChunk options frame.remaining 0 s () u hu
      exact ⟨bs, hadv, hdone (by simpa [Frame.Closes, hm, hi] using hbs)⟩
    | true =>
      rw [transferString_indefinite hi] at hu
      obtain ⟨bs, hadv, hbs⟩ := Reads.transferChunks options frame.major 0 (Nat.zero_le _) s () u hu
      exact ⟨bs, hadv, hdone (by simpa [Frame.Closes, hm, hi] using hbs)⟩
  case array => exact completes_of_stepContainer (Or.inl hm) e
  case map => exact completes_of_stepContainer (Or.inr hm) e
  case tag =>
    obtain ⟨child, u, hu, e⟩ := bind_eq_ok.1 e
    obtain ⟨rfl, rfl⟩ := pure_eq_ok.1 e
    obtain ⟨lead, hadv, hitem⟩ := wellFormed_of_takeFrame hu
    refine ⟨lead, hadv, ?_⟩
    rintro more ⟨own, rest, rfl, hown, hbelow⟩
    refine ⟨lead ++ own, rest, by simp, ?_, hbelow⟩
    simpa [Frame.Closes, hm] using hitem own hown

/-- A walk that ends has consumed what its stack asked for. -/
theorem completes_of_walk {s t : σ × τ} {u : Unit} (e : walk options frames s = .ok u t) :
    ∃ used, Advances s used t ∧ Completes options frames used := by
  fun_induction walk options frames s with
  | case1 s =>
    cases e
    exact ⟨[], Advances.rfl, rfl⟩
  | case2 => cases e
  | case3 s frame below frames v h ih =>
    obtain ⟨used, hadv, hused⟩ := completes_of_step h
    obtain ⟨more, hadv', hmore⟩ := ih e
    exact ⟨used ++ more, hadv.trans hadv', hused more hmore⟩

end Soundness

/-- What the walk copies is an item. -/
theorem Reads.copyItem (options : Options) :
    Reads (copyItem options : EStateM Error (σ × τ) Unit) fun _ bs => WellFormed options bs := by
  intro s u t e
  obtain ⟨frame, v, hv, e⟩ := bind_eq_ok.1 e
  obtain ⟨lead, hadv, hitem⟩ := wellFormed_of_takeFrame hv
  obtain ⟨used, hadv', own, rest, rfl, hown, rfl⟩ := completes_of_walk e
  refine ⟨lead ++ (own ++ []), hadv.trans hadv', ?_⟩
  rw [List.append_nil]
  exact hitem own hown

section Completeness

variable [Reliable σ] [Endless τ] {options : Options}

/-- The walk accepts the bytes as an item, in front of whatever it then accepts. -/
def Spans (σ τ : Type) [Input σ] [Output τ] (options : Options) (bs : Bytes) : Prop :=
  ∀ below more, Accepts (resume options below : EStateM Error (σ × τ) Unit) () more →
    Accepts (walkItem options below : EStateM Error (σ × τ) Unit) () (bs ++ more)

/-- A head spans with what its frame is then resumed over. -/
theorem spans_of_head {h : Head} {lead bs : Bytes} (hs : h.Spelled lead)
    (hc : h.check options.mode = .ok ())
    (hd : h.Declares → h.value.toNat ≤ options.maxItems.toNat ∧
      h.value.toNat ≤ capacityFor h.major bs.length)
    (hf : ∀ below more, Accepts (resume options below : EStateM Error (σ × τ) Unit) () more →
      Accepts (resume options (Frame.ofHead h :: below) : EStateM Error (σ × τ) Unit) ()
        (bs ++ more)) :
    Spans σ τ options (lead ++ bs) := by
  intro below more hmore
  rw [List.append_assoc]
  refine Accepts.takeFrame hs hc (fun hdecl => ⟨(hd hdecl).1, (hd hdecl).2.trans ?_⟩)
    (hf below more hmore)
  unfold capacityFor
  split <;> rw [List.length_append] <;> omega

omit [Reliable σ] [Endless τ] in
/-- The elements of a container of definite length are accepted until none remains. -/
theorem accepts_definite {frame : Frame} {below : List Frame} {items : List Bytes} {more : Bytes}
    (hm : frame.major = .array ∨ frame.major = .map) (hi : frame.indefinite = false)
    (hlen : items.length = frame.remaining) (hitems : ∀ i ∈ items, Spans σ τ options i)
    (hbelow : Accepts (resume options below : EStateM Error (σ × τ) Unit) () more) :
    Accepts (resume options (frame :: below) : EStateM Error (σ × τ) Unit) ()
      (items.flatten ++ more) := by
  induction items generalizing frame with
  | nil =>
    rw [List.length_nil] at hlen
    rw [resume_definite hm hi, if_pos hlen.symm]
    exact hbelow
  | cons item items ih =>
    rw [List.length_cons] at hlen
    rw [resume_definite hm hi, if_neg (by omega), List.flatten_cons, List.append_assoc]
    apply hitems item (List.mem_cons_self ..)
    exact ih hm hi (by simp only [Frame.advance]; omega)
      fun i hmem => hitems i (List.mem_cons_of_mem _ hmem)

/-- The elements of a container of indefinite length are accepted up to the break. -/
theorem accepts_indefinite {frame : Frame} {below : List Frame} {items : List Bytes} {more : Bytes}
    (hm : frame.major = .array ∨ frame.major = .map) (hi : frame.indefinite = true)
    (howed : frame.owed = true ↔ frame.major = .map ∧ items.length % 2 = 1)
    (hitems : ∀ i ∈ items, NoBreak i ∧ Spans σ τ options i)
    (hbelow : Accepts (resume options below : EStateM Error (σ × τ) Unit) () more) :
    Accepts (resume options (frame :: below) : EStateM Error (σ × τ) Unit) ()
      (items.flatten ++ breakByte :: more) := by
  induction items generalizing frame with
  | nil =>
    rw [resume_indefinite hm hi]
    exact .closeContainer (by simpa using howed) hbelow
  | cons item items ih =>
    obtain ⟨hbreak, hspan⟩ := hitems item (List.mem_cons_self ..)
    obtain ⟨b, rest, hb, hne⟩ := hbreak.append (items.flatten ++ breakByte :: more)
    rw [resume_indefinite hm hi, List.flatten_cons, List.append_assoc, hb]
    refine .unlessBreak hne ?_
    rw [← hb]
    apply hspan
    refine ih hm hi ?_ fun i hmem => hitems i (List.mem_cons_of_mem _ hmem)
    rw [List.length_cons] at howed
    rcases hm with hm | hm <;> simp only [Frame.advance, hm] at howed ⊢
    · simpa using howed
    · cases ho : frame.owed <;> simp [ho] at howed ⊢ <;> omega

/-- Every item of the grammar is accepted by the walk. -/
theorem spans_of_wellFormed {bs : Bytes} (h : WellFormed options bs) : Spans σ τ options bs := by
  induction h with
  | bare m w n hm hn ha =>
    rw [← List.append_nil (m.spell w n)]
    refine spans_of_head (.definite m w n hn) ((check_definite hn).2 ha) ?_ ?_
    · rintro ⟨hdecl, -⟩
      rcases hm with rfl | rfl | rfl <;> simp [Head.definite] at hdecl
    · intro below more hmore
      rcases hm with rfl | rfl | rfl
      · rw [resume_integer (Or.inl rfl)]
        exact hmore
      · rw [resume_integer (Or.inr rfl)]
        exact hmore
      · rw [resume_special rfl]
        exact .seq (.failIf Bool.false_ne_true) hmore
  | string m w payload hm hn ha hs =>
    have hval := ArgumentWidth.toNat_of_holds hn
    refine spans_of_head (.definite m w _ hn) ((check_definite hn).2 ha) ?_ ?_
    · rintro ⟨hdecl, -⟩
      rcases hm with rfl | rfl <;> simp [Head.definite] at hdecl
    · intro below more hmore
      rw [resume_string hm, transferString_definite rfl]
      have hremaining : (Frame.ofHead (Head.definite m (UInt64.ofNat payload.length)
          (1 + w.bytes))).remaining = payload.length := by
        rcases hm with rfl | rfl <;> exact hval
      rw [hremaining]
      exact (Accepts.transferChunk (by rwa [Nat.zero_add])).bind hmore
  | chunked m chunks hm hl hn hs =>
    have hallows : m.allowsIndefinite = true := by rcases hm with rfl | rfl <;> rfl
    refine spans_of_head (.opening m hallows) (check_opening.2 (Or.inl hl)) ?_ ?_
    · intro hd
      cases hd.2
    · intro below more hmore
      rw [resume_string hm, transferString_indefinite rfl]
      exact (Accepts.transferChunks hl chunks hn (by rwa [Nat.zero_add])).bind hmore
  | array w items hi hn ha hc ih =>
    have hval := ArgumentWidth.toNat_of_holds hn
    have hcount := length_le_flatten fun i hmem => (hi i hmem).noBreak.length_pos
    refine spans_of_head (.definite .array w _ hn) ((check_definite hn).2 ha) ?_ ?_
    · intro _
      simp only [Head.definite, hval, capacityFor, reduceCtorEq, if_false]
      exact ⟨by exact_mod_cast hc, hcount⟩
    · intro below more hmore
      exact accepts_definite (Or.inl rfl) rfl hval.symm ih hmore
  | openArray items hl hi ih =>
    have hspans : ∀ i ∈ items, NoBreak i ∧ Spans σ τ options i := by
      intro i hmem
      exact ⟨(hi i hmem).noBreak, ih i hmem⟩
    refine spans_of_head (.opening .array rfl) (check_opening.2 (Or.inl hl)) ?_ ?_
    · intro hd
      cases hd.2
    · intro below more hmore
      rw [List.append_assoc]
      exact accepts_indefinite (Or.inl rfl) rfl (by simp [Frame.ofHead]) hspans hmore
  | map w n items hi hp hn ha hc ih =>
    have hval := ArgumentWidth.toNat_of_holds hn
    have hcount := length_le_flatten fun i hmem => (hi i hmem).noBreak.length_pos
    refine spans_of_head (.definite .map w _ hn) ((check_definite hn).2 ha) ?_ ?_
    · intro _
      simp only [Head.definite, hval, capacityFor, if_true]
      exact ⟨by exact_mod_cast hc, by omega⟩
    · intro below more hmore
      refine accepts_definite (Or.inr rfl) rfl ?_ ih hmore
      simp only [Frame.ofHead, Head.definite, hval, if_true, hp]
  | openMap items hl hi hp ih =>
    have hspans : ∀ i ∈ items, NoBreak i ∧ Spans σ τ options i := by
      intro i hmem
      exact ⟨(hi i hmem).noBreak, ih i hmem⟩
    refine spans_of_head (.opening .map rfl) (check_opening.2 (Or.inl hl)) ?_ ?_
    · intro hd
      cases hd.2
    · intro below more hmore
      rw [List.append_assoc]
      exact accepts_indefinite (Or.inr rfl) rfl (by simp [Frame.ofHead, hp]) hspans hmore
  | tag w n item hi hn ha ih =>
    refine spans_of_head (.definite .tag w n hn) ((check_definite hn).2 ha) ?_ ?_
    · rintro ⟨hdecl, -⟩
      simp [Head.definite] at hdecl
    · intro below more hmore
      rw [resume_tag rfl]
      exact ih below more hmore

theorem Accepts.copyItem {bs : Bytes} (h : WellFormed options bs) :
    Accepts (copyItem options : EStateM Error (σ × τ) Unit) () bs := by
  have hspan := spans_of_wellFormed (σ := σ) (τ := τ) h [] []
  rw [resume_nil, List.append_nil] at hspan
  exact hspan (.pure ())

end Completeness

/-- What is skipped is a well-formed item. -/
theorem Reads.skipItem (options : Options) :
    Reads (skipItem options : EStateM Error σ Unit) fun _ bs => WellFormed options bs := by
  intro s u t e
  unfold CborCodec.skipItem at e
  cases h : CborCodec.copyItem options (s, ({} : Nowhere)) with
  | error => simp [h] at e
  | ok v w =>
    simp only [h, EStateM.Result.ok.injEq] at e
    obtain ⟨-, rfl⟩ := e
    exact Reads.copyItem options _ v w h

/-- Every well-formed item is skipped, whatever is behind it. -/
theorem Accepts.skipItem [Reliable σ] {options : Options} {bs : Bytes}
    (h : WellFormed options bs) : Accepts (skipItem options : EStateM Error σ Unit) () bs := by
  intro s rest hs
  obtain ⟨t, ht, hadv⟩ := Accepts.copyItem (τ := Nowhere) h (s, {}) rest hs
  refine ⟨t.1, ?_, hadv⟩
  unfold CborCodec.skipItem
  rw [ht]

/-- The length of the first item is that of the bytes at the front that are one. -/
theorem itemLength_eq_ok_iff (options : Options) (data : Bytes) (n : Nat) :
    itemLength options data = .ok n ↔ n ≤ data.length ∧ WellFormed options (data.take n) := by
  unfold itemLength
  constructor
  · intro e
    cases h : skipItem options (MemoryInput.ofBytes data) with
    | error => simp [h] at e
    | ok u t =>
      simp only [h, Except.ok.injEq] at e
      subst e
      obtain ⟨bs, hadv, hbs⟩ := Reads.skipItem options _ u t h
      obtain ⟨hle, rfl⟩ := MemoryInput.take_of_advances hadv
      exact ⟨hle, hbs⟩
  · rintro ⟨hle, hitem⟩
    obtain ⟨t, ht, hadv⟩ := Accepts.skipItem hitem (MemoryInput.ofBytes data) (data.drop n)
      (MemoryInput.stream_ofBytes data n)
    rw [ht]
    exact congrArg Except.ok (MemoryInput.offset_of_advances hle hadv)

/-- Where the limit on counts exceeds the data, the first item is measured exactly if it is one of
the grammar, in which there is no such limit. -/
theorem itemLength_iff_item (options : Options) (data : Bytes) (n : Nat)
    (h : data.length ≤ options.maxItems.toNat) :
    itemLength options data = .ok n ↔
      n ≤ data.length ∧ Item options.mode options.maxStringSize.toNat ⊤ (data.take n) := by
  rw [itemLength_eq_ok_iff]
  refine and_congr_right fun hn => ⟨Item.unlimited, fun hitem => hitem.limited ?_⟩
  rw [List.length_take_of_le hn]
  exact hn.trans h

theorem itemLength_open_array : itemLength {} [0x9F, 0x61, 0x61, 0xFF, 0x00] = .ok 4 := by
  have hstring : Item .lenient 67108864 ⊤ [0x61, 0x61] :=
    .string .text .inline [0x61] (Or.inr rfl) (by decide) trivial (by decide)
  have harray : Item .lenient 67108864 ⊤ [0x9F, 0x61, 0x61, 0xFF] :=
    .openArray [[0x61, 0x61]] rfl (by simpa using hstring)
  exact (itemLength_iff_item {} [0x9F, 0x61, 0x61, 0xFF, 0x00] 4 (by decide)).2
    ⟨by decide, harray⟩

end CborCodec
