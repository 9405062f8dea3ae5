import CborCodec.Chunks
import CborCodec.Containers
import CborCodec.Proofs.Denotation
import CborCodec.Proofs.Reading
/-!
What follows the heads of strings and containers. The pieces of a string are chunks; the elements
of an array, and the pairs of a map, are collected by one and the same loop. Both are described in
both directions: what a successful read has moved past, and what is read in front of given bytes.
-/

namespace CborCodec

variable {σ ε : Type} [Input σ]

section Strings

theorem readChunks_eq (options : Options) (major : Major) (before : Array UInt8) :
    readChunks options major before = ((do
      match ← readChunkHead options major with
      | none => pure before
      | some length => do
        let after ← readChunk options major length before
        readChunks options major after) : EStateM Error σ (Array UInt8)) := by
  funext s
  rw [readChunks, bind_apply]
  split
  · next hhead => rw [hhead]
  · next hhead =>
    rw [hhead]
    rfl
  · next hhead =>
    rw [hhead]
    refine Eq.trans ?_ (bind_apply _ _ _).symm
    split
    · next hchunk => rw [hchunk]
    · next hchunk => rw [hchunk]

theorem readChunkHead_eq (options : Options) (major : Major) :
    (readChunkHead options major : EStateM Error σ (Option Nat)) =
      readHead options.mode >>= chunkLength major := rfl

theorem Reads.readChunkHead (options : Options) (major : Major) :
    Reads (readChunkHead options major : EStateM Error σ (Option Nat)) major.Leads := by
  rw [readChunkHead_eq]
  exact reads_chunkLength (Reads.readHead options.mode)

/-- A chunk is put behind what came before it, and is a text by itself if it is one of a text. -/
theorem Reads.readChunk (options : Options) (major : Major) (length : Nat)
    (before : Array UInt8) :
    Reads (readChunk options major length before : EStateM Error σ (Array UInt8)) fun after bs =>
      after.toList = before.toList ++ bs ∧ bs.length = length ∧
        before.toList.length + length ≤ options.maxStringSize.toNat ∧
        (major = .text → ∃ t, bs = Bytes.ofText t) := by
  intro s after t e
  unfold CborCodec.readChunk at e
  obtain ⟨_, u, hu, e⟩ := bind_eq_ok.1 e
  obtain ⟨-, hle, rfl⟩ := checkChunk_eq_ok.1 hu
  unfold appendChunk at e
  obtain ⟨_, v, hv, e⟩ := bind_eq_ok.1 e
  obtain ⟨-, rfl⟩ := failIf_eq_ok.1 hv
  obtain ⟨chunk, w, hw, e⟩ := bind_eq_ok.1 e
  obtain ⟨_, x, hx, e⟩ := bind_eq_ok.1 e
  obtain ⟨htext, rfl⟩ := failIf_eq_ok.1 hx
  obtain ⟨rfl, rfl⟩ := pure_eq_ok.1 e
  obtain ⟨bs, hadv, rfl, hlen⟩ := Reads.read length s chunk w hw
  refine ⟨chunk, hadv, by simp, hlen, hle, fun hm => isNone_toText?_iff.mp ?_⟩
  rw [Bool.eq_false_iff]
  exact fun hnone => htext ⟨hm, hnone⟩

/-- The pieces of a string up to the break. -/
theorem Reads.readChunks (options : Options) (major : Major) (before : Array UInt8)
    (hbefore : before.toList.length ≤ options.maxStringSize.toNat) :
    Reads (readChunks options major before : EStateM Error σ (Array UInt8)) fun after bs =>
      ∃ chunks : List (ArgumentWidth × Bytes), bs = chunks.flatMap major.chunk ++ [breakByte] ∧
        after.toList = before.toList ++ chunks.flatMap (·.2) ∧
        (∀ c ∈ chunks, c.1.Holds c.2.length) ∧
        after.toList.length ≤ options.maxStringSize.toNat ∧
        (major = .text → ∀ c ∈ chunks, ∃ t, c.2 = Bytes.ofText t) := by
  intro s after t e
  fun_induction CborCodec.readChunks options major before s with
  | case1 => cases e
  | case2 before s v h =>
    cases e
    obtain ⟨lead, hadv, hlead⟩ := Reads.readChunkHead options major s none _ h
    exact ⟨lead, hadv, [], hlead, by simp, by simp, hbefore, by simp⟩
  | case3 => cases e
  | case4 before s length v h middle w k ih =>
    obtain ⟨lead, hadv, width, hn, hlead⟩ := Reads.readChunkHead options major s (some length) v h
    obtain ⟨chunk, hadv', happ, hlen, hle, htext⟩ :=
      Reads.readChunk options major length before v middle w k
    have hmiddle : middle.toList.length ≤ options.maxStringSize.toNat := by
      rw [happ, List.length_append, hlen]
      exact hle
    obtain ⟨bs, hadv'', chunks, hbs, hafter, hall, hsize, htexts⟩ := ih hmiddle e
    subst hlen
    refine ⟨lead ++ chunk ++ bs, (hadv.trans hadv').trans hadv'', (width, chunk) :: chunks,
      ?_, ?_, List.forall_mem_cons.mpr ⟨hn, hall⟩, hsize,
      fun hm => List.forall_mem_cons.mpr ⟨htext hm, htexts hm⟩⟩
    · rw [hbs, hlead, List.flatMap_cons, Major.chunk, List.append_assoc, List.append_assoc,
        List.append_assoc]
    · rw [hafter, happ, List.flatMap_cons, List.append_assoc]

/-- A payload in one piece is as long as its head says. -/
theorem Reads.readPayload_definite (options : Options) {head : Head}
    (hi : head.indefinite = false) :
    Reads (readPayload options head : EStateM Error σ Bytes) fun out bs =>
      out = bs ∧ bs.length = head.value.toNat ∧ bs.length ≤ options.maxStringSize.toNat ∧
        (head.major = .text → ∃ t, bs = Bytes.ofText t) := by
  intro s out t e
  obtain ⟨pieces, u, hu, e⟩ := bind_eq_ok.1 e
  obtain ⟨rfl, rfl⟩ := pure_eq_ok.1 e
  have hpieces : readPieces options head s =
      CborCodec.readChunk options head.major head.value.toNat #[] s :=
    congrFun (if_neg (by simp [hi])) s
  rw [hpieces] at hu
  obtain ⟨bs, hadv, hbs, hlen, hle, htext⟩ := Reads.readChunk options _ _ _ s pieces u hu
  rw [List.length_nil, Nat.zero_add, ← hlen] at hle
  exact ⟨bs, hadv, hbs, hlen, hle, htext⟩

/-- A payload in chunks is what they hold together, up to the break. -/
theorem Reads.readPayload_indefinite (options : Options) {head : Head}
    (hi : head.indefinite = true) :
    Reads (readPayload options head : EStateM Error σ Bytes) fun out bs =>
      ∃ chunks : List (ArgumentWidth × Bytes),
        bs = chunks.flatMap head.major.chunk ++ [breakByte] ∧ out = chunks.flatMap (·.2) ∧
        (∀ c ∈ chunks, c.1.Holds c.2.length) ∧ out.length ≤ options.maxStringSize.toNat ∧
        (head.major = .text → ∀ c ∈ chunks, ∃ t, c.2 = Bytes.ofText t) := by
  intro s out t e
  obtain ⟨pieces, u, hu, e⟩ := bind_eq_ok.1 e
  obtain ⟨rfl, rfl⟩ := pure_eq_ok.1 e
  have hpieces : readPieces options head s = CborCodec.readChunks options head.major #[] s :=
    congrFun (if_pos hi) s
  rw [hpieces] at hu
  exact Reads.readChunks options _ _ (Nat.zero_le _) s pieces u hu

section Supply

variable [Reliable σ]

theorem Accepts.readChunkHead_break {options : Options} {major : Major} :
    Accepts (readChunkHead options major : EStateM Error σ (Option Nat)) none [breakByte] := by
  have hhead : Accepts (CborCodec.readHead options.mode : EStateM Error σ Head)
      ⟨.special, true, 1, 0⟩ Major.special.opening :=
    .readHead (.opening .special rfl) (check_opening.2 (Or.inr rfl))
  rw [opening_special] at hhead
  exact accepts_chunkLength_break hhead

theorem Accepts.readChunkHead {options : Options} {major : Major} {w : ArgumentWidth} {n : Nat}
    (hn : w.Holds n) (ha : options.mode.Admits major w n) :
    Accepts (readChunkHead options major : EStateM Error σ (Option Nat)) (some n)
      (major.spell w n) := by
  rw [readChunkHead_eq]
  exact accepts_chunkLength hn (.readHead (.definite major w n hn) ((check_definite hn).2 ha))

/-- A chunk is read if the string stays within its limit and within memory. -/
theorem Accepts.readChunk {options : Options} {major : Major} {before : Array UInt8}
    {chunk : Bytes} (hl : before.toList.length + chunk.length ≤ options.maxStringSize.toNat)
    (hm : before.toList.length + chunk.length < allocationLimit)
    (ht : major = .text → ∃ t, chunk = Bytes.ofText t) :
    Accepts (readChunk options major chunk.length before : EStateM Error σ (Array UInt8))
      (before ++ chunk) chunk := by
  have htext : ¬(major = .text ∧ (Bytes.toText? chunk).isNone = true) := by
    rintro ⟨hmajor, hnone⟩
    rw [isNone_toText?_iff.mpr (ht hmajor)] at hnone
    cases hnone
  have hread : Accepts (Input.read chunk.length >>= fun chunk => do
      CborCodec.failIf (major = .text ∧ (Bytes.toText? chunk).isNone = true) .invalidUtf8
      return before ++ chunk : EStateM Error σ (Array UInt8)) (before ++ chunk) (chunk ++ []) :=
    (Accepts.read rfl).bind (.seq (.failIf htext) (.pure _))
  rw [List.append_nil] at hread
  exact .checkChunk (Nat.le_refl _) hl (.seq (.failIf (Nat.not_le_of_lt hm)) hread)

/-- Behind chunks that are accepted the rest is read onto their bytes. -/
theorem readChunks_front {options : Options} {major : Major} (hmode : options.mode = .lenient)
    (front : List (ArgumentWidth × Bytes)) (before : Array UInt8)
    (hn : ∀ c ∈ front, c.1.Holds c.2.length)
    (hl : before.toList.length + (front.flatMap (·.2)).length ≤ options.maxStringSize.toNat)
    (hm : before.toList.length + (front.flatMap (·.2)).length < allocationLimit)
    (ht : major = .text → ∀ c ∈ front, ∃ t, c.2 = Bytes.ofText t) {s : σ} {rest : Bytes}
    (hs : stream s = front.flatMap major.chunk ++ rest) :
    ∃ (after : Array UInt8) (t : σ), after.toList = before.toList ++ front.flatMap (·.2) ∧
      readChunks options major before s = readChunks options major after t ∧
      Advances s (front.flatMap major.chunk) t := by
  induction front generalizing before s with
  | nil => exact ⟨before, s, by simp, rfl, Advances.rfl⟩
  | cons chunk front ih =>
    obtain ⟨w, payload⟩ := chunk
    -- The bytes before the next turn include this chunk, so the total is the same there.
    rw [List.flatMap_cons, List.length_append, ← Nat.add_assoc] at hl hm
    rw [List.forall_mem_cons] at hn
    rw [List.flatMap_cons, Major.chunk, List.append_assoc, List.append_assoc] at hs
    have hadmits : options.mode.Admits major w payload.length := by rw [hmode]; trivial
    have happ : (before ++ payload).toList = before.toList ++ payload := by simp
    have hlen : (before ++ payload).toList.length = before.toList.length + payload.length := by
      rw [happ, List.length_append]
    obtain ⟨t, hhead, hadv⟩ := Accepts.readChunkHead hn.1 hadmits s _ hs
    have hchunk : Accepts (CborCodec.readChunk options major payload.length before :
        EStateM Error σ (Array UInt8)) (before ++ payload) payload :=
      .readChunk ((Nat.le_add_right _ _).trans hl) ((Nat.le_add_right _ _).trans_lt hm)
        fun hmajor => (List.forall_mem_cons.mp (ht hmajor)).1
    obtain ⟨u, hread, hadv'⟩ := hchunk t _ (stream_of_advances hadv hs)
    have hmore := stream_of_advances hadv' (stream_of_advances hadv hs)
    obtain ⟨after, v, hafter, heq, hadv''⟩ := ih (before ++ payload) hn.2 (hlen ▸ hl) (hlen ▸ hm)
      (fun hmajor => (List.forall_mem_cons.mp (ht hmajor)).2) hmore
    refine ⟨after, v, by rw [hafter, happ, List.flatMap_cons, List.append_assoc], ?_, ?_⟩
    · rw [readChunks_eq, bind_apply, hhead]
      refine (bind_apply _ _ _).trans ?_
      rw [hread]
      exact heq
    · have hall := (hadv.trans hadv').trans hadv''
      rwa [List.flatMap_cons, Major.chunk]

/-- Chunks are read as one payload, if it is within the limits. -/
theorem Accepts.readChunks {options : Options} {major : Major} (hmode : options.mode = .lenient)
    (chunks : List (ArgumentWidth × Bytes)) {before : Array UInt8}
    (hn : ∀ c ∈ chunks, c.1.Holds c.2.length)
    (hl : before.toList.length + (chunks.flatMap (·.2)).length ≤ options.maxStringSize.toNat)
    (hm : before.toList.length + (chunks.flatMap (·.2)).length < allocationLimit)
    (ht : major = .text → ∀ c ∈ chunks, ∃ t, c.2 = Bytes.ofText t) :
    ∃ after : Array UInt8, after.toList = before.toList ++ chunks.flatMap (·.2) ∧
      Accepts (readChunks options major before : EStateM Error σ (Array UInt8)) after
        (chunks.flatMap major.chunk ++ [breakByte]) := by
  refine ⟨(before.toList ++ chunks.flatMap (·.2)).toArray, rfl, fun s rest hs => ?_⟩
  rw [List.append_assoc] at hs
  obtain ⟨after, t, hafter, heq, hadv⟩ := readChunks_front hmode chunks before hn hl hm ht hs
  have hbreak : Accepts (CborCodec.readChunkHead options major : EStateM Error σ (Option Nat)) none
    [breakByte] := .readChunkHead_break
  obtain ⟨u, hhead, hadv'⟩ := hbreak t rest (stream_of_advances hadv hs)
  refine ⟨u, ?_, hadv.trans hadv'⟩
  rw [heq, readChunks_eq, bind_apply, hhead, ← hafter]
  rfl

omit [Reliable σ] in
theorem Accepts.pieces {options : Options} {head : Head} {after : Array UInt8} {bs : Bytes}
    (h : Accepts (readPieces options head : EStateM Error σ (Array UInt8)) after bs) :
    Accepts (readPayload options head : EStateM Error σ Bytes) after.toList bs :=
  h.map Array.toList

theorem Accepts.readPayload_definite {options : Options} {head : Head} {payload : Bytes}
    (hi : head.indefinite = false) (hlen : head.value.toNat = payload.length)
    (hl : payload.length ≤ options.maxStringSize.toNat) (hm : payload.length < allocationLimit)
    (ht : head.major = .text → ∃ t, payload = Bytes.ofText t) :
    Accepts (readPayload options head : EStateM Error σ Bytes) payload payload := by
  have hpieces : (readPieces options head : EStateM Error σ (Array UInt8)) =
      CborCodec.readChunk options head.major payload.length #[] := by
    rw [← hlen]
    exact if_neg (by simp [hi])
  have hchunk : Accepts (CborCodec.readChunk options head.major payload.length #[] :
      EStateM Error σ (Array UInt8)) (#[] ++ payload) payload :=
    .readChunk (by simpa using hl) (by simpa using hm) ht
  rw [← hpieces] at hchunk
  simpa using Accepts.pieces hchunk

theorem Accepts.readPayload_indefinite {options : Options} {head : Head}
    (hi : head.indefinite = true) (hmode : options.mode = .lenient)
    (chunks : List (ArgumentWidth × Bytes)) (hn : ∀ c ∈ chunks, c.1.Holds c.2.length)
    (hl : (chunks.flatMap (·.2)).length ≤ options.maxStringSize.toNat)
    (hm : (chunks.flatMap (·.2)).length < allocationLimit)
    (ht : head.major = .text → ∀ c ∈ chunks, ∃ t, c.2 = Bytes.ofText t) :
    Accepts (readPayload options head : EStateM Error σ Bytes) (chunks.flatMap (·.2))
      (chunks.flatMap head.major.chunk ++ [breakByte]) := by
  have hpieces : (readPieces options head : EStateM Error σ (Array UInt8)) =
      CborCodec.readChunks options head.major #[] := if_pos hi
  have hempty : (#[] : Array UInt8).toList.length = 0 := rfl
  rw [← Nat.zero_add (chunks.flatMap (·.2)).length, ← hempty] at hl hm
  obtain ⟨after, hafter, hchunks⟩ := Accepts.readChunks (σ := σ) hmode chunks hn hl hm ht
  rw [← hpieces] at hchunks
  have hpayload := Accepts.pieces hchunks
  rwa [hafter] at hpayload

end Supply

end Strings

section Containers

def collect (item : EStateM Error σ ε) (done : List ε) : EStateM Error σ (List ε) := do
  return (← item) :: done

def pairOf (item : EStateM Error σ ε) : EStateM Error σ (ε × ε) := do
  let key ← item
  return (key, ← item)

def owedPairOf (item : EStateM Error σ ε) : EStateM Error σ (ε × ε) := do
  let key ← item
  let ended ← atBreak
  failIf (ended = true) .itemTypeMismatch
  return (key, ← item)

/-- Reads the elements of a container, which where a break may come are read with another action. -/
def elements (options : Options) (major : Major) (head : Head)
    (definite indefinite : EStateM Error σ ε) : EStateM Error σ (Nat × List ε) := do
  if head.indefinite then
    untilBreak (collect indefinite) options.maxItems.toNat 0 []
  else
    checkAvailable major head.value.toNat
    checkItems options head.value.toNat
    let items ← repeatItem (collect definite) head.value.toNat []
    return (head.value.toNat, items)

theorem arrayItems_eq (options : Options) (head : Head) (item : EStateM Error σ ε) :
    arrayItems options head (fun items => do return (← item) :: items) [] =
      elements options .array head item item := rfl

/-- A map whose values are put next to their keys is read as a container of pairs. -/
theorem mapItems_eq (options : Options) (head : Head) (item : EStateM Error σ ε) :
    mapItems options head item (fun key pairs => do return (key, ← item) :: pairs) [] =
      elements options .map head (pairOf item) (owedPairOf item) := by
  have howed : (fun pairs => do
      owedValue (fun key pairs => do return (key, ← item) :: pairs) (← item) pairs) =
      collect (owedPairOf item) := by
    funext pairs
    simp only [owedValue, collect, owedPairOf, bind_assoc, pure_bind]
  have hpair : (fun pairs : List (ε × ε) => do
      (fun key pairs => do return (key, ← item) :: pairs) (← item) pairs) =
      collect (pairOf item) := by
    funext pairs
    simp only [collect, pairOf, bind_assoc, pure_bind]
  unfold mapItems
  rw [howed]
  simp only [hpair]
  rfl

variable {P : ε → Bytes → Prop} {item : EStateM Error σ ε}

/-- Counted elements lie end to end. -/
theorem Reads.repeatItem (h : Reads item P) (n : Nat) (done : List ε) :
    Reads (repeatItem (collect item) n done) fun out bs =>
      ∃ items : List (ε × Bytes), out = (items.map (·.1)).reverse ++ done ∧
        bs = items.flatMap (·.2) ∧ items.length = n ∧ ∀ i ∈ items, P i.1 i.2 := by
  induction n generalizing done with
  | zero =>
    refine (Reads.pure done).mono ?_
    rintro out bs ⟨rfl, rfl⟩
    exact ⟨[], rfl, rfl, rfl, by simp⟩
  | succ n ih =>
    intro s out t e
    obtain ⟨middle, u, hu, e⟩ := bind_eq_ok.1 e
    obtain ⟨a, v, hv, hu⟩ := bind_eq_ok.1 hu
    obtain ⟨rfl, rfl⟩ := pure_eq_ok.1 hu
    obtain ⟨bs, hadv, hp⟩ := h s a v hv
    obtain ⟨more, hadv', items, rfl, rfl, rfl, hall⟩ := ih (a :: done) v out t e
    exact ⟨bs ++ items.flatMap (·.2), hadv.trans hadv', (a, bs) :: items, by simp, rfl, rfl,
      List.forall_mem_cons.mpr ⟨hp, hall⟩⟩

/-- Elements without a count lie end to end, with the break behind them. -/
theorem Reads.untilBreak (h : Reads item P) (allowance count : Nat) (done : List ε) :
    Reads (untilBreak (collect item) allowance count done) fun out bs =>
      ∃ items : List (ε × Bytes), out.2 = (items.map (·.1)).reverse ++ done ∧
        bs = items.flatMap (·.2) ++ [breakByte] ∧ items.length ≤ allowance ∧
        ∀ i ∈ items, P i.1 i.2 := by
  induction allowance generalizing count done with
  | zero =>
    intro s out t e
    obtain ⟨ended, u, hu, e⟩ := bind_eq_ok.1 e
    cases ended with
    | false => cases e
    | true =>
      cases e
      exact ⟨[breakByte], advances_break hu, [], rfl, rfl, Nat.le_refl 0, by simp⟩
  | succ allowance ih =>
    intro s out t e
    obtain ⟨ended, u, hu, e⟩ := bind_eq_ok.1 e
    cases ended with
    | true =>
      cases e
      exact ⟨[breakByte], advances_break hu, [], rfl, rfl, Nat.zero_le _, by simp⟩
    | false =>
      obtain ⟨middle, v, hv, e⟩ := bind_eq_ok.1 e
      obtain ⟨a, w, hw, hv⟩ := bind_eq_ok.1 hv
      obtain ⟨rfl, rfl⟩ := pure_eq_ok.1 hv
      obtain ⟨bs, hadv, hp⟩ := h u a w hw
      obtain ⟨more, hadv', items, hout, rfl, hlen, hall⟩ := ih _ (a :: done) w out t e
      refine ⟨bs ++ (items.flatMap (·.2) ++ [breakByte]),
        ((atBreak_eq_ok hu).1.trans hadv).trans hadv', (a, bs) :: items, ?_, ?_, ?_, ?_⟩
      · rw [hout]
        simp
      · simp
      · exact Nat.succ_le_succ hlen
      · exact List.forall_mem_cons.mpr ⟨hp, hall⟩

theorem Reads.pairOf (h : Reads item P) :
    Reads (pairOf item) fun pair bs => ∃ k v, bs = k ++ v ∧ P pair.1 k ∧ P pair.2 v := by
  intro s pair t e
  obtain ⟨key, u, hu, e⟩ := bind_eq_ok.1 e
  obtain ⟨value, v, hv, e⟩ := bind_eq_ok.1 e
  obtain ⟨rfl, rfl⟩ := pure_eq_ok.1 e
  obtain ⟨k, hadv, hk⟩ := h s key u hu
  obtain ⟨bs, hadv', hbs⟩ := h u value v hv
  exact ⟨k ++ bs, hadv.trans hadv', k, bs, rfl, hk, hbs⟩

theorem Reads.owedPairOf (h : Reads item P) :
    Reads (owedPairOf item) fun pair bs => ∃ k v, bs = k ++ v ∧ P pair.1 k ∧ P pair.2 v := by
  intro s pair t e
  obtain ⟨key, u, hu, e⟩ := bind_eq_ok.1 e
  obtain ⟨ended, x, hx, e⟩ := bind_eq_ok.1 e
  obtain ⟨_, y, hy, e⟩ := bind_eq_ok.1 e
  obtain ⟨-, rfl⟩ := failIf_eq_ok.1 hy
  obtain ⟨value, v, hv, e⟩ := bind_eq_ok.1 e
  obtain ⟨rfl, rfl⟩ := pure_eq_ok.1 e
  obtain ⟨k, hadv, hk⟩ := h s key u hu
  obtain ⟨bs, hadv', hbs⟩ := h x value v hv
  have hbreak := (atBreak_eq_ok hx).1
  exact ⟨k ++ bs, hadv.trans (hbreak.trans hadv'), k, bs, rfl, hk, hbs⟩

/-- The elements of a container are within the limit, and behind them is a break if they have no
count. -/
theorem Reads.elements {options : Options} {major : Major} {head : Head}
    {definite indefinite : EStateM Error σ ε} (hd : Reads definite P) (hi : Reads indefinite P) :
    Reads (elements options major head definite indefinite) fun out bs =>
      ∃ items : List (ε × Bytes), out.2.reverse = items.map (·.1) ∧
        items.length ≤ options.maxItems.toNat ∧ (∀ i ∈ items, P i.1 i.2) ∧
        if head.indefinite = true then bs = items.flatMap (·.2) ++ [breakByte]
        else bs = items.flatMap (·.2) ∧ items.length = head.value.toNat := by
  intro s out t e
  unfold CborCodec.elements at e
  split at e
  · next h =>
    obtain ⟨bs, hadv, items, hout, hbs, hlen, hall⟩ := Reads.untilBreak hi _ _ _ s out t e
    refine ⟨bs, hadv, items, ?_, hlen, hall, ?_⟩
    · rw [hout, List.append_nil, List.reverse_reverse]
    · rwa [if_pos h]
  · next h =>
    obtain ⟨_, u, hu, e⟩ := bind_eq_ok.1 e
    obtain ⟨-, rfl⟩ := checkAvailable_eq_ok.1 hu
    obtain ⟨_, v, hv, e⟩ := bind_eq_ok.1 e
    obtain ⟨hle, rfl⟩ := checkItems_eq_ok.1 hv
    obtain ⟨done, w, hw, e⟩ := bind_eq_ok.1 e
    obtain ⟨rfl, rfl⟩ := pure_eq_ok.1 e
    obtain ⟨bs, hadv, items, hout, hbs, hlen, hall⟩ := Reads.repeatItem hd _ _ s done w hw
    refine ⟨bs, hadv, items, ?_, hlen.trans_le hle, hall, ?_⟩
    · rw [hout, List.append_nil, List.reverse_reverse]
    · rw [if_neg h]
      exact ⟨hbs, hlen⟩

theorem Accepts.collect {a : ε} {bs : Bytes} (h : Accepts item a bs) (done : List ε) :
    Accepts (collect item done) (a :: done) bs :=
  h.map (· :: done)

theorem Accepts.repeatItem (items : List (ε × Bytes)) (h : ∀ i ∈ items, Accepts item i.1 i.2)
    (done : List ε) :
    Accepts (repeatItem (CborCodec.collect item) items.length done)
      ((items.map (·.1)).reverse ++ done) (items.flatMap (·.2)) := by
  induction items generalizing done with
  | nil => exact .pure done
  | cons head items ih =>
    rw [List.forall_mem_cons] at h
    have hrest := (Accepts.collect h.1 done).bind (ih h.2 (head.1 :: done))
    rw [List.map_cons, List.reverse_cons, List.append_assoc]
    exact hrest

section Supply

variable [Reliable σ]

/-- A break ends a container that is read. -/
theorem Accepts.onBreak {β : Type} {x y : EStateM Error σ β} {b : β} {more : Bytes}
    (hx : Accepts x b more) :
    Accepts (do if ← atBreak then do Input.skip 1; x else y) b (breakByte :: more) := by
  intro s rest hs
  obtain ⟨t, ht, -⟩ := atBreak_ok (s := s) (b := breakByte) hs
  rw [beq_self_eq_true] at ht
  have hbreak := advances_break ht
  obtain ⟨u, hu, hadv⟩ := hx _ rest (stream_of_advances hbreak hs)
  exact ⟨u, bind_eq_ok.2 ⟨true, t, ht, bind_eq_ok.2 ⟨(), _, rfl, hu⟩⟩, hbreak.trans hadv⟩

theorem Accepts.untilBreak (items : List (ε × Bytes))
    (h : ∀ i ∈ items, NoBreak i.2 ∧ Accepts item i.1 i.2) {allowance count : Nat}
    (hlen : items.length ≤ allowance) (done : List ε) :
    Accepts (untilBreak (CborCodec.collect item) allowance count done)
      (count + items.length, (items.map (·.1)).reverse ++ done)
      (items.flatMap (·.2) ++ [breakByte]) := by
  induction items generalizing allowance count done with
  | nil =>
    cases allowance with
    | zero => exact .onBreak (.pure _)
    | succ allowance => exact .onBreak (.pure _)
  | cons head items ih =>
    rw [List.forall_mem_cons] at h
    obtain ⟨⟨hbreak, hhead⟩, hitems⟩ := h
    cases allowance with
    | zero => exact absurd hlen (Nat.not_succ_le_zero _)
    | succ allowance =>
      have hrest : Accepts (CborCodec.untilBreak (CborCodec.collect item) allowance (count + 1)
          (head.1 :: done)) _ _ :=
        ih hitems (Nat.le_of_succ_le_succ hlen) (head.1 :: done)
      have hboth := (Accepts.collect hhead done).bind hrest
      -- An element does not begin with the break, so the loop goes on in front of it.
      obtain ⟨b, rest, hb, hne⟩ := hbreak.append (items.flatMap (·.2) ++ [breakByte])
      rw [List.flatMap_cons, List.append_assoc, hb]
      rw [hb] at hboth
      have hall := Accepts.unlessBreak (x := do Input.skip 1; return (count, done)) hne hboth
      rw [List.map_cons, List.reverse_cons, List.append_assoc, List.length_cons,
        Nat.add_comm items.length 1, ← Nat.add_assoc]
      exact hall

/-- Counted elements are read if their count is within the limit and the bytes can hold it. -/
theorem Accepts.elements_definite {options : Options} {major : Major} {head : Head}
    {definite indefinite : EStateM Error σ ε} (items : List (ε × Bytes))
    (hi : head.indefinite = false) (hlen : head.value.toNat = items.length)
    (hl : items.length ≤ options.maxItems.toNat)
    (hc : items.length ≤ capacityFor major (items.flatMap (·.2)).length)
    (h : ∀ i ∈ items, Accepts definite i.1 i.2) :
    Accepts (elements options major head definite indefinite)
      (items.length, (items.map (·.1)).reverse) (items.flatMap (·.2)) := by
  have hitems := Accepts.repeatItem items h []
  rw [List.append_nil] at hitems
  have hall := hitems.map fun out => (items.length, out)
  unfold CborCodec.elements
  rw [if_neg (by simp [hi]), hlen]
  exact .checkAvailable hc (.seq (.checkItems hl) hall)

/-- Elements up to a break are read if none of them begins with one. -/
theorem Accepts.elements_indefinite {options : Options} {major : Major} {head : Head}
    {definite indefinite : EStateM Error σ ε} (items : List (ε × Bytes))
    (hi : head.indefinite = true) (hl : items.length ≤ options.maxItems.toNat)
    (h : ∀ i ∈ items, NoBreak i.2 ∧ Accepts indefinite i.1 i.2) :
    Accepts (elements options major head definite indefinite)
      (items.length, (items.map (·.1)).reverse) (items.flatMap (·.2) ++ [breakByte]) := by
  have hitems : Accepts (CborCodec.untilBreak (CborCodec.collect indefinite)
      options.maxItems.toNat 0 []) _ _ := .untilBreak items h hl []
  rw [List.append_nil, Nat.zero_add] at hitems
  unfold CborCodec.elements
  rwa [if_pos hi]

omit [Reliable σ] in
theorem Accepts.pairOf {k v : ε} {kb vb : Bytes} (hk : Accepts item k kb)
    (hv : Accepts item v vb) : Accepts (pairOf item) (k, v) (kb ++ vb) :=
  hk.bind (hv.map fun v => (k, v))

/-- A pair is read if its value does not begin with a break. -/
theorem Accepts.owedPairOf {k v : ε} {kb vb : Bytes} (hk : Accepts item k kb)
    (hb : NoBreak vb) (hv : Accepts item v vb) :
    Accepts (owedPairOf item) (k, v) (kb ++ vb) := by
  have hvalue := hv.map fun v => (k, v)
  refine hk.bind ?_
  intro s rest hs
  obtain ⟨b, more, rfl, hne⟩ := hb
  obtain ⟨t, ht, hnone⟩ := atBreak_ok (s := s) (b := b) hs
  rw [beq_false_of_ne hne] at ht
  obtain ⟨u, hu, hadv⟩ := hvalue t rest (hnone.of_nil.trans hs)
  exact ⟨u, bind_eq_ok.2 ⟨false, t, ht, bind_eq_ok.2 ⟨(), t, failIf_eq_ok.2 ⟨by simp, rfl⟩, hu⟩⟩,
    hnone.trans hadv⟩

end Supply

end Containers

end CborCodec
