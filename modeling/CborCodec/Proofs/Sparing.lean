import CborCodec.Proofs.Bounding
import CborCodec.Proofs.Metering
import CborCodec.Proofs.Splitting
import CborCodec.Proofs.Streaming
/-!
Hostile lengths in resident data. No length or count that is declared makes the codec ask for memory
beyond what the data is worth: decoding reserves no more bytes than it consumes, a walk opens no
more frames, and a copy's buffer stays within twice the bytes that were copied and a head. So
nothing fails for want of memory, and a length that the data cannot hold is refused where it stands.
-/

namespace CborCodec

section Walks

variable {options : Options}

abbrev NeverShort {α : Type} (x : EStateM Error (MemoryInput × Nowhere) α) : Prop :=
  Spares (fun _ => True) x

theorem kept_memory : Kept fun _ : MemoryInput × Nowhere => True where
  require n s _ := by
    obtain ⟨i, o⟩ := s
    refine ⟨trivial, fun t h => ?_⟩
    change onFirst (MemoryInput.require n) (i, o) = _ at h
    simp only [onFirst] at h
    cases hrun : MemoryInput.require n i with
    | ok u v =>
      rw [hrun] at h
      cases h
    | error e v =>
      rw [hrun] at h
      cases h
      exact MemoryInput.require_ne n i v hrun
  discard _ _ _ := trivial

theorem neverShort_onSecond {x : EStateM Error Nowhere Unit} (hx : ∀ o, ∃ o', x o = .ok () o') :
    NeverShort (onSecond x) := by
  intro s _
  obtain ⟨t, ht⟩ := onSecond_ok (s := s) (hx s.2)
  exact .of_ok ht trivial

theorem neverShort_emitHead (bs : Bytes) : NeverShort (emitHead bs) :=
  neverShort_onSecond fun o => Endless.putHead_ok bs o

theorem neverShort_takeHead (mode : Mode) : NeverShort (takeHead mode) :=
  (Spares.peekHead kept_memory mode).bind fun _ => .bind .get fun _ =>
    .seq (neverShort_emitHead _) (.seq (.skip kept_memory _) (.pure _))

theorem neverShort_takeFrame (options : Options) : NeverShort (takeFrame options) :=
  (neverShort_takeHead _).bind fun _ =>
    .seq (.ite (fun _ => .seq (.checkAvailable _ _) (.checkItems _ _)) fun _ => .pure _) (.pure _)

theorem neverShort_transfer (n : Nat) : NeverShort (transfer n) := by
  induction n using Nat.strong_induction_on with
  | _ n ih =>
    intro s _
    by_cases hn : n = 0
    · rw [hn]
      exact .of_ok (transfer_zero s) trivial
    rw [transfer_of_ne hn]
    refine (Spares.need kept_memory 1 s trivial).bind ?_
    intro _ t ht _
    refine (Spares.get t trivial).bind ?_
    intro _ u hget _
    obtain ⟨rfl, rfl⟩ := get_eq_ok.1 hget
    have hsize := size_of_need ht
    have hrest := ih (n - min (window t).size n) (by omega)
    exact Spares.seq (neverShort_onSecond fun o => Endless.put_ok _ o)
      (.seq (.skip kept_memory _) hrest) t trivial

theorem neverShort_takeChunkHead (options : Options) (major : Major) :
    NeverShort (takeChunkHead options major) :=
  (neverShort_takeHead _).bind fun _ =>
    .ite (fun _ => .pure _) fun _ => .seq (.failIf _) (.pure _)

theorem neverShort_transferChunk (options : Options) (length before : Nat) :
    NeverShort (transferChunk options length before) :=
  .seq (.seq (.checkAvailable _ _) (.failIf _)) (neverShort_transfer length)

theorem neverShort_transferChunks (options : Options) (major : Major) (before : Nat) :
    NeverShort (transferChunks options major before) := by
  intro s _
  induction hn : (stream s).length using Nat.strong_induction_on generalizing before s with
  | _ n ih =>
    rw [transferChunks_eq]
    refine (neverShort_takeChunkHead options major s trivial).bind ?_
    intro chunk t ht _
    cases chunk with
    | none => exact .of_ok rfl trivial
    | some length =>
      refine (neverShort_transferChunk options length before t trivial).bind ?_
      intro _ u hu _
      have hlt := (Consumes.takeChunkHead options major).lt_of_ok ht
      have hle := (Consumes.transferChunk options length before).le_of_ok hu
      exact ih _ (by omega) (before + length) u rfl

/-- No step over memory fails for want of memory. -/
theorem neverShort_step (options : Options) (frame : Frame) (below : List Frame) :
    NeverShort (step options frame below) := by
  have hopen : NeverShort (openElement options frame below) :=
    (neverShort_takeFrame options).bind fun _ => .pure _
  have hclose : NeverShort (closeContainer frame) :=
    .seq (.failIf _) (.seq (neverShort_emitHead _) (.skip kept_memory 1))
  cases hm : frame.major <;> simp only [step, hm]
  case unsigned | negative => exact .pure _
  case special => exact .seq (.failIf _) (.pure _)
  case bytes | text =>
    exact .seq (.ite (fun _ => neverShort_transferChunks _ _ _)
      fun _ => neverShort_transferChunk _ _ _) (.pure _)
  case array | map =>
    exact .ite
      (fun _ => (Spares.atBreak kept_memory).bind fun _ =>
        .ite (fun _ => .seq hclose (.pure _)) fun _ => hopen)
      fun _ => .ite (fun _ => .pure _) fun _ => hopen
  case tag => exact (neverShort_takeFrame options).bind fun _ => .pure _

/-- A walk ends in its first head or in one of its steps. -/
theorem neverShort_copyItem (options : Options) : NeverShort (copyItem options) := by
  intro s _
  obtain ⟨n, hended⟩ := exists_ended options s
  refine ⟨trivial, fun t h => ?_⟩
  rw [h] at hended
  cases hended with
  | refused hfirst => exact (neverShort_takeFrame options s trivial).2 t hfirst
  | failed _ hstep => exact (neverShort_step options _ _ _ trivial).2 t hstep

end Walks

namespace GrowingOutput

/-- The buffer is at most twice as large as what was written, and a head. -/
def Modest (o : GrowingOutput) : Prop := o.capacity ≤ 2 * o.written.size + pieceRoom

theorem size_commit (bs : Bytes) (o : GrowingOutput) :
    (commit bs o).written.size = o.written.size + bs.length := by
  have htoList : (commit bs o).written.toList = o.written.toList ++ bs :=
    Array.toList_appendList ..
  rw [← Array.length_toList, htoList, List.length_append, Array.length_toList]

/-- What room is made for is written in the end, and doubles the buffer at most. -/
theorem capacity_ensure {n : Nat} {o o' : GrowingOutput} (h : ensure n o = .ok () o') :
    o'.written = o.written ∧
      o'.capacity ≤ max o.capacity (2 * (o.written.size + n) + pieceRoom) := by
  unfold ensure at h
  by_cases hfree : n ≤ o.free
  · rw [if_pos hfree] at h
    cases h
    exact ⟨rfl, Nat.le_max_left _ _⟩
  · rw [if_neg hfree] at h
    simp only at h
    split at h
    · cases h
      refine ⟨rfl, ?_⟩
      simp only [capacity, growth]
      omega
    · cases h

theorem modest_putHead (bs : Bytes) {o : GrowingOutput} (h : o.Modest) :
    (final (Output.putHead bs o)).Modest := by
  rcases ensure_cases bs.length o with ⟨o', ho', -⟩ | ho
  · have hput : Output.putHead bs o = .ok () (commit bs o') :=
      bind_eq_ok.2 ⟨(), o', adaptExcept_eq_ok.2 ho', rfl⟩
    obtain ⟨hwritten, hcapacity⟩ := capacity_ensure ho'
    have hfree := free_of_ensure ho'
    have hsize := size_commit bs o'
    rw [hput, final_ok]
    unfold Modest at h ⊢
    unfold capacity at h hcapacity ⊢
    rw [hsize, hwritten] at *
    -- Writing takes from the free part what it adds to the written one, so the sum is as before.
    change o.written.size + bs.length + (o'.free - bs.length) ≤ _
    omega
  · have hput : Output.putHead bs o = .error .notEnoughMemory o := by
      have hensure : Room.ensure bs.length o = .error .notEnoughMemory o := ho
      simp only [Output.putHead, bind_apply, EStateM.adaptExcept, hensure]
      rfl
    rw [hput]
    exact h

/-- By induction on the writes, a buffer grows to no more than twice what is in it, and a head. -/
theorem modest_makeAll (ws : List Write) {o : GrowingOutput} (h : o.Modest) :
    (final (Write.makeAll ws o)).Modest := by
  induction ws generalizing o with
  | nil => exact h
  | cons w ws ih =>
    have hput := modest_putHead w.bytes h
    rw [Write.makeAll, bind_apply, w.make_eq_putHead]
    cases hrun : (Output.putHead w.bytes o : EStateM.Result Error GrowingOutput Unit) with
    | ok u o' =>
      rw [hrun] at hput
      exact ih hput
    | error e o' =>
      rw [hrun] at hput
      exact hput

end GrowingOutput

/-- However a copy ends, its buffer is modest if it was at the start. -/
theorem modest_copyItem {σ : Type} [Input σ] (options : Options) (i : σ) {o : GrowingOutput}
    (h : o.Modest) : (final (copyItem options (i, o))).2.Modest := by
  obtain ⟨ws, r, hws⟩ := Scripted.walkItem options [] i
  have hmade := GrowingOutput.modest_makeAll ws h
  rw [copyItem_eq]
  cases hrun : Write.makeAll ws o with
  | ok u o' =>
    rw [hrun] at hmade
    rw [hws.written hrun]
    cases r <;> exact hmade
  | error e o' =>
    obtain ⟨j, hj⟩ := hws.refused hrun
    rw [hrun] at hmade
    rw [hj]
    exact hmade

section Refusals

/-- What an input cannot hold is refused where it stands, before anything is read, written or asked
for: a chunk or a container to be decoded, and a payload or a container to be walked over. -/
structure RefusesAt {σ τ : Type} [Input σ] [Output τ] (options : Options) (s : σ) (o : τ) :
    Prop where
  chunk : ∀ major length before, available s < length →
    readChunk options major length before s = .error .missingData s
  array : ∀ {β : Type} head (item : β → EStateM Error σ β) init, head.indefinite = false →
    capacityFor .array (available s) < head.value.toNat →
    arrayItems options head item init s = .error .missingData s
  map : ∀ {κ β : Type} head (key : EStateM Error σ κ) (value : κ → β → EStateM Error σ β) init,
    head.indefinite = false → capacityFor .map (available s) < head.value.toNat →
    mapItems options head key value init s = .error .missingData s
  payload : ∀ length before, available s < length →
    transferChunk options length before (s, o) = .error .missingData (s, o)
  container : ∀ head, head.major = .array ∨ head.major = .map → head.indefinite = false →
    capacityFor head.major (available s) < head.value.toNat →
    checkDeclared options head (s, o) = .error .missingData (s, o)

variable {σ τ : Type} [Input σ] [Output τ]

theorem checkAvailable_refused {α : Type} {major : Major} {count : Nat} {s : σ}
    (h : capacityFor major (available s) < count) (x : EStateM Error σ α) :
    (checkAvailable major count >>= fun _ => x) s = .error .missingData s := by
  rw [bind_apply, checkAvailable_apply, if_pos h]

/-- What cannot be held is refused before anything else happens, on every input. -/
theorem refusesAt (options : Options) (s : σ) (o : τ) : RefusesAt options s o where
  chunk major length before h := by
    rw [readChunk, checkChunk, bind_assoc]
    exact checkAvailable_refused (h : capacityFor .bytes (available s) < length) _
  array head item init hi h := by
    rw [arrayItems, if_neg (by simp [hi])]
    exact checkAvailable_refused h _
  map head key value init hi h := by
    rw [mapItems, if_neg (by simp [hi])]
    exact checkAvailable_refused h _
  payload length before h := by
    have hcheck : checkChunk options length before (s, o) = .error .missingData (s, o) :=
      checkAvailable_refused (s := (s, o)) (h : capacityFor .bytes (available s) < length) _
    unfold transferChunk
    exact (bind_apply ..).trans (by rw [hcheck])
  container head hm hi h := by
    rw [checkDeclared, if_pos ⟨hm, by simp [hi]⟩]
    exact checkAvailable_refused (s := (s, o)) h _

end Refusals

section Resident

variable {options : Options} {data : Bytes}

/-- A value of the type is decoded from the data without failing for want of memory: a metered run
does and answers the same, and has asked for no more bytes than it consumed. -/
structure DecodesThriftily (options : Options) (data : Bytes) (t : Target) : Prop where
  memory : decodeBytes (t.decode options) data ≠ .error .notEnoughMemory
  same_outcome : outcome (t.decode options (Metered.ofBytes data)) =
    outcome (t.decode options (MemoryInput.ofBytes data))
  same_position : position (final (t.decode options (Metered.ofBytes data))) =
    position (final (t.decode options (MemoryInput.ofBytes data)))
  asked_le : (final (t.decode options (Metered.ofBytes data))).asked.sum ≤
    position (final (t.decode options (MemoryInput.ofBytes data)))
  consumed_le : position (final (t.decode options (MemoryInput.ofBytes data))) ≤ data.length

/-- Values of every type are decoded thriftily from data that memory can hold. -/
theorem decodesThriftily (options : Options) (hdata : data.length < allocationLimit) (t : Target) :
    DecodesThriftily options data t := by
  have hspares := t.spares_decode hdata options (Metered.ofBytes data) (Metered.paid_ofBytes data)
  obtain ⟨hsame, hposition⟩ := Metered.decode_eq options t data
  have htotal := hspares.1.total_eq
  refine ⟨fun h => ?_, hsame, hposition, hposition ▸ hspares.1.asked_le, by omega⟩
  obtain ⟨u, hu⟩ := decodeBytes_eq_error_iff.mp h
  rw [hu] at hsame
  exact hspares.outcome_ne hsame

/-- A frame takes a word for its count, and no more than that for the rest. -/
def frameSize : Nat := 16

/-- The frames for which there is memory. A stack that is full is made twice as large. -/
def stackRoom : Nat := allocationLimit / (2 * frameSize)

/-- In a walk over the data no more frames are ever open than there are bytes. Where every frame
asks for memory before it is put on the stack, the walk is the same. -/
structure WalksThriftily {τ : Type} [Output τ] (options : Options) (data : Bytes) (o : τ) :
    Prop where
  frames_le : ∀ n frames t,
    Reached options (MemoryInput.ofBytes data, o) n frames t → frames.length ≤ data.length
  same_walk : copyItemWithin stackRoom options (MemoryInput.ofBytes data, o) =
    copyItem options (MemoryInput.ofBytes data, o)

/-- What was consumed of the data is no more than the data. -/
theorem length_le_of_advances {τ : Type} [Output τ] {o : τ} {bs : Bytes} {t : MemoryInput × τ}
    (h : Advances (MemoryInput.ofBytes data, o) bs t) : bs.length ≤ data.length := by
  have hstream : data = bs ++ stream t := h.1
  rw [hstream, List.length_append]
  exact Nat.le_add_right _ _

/-- Every open frame has a byte of the data to itself, so the stack never outgrows its memory. -/
theorem walksThriftily {τ : Type} [Output τ] (options : Options) (hdata : data.length ≤ stackRoom)
    (o : τ) : WalksThriftily options data o := by
  have hframes (n) (frames) (t) (h : Reached options (MemoryInput.ofBytes data, o) n frames t) :
      frames.length ≤ data.length := by
    obtain ⟨bs, hadv, hstack, -⟩ := h.bounded
    exact hstack.trans (length_le_of_advances hadv)
  exact ⟨hframes, copyItemWithin_eq fun n frames t h => (hframes n frames t h).trans hdata⟩

structure MeasuresThriftily (options : Options) (data : Bytes) : Prop
    extends WalksThriftily options data ({} : Nowhere) where
  memory : itemLength options data ≠ .error .notEnoughMemory

/-- Measuring never fails for want of memory. -/
theorem itemLength_ne (options : Options) (data : Bytes) :
    itemLength options data ≠ .error .notEnoughMemory := by
  intro h
  obtain ⟨t, ht⟩ := decodeBytes_eq_error_iff.mp (itemLength_eq_error_iff.mp h)
  have houtcome := outcome_skipItem options (MemoryInput.ofBytes data)
  rw [ht] at houtcome
  exact (neverShort_copyItem options _ trivial).outcome_ne houtcome.symm

/-- The next item is copied from the data to a new buffer without failing for want of memory, and
the buffer is at most twice as large as the data and a head. -/
structure CopiesThriftily (options : Options) (data : Bytes) : Prop
    extends WalksThriftily options data (GrowingOutput.ofCapacity 0) where
  memory : outcome (Transcriber.copyItem
      ({ options := options }, MemoryInput.ofBytes data, GrowingOutput.ofCapacity 0)) ≠
    .error .notEnoughMemory
  capacity_le : (final (Transcriber.copyItem
      ({ options := options }, MemoryInput.ofBytes data,
        GrowingOutput.ofCapacity 0))).2.2.capacity ≤
    2 * data.length + pieceRoom

/-- Items are copied thriftily if memory can hold twice the data, and a head. -/
theorem copiesThriftily (options : Options)
    (hdata : 2 * data.length + pieceRoom < allocationLimit) (hstack : data.length ≤ stackRoom) :
    CopiesThriftily options data := by
  let start : MemoryInput × GrowingOutput := (MemoryInput.ofBytes data, .ofCapacity 0)
  obtain ⟨houtcome, hfinal⟩ := Transcriber.copyItem_eq { options := options } start
  refine ⟨walksThriftily options hstack _, ?_, ?_⟩
  · -- Where there is room for all of the data, a copy ends as skipping does.
    have hroom : start.2.HasRoom data.length := GrowingOutput.hasRoom_empty hdata
    obtain ⟨hskip, -⟩ := copyItem_eq_skipItem (i := start.1) (o := start.2)
      (GrowingOutput.HasRoom.mono hroom (position_skipItem_le options start.1))
    rw [houtcome, hskip, outcome_skipItem]
    exact (neverShort_copyItem options _ trivial).outcome_ne
  · have hmodest : (final (copyItem options start)).2.Modest :=
      modest_copyItem options start.1 (Nat.zero_le _)
    obtain ⟨bs, hadv, hwritten⟩ := copied_copyItem options start
    have hsize : (final (copyItem options start)).2.written.size = bs.length :=
      (Array.length_toList ..).symm.trans (congrArg List.length hwritten)
    have hwithin := length_le_of_advances hadv
    unfold GrowingOutput.Modest at hmodest
    calc (final (Transcriber.copyItem ({ options := options }, start))).2.2.capacity
        = (final (copyItem options start)).2.capacity := by rw [hfinal]
      _ ≤ 2 * data.length + pieceRoom := by omega

/-- Whatever lengths and counts some data declares, and whatever the options let pass, neither
decoding nor measuring nor copying it fails for want of memory: what is asked for is paid for by
bytes that are there. What an input cannot hold is refused before anything is asked for. -/
theorem hostile_lengths_are_spared (options : Options) (data : Bytes)
    (hdata : data.length < 2 ^ 40) :
    (∀ t : Target, DecodesThriftily options data t) ∧
      MeasuresThriftily options data ∧
      CopiesThriftily options data ∧
      ∀ (σ τ : Type) [Input σ] [Output τ] (s : σ) (o : τ), RefusesAt options s o := by
  have hroom : 2 * data.length + pieceRoom < allocationLimit := by
    unfold pieceRoom allocationLimit
    omega
  have hstack : data.length ≤ stackRoom := hdata.le.trans (by decide)
  exact ⟨decodesThriftily options (by omega),
    ⟨walksThriftily options hstack _, itemLength_ne options data⟩,
    copiesThriftily options hroom hstack, fun σ τ _ _ s o => refusesAt options s o⟩

/-- An array of a byte string that declares all the bytes a word can count: whatever the options let
pass, nothing is asked for, and copying as much of it as there is takes a small buffer. -/
theorem huge_length_is_spared :
    let options : Options := { Options.widest with maxDepth := 0xFFFFFFFFFFFFFFFF }
    let data : Bytes := [0x81, 0x5B, 0xFF, 0xFF, 0xFF, 0xFF, 0xFF, 0xFF, 0xFF, 0xFF]
    data.length < 2 ^ 40 ∧
      decodeBytes (Target.value.decode options) data = .error .missingData ∧
      (final (Target.value.decode options (Metered.ofBytes data))).asked = [] ∧
      DecodesThriftily options data .value ∧
      itemLength options data ≠ .error .notEnoughMemory ∧
      (final (Transcriber.copyItem ({ options := options }, MemoryInput.ofBytes data,
        GrowingOutput.ofCapacity 0))).2.2.capacity ≤ 36 ∧
      readChunk options .bytes 0xFFFFFFFFFFFFFFFF #[] (Metered.ofBytes data) =
        .error .missingData (Metered.ofBytes data) := by
  intro options data
  have hdata : data.length < 2 ^ 40 := by decide
  obtain ⟨hdecode, hlength, hcopy, hrefuse⟩ := hostile_lengths_are_spared options data hdata
  have hshort : available (Metered.ofBytes data) < 0xFFFFFFFFFFFFFFFF := by decide
  exact ⟨hdata, rfl, rfl, hdecode .value, hlength.memory, hcopy.capacity_le,
    (hrefuse Metered GrowingOutput (Metered.ofBytes data) default).chunk .bytes _ _ hshort⟩

end Resident

end CborCodec
