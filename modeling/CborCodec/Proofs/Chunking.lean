import CborCodec.Proofs.Describing
import CborCodec.Proofs.Extending
import CborCodec.Proofs.Rejecting
/-!
Strings in chunks. Chunks that are within the limit in all, and each of them a text by itself if
they are those of a text, are read as their concatenation; of others the first that is wrong decides
how reading fails. As texts in a row are a text, what was accepted chunk by chunk never fails for
its encoding as a whole.
-/

namespace CborCodec

/-- Chunks that make a string. Totals only grow, so that after the last chunk bounds all others. -/
structure Chunked (options : Options) (major : Major) (chunks : List Bytes) : Prop where
  size : chunks.flatten.length ≤ options.maxStringSize.toNat
  text : major = .text → ∀ c ∈ chunks, ∃ t, c = Bytes.ofText t

/-- How reading fails at a chunk that is wrong behind `before` bytes of others. -/
def chunkError (options : Options) (before : Nat) (chunk : Bytes) : Error :=
  if options.maxStringSize.toNat < before + chunk.length then .stringExceedsSizeLimit
  else .invalidUtf8

section Lists

variable {options : Options} {major : Major} {front chunks : List Bytes}

/-- Texts in a row are a text. -/
theorem exists_text_flatten (h : ∀ c ∈ chunks, ∃ t, c = Bytes.ofText t) :
    ∃ t, chunks.flatten = Bytes.ofText t := by
  obtain ⟨texts, rfl⟩ : ∃ texts : List String, texts.map Bytes.ofText = chunks := by
    induction chunks with
    | nil => exact ⟨[], rfl⟩
    | cons c cs ih =>
      obtain ⟨⟨t, rfl⟩, hcs⟩ := List.forall_mem_cons.mp h
      obtain ⟨texts, rfl⟩ := ih hcs
      exact ⟨t :: texts, rfl⟩
  exact ⟨String.join texts, by rw [Program.ofText_join, List.flatMap_def]⟩

/-- Of chunks that make no string one is the first that is wrong. -/
theorem exists_first_wrong (h : ¬Chunked options major chunks) :
    ∃ front c back, chunks = front ++ c :: back ∧ Chunked options major front ∧
      ¬Chunked options major (front ++ [c]) := by
  induction chunks using List.reverseRecOn with
  | nil => exact absurd ⟨Nat.zero_le _, by simp⟩ h
  | append_singleton chunks last ih =>
    by_cases hfront : Chunked options major chunks
    · exact ⟨chunks, last, [], rfl, hfront, h⟩
    · obtain ⟨front, c, back, rfl, hok, hwrong⟩ := ih hfront
      exact ⟨front, c, back ++ [last], by simp, hok, hwrong⟩

end Lists

section Rejected

variable {σ : Type} [Input σ] [Reliable σ] {options : Options} {major : Major}

/-- A chunk that is there is refused for the total that it makes, and else read. -/
theorem checkChunk_apply {length total : Nat} {s : σ} (h : length ≤ (stream s).length) :
    checkChunk options length total s =
      failIf (options.maxStringSize.toNat < total + length) .stringExceedsSizeLimit s := by
  have havailable : checkAvailable .bytes length s = .ok () s :=
    checkAvailable_eq_ok.mpr ⟨h.trans (Reliable.length_le_available s), rfl⟩
  rw [checkChunk, bind_apply, havailable]

/-- A chunk that is too much, or no text where it should be one, is refused for that. -/
theorem Rejects.readChunk {before : Array UInt8} {chunk : Bytes}
    (hm : before.toList.length + chunk.length < allocationLimit)
    (hwrong : before.toList.length + chunk.length ≤ options.maxStringSize.toNat →
      major = .text ∧ ¬∃ t, chunk = Bytes.ofText t) :
    Rejects (readChunk options major chunk.length before : EStateM Error σ (Array UInt8))
      (chunkError options before.toList.length chunk) chunk := by
  intro s rest hs
  have hlen : chunk.length ≤ (stream s).length := by
    rw [hs, List.length_append]
    exact Nat.le_add_right _ _
  rw [CborCodec.readChunk, bind_apply, checkChunk_apply hlen, ← Array.length_toList, chunkError]
  by_cases hl : options.maxStringSize.toNat < before.toList.length + chunk.length
  · rw [CborCodec.failIf, if_pos hl, if_pos hl]
    exact ⟨s, rfl⟩
  · obtain ⟨hmajor, hnone⟩ := hwrong (Nat.le_of_not_lt hl)
    have htext : major = .text ∧ (Bytes.toText? chunk).isNone = true := by
      refine ⟨hmajor, ?_⟩
      rw [← Bool.not_eq_false, isNone_toText?_iff]
      exact hnone
    have happend : Rejects (appendChunk major chunk.length before : EStateM Error σ (Array UInt8))
        .invalidUtf8 ([] ++ (chunk ++ [])) :=
      (Accepts.failIf (Nat.not_le_of_lt hm)).rejects
        ((Accepts.read rfl).rejects (Rejects.failIf htext).bind)
    rw [List.nil_append, List.append_nil] at happend
    rw [CborCodec.failIf, if_neg hl, if_neg hl]
    exact happend s rest hs

/-- Behind chunks that are read the first that is wrong decides, whatever comes after it. -/
theorem Rejects.readChunks (hmode : options.mode = .lenient)
    (front : List (ArgumentWidth × Bytes)) {w : ArgumentWidth} {chunk : Bytes}
    (hn : ∀ c ∈ front, c.1.Holds c.2.length) (hw : w.Holds chunk.length)
    (hok : Chunked options major (front.map (·.2)))
    (hwrong : ¬Chunked options major (front.map (·.2) ++ [chunk]))
    (hm : (front.flatMap (·.2)).length + chunk.length < allocationLimit) :
    Rejects (readChunks options major #[] : EStateM Error σ (Array UInt8))
      (chunkError options (front.flatMap (·.2)).length chunk)
      (front.flatMap major.chunk ++ major.chunk (w, chunk)) := by
  obtain ⟨hsize, htext⟩ := hok
  rw [← List.flatMap_def] at hsize
  intro s rest hs
  rw [List.append_assoc] at hs
  obtain ⟨after, t, hafter, heq, hadv⟩ := readChunks_front hmode front #[] hn
    (by simpa using hsize) (by simp only [List.length_nil, Nat.zero_add]; omega)
    (fun hmajor c hc => htext hmajor c.2 (List.mem_map_of_mem hc)) hs
  rw [List.nil_append] at hafter
  have hadmits : options.mode.Admits major w chunk.length := by rw [hmode]; trivial
  have hchunk : Rejects (CborCodec.readChunk options major chunk.length after :
      EStateM Error σ (Array UInt8)) (chunkError options after.toList.length chunk) chunk := by
    refine .readChunk (by rwa [hafter]) fun hl => ?_
    by_contra hright
    refine hwrong ⟨?_, fun hmajor c hc => ?_⟩
    · simpa [hafter, List.flatMap_def] using hl
    · rcases List.mem_append.mp hc with hc | hc
      · exact htext hmajor c hc
      · rw [List.mem_singleton.mp hc]
        exact not_not.mp fun hnone => hright ⟨hmajor, hnone⟩
  have hrest : Rejects (CborCodec.readChunks options major after : EStateM Error σ (Array UInt8))
      (chunkError options after.toList.length chunk) (major.chunk (w, chunk)) := by
    rw [readChunks_eq]
    exact (Accepts.readChunkHead hw hadmits).rejects hchunk.bind
  obtain ⟨u, hu⟩ := hrest t rest (stream_of_advances hadv hs)
  exact ⟨u, by rw [heq, hu, hafter]⟩

end Rejected

def Major.chunked (m : Major) (chunks : List (ArgumentWidth × Bytes)) : Bytes :=
  m.opening ++ (chunks.flatMap m.chunk ++ [breakByte])

section Strings

variable {σ : Type} [Input σ] {options : Options} {major : Major}
  {chunks : List (ArgumentWidth × Bytes)}

/-- A text that was accepted piece by piece is a text. -/
theorem textOf_of_readPayload {head : Head} (hm : head.major = .text) {s t : σ} {bytes : Bytes}
    (h : readPayload options head s = .ok bytes t) : ∃ text, textOf bytes = .ok text := by
  cases hi : head.indefinite with
  | false =>
    obtain ⟨bs, -, rfl, -, -, htext⟩ := Reads.readPayload_definite options hi s bytes t h
    obtain ⟨text, rfl⟩ := htext hm
    exact ⟨text, textOf_eq_ok_iff.mpr rfl⟩
  | true =>
    obtain ⟨bs, -, chunks, -, rfl, -, -, htext⟩ :=
      Reads.readPayload_indefinite options hi s bytes t h
    obtain ⟨text, hflat⟩ := exists_text_flatten (List.forall_mem_map.mpr (htext hm))
    rw [← List.flatMap_def] at hflat
    exact ⟨text, textOf_eq_ok_iff.mpr hflat.symm⟩

/-- Each chunk of a text is checked, so the text is valid as a whole. -/
theorem textOf_of_readString {s t : σ} {bytes : Bytes}
    (h : readString options .text s = .ok bytes t) : ∃ text, textOf bytes = .ok text := by
  obtain ⟨head, u, -, h⟩ := bind_eq_ok.1 h
  obtain ⟨_, v, hv, h⟩ := bind_eq_ok.1 h
  obtain ⟨hmajor, rfl⟩ := failIf_eq_ok.1 hv
  exact textOf_of_readPayload (not_not.mp fun hne => hmajor (Or.inl hne)) h

def readStringHead (options : Options) (major : Major) : EStateM Error σ Head := do
  let head ← readHead options.mode
  failIf (head.major ≠ major ∨ head.isBreak = true) .itemTypeMismatch
  return head

theorem readString_eq (options : Options) (major : Major) :
    (readString options major : EStateM Error σ Bytes) =
      readStringHead options major >>= readPayload options := by
  simp [readString, readStringHead]

variable [Reliable σ]

theorem accepts_readStringHead (hmode : options.mode = .lenient)
    (hm : major = .bytes ∨ major = .text) :
    Accepts (readStringHead options major : EStateM Error σ Head) ⟨major, true, 1, 0⟩
      major.opening := by
  have hspelled : Head.Spelled ⟨major, true, 1, 0⟩ major.opening := by
    rcases hm with rfl | rfl <;> exact .opening _ rfl
  have hhead : Accepts (readHead options.mode : EStateM Error σ Head) ⟨major, true, 1, 0⟩
      major.opening := .readHead hspelled (check_opening.mpr (Or.inl hmode))
  rw [← List.append_nil major.opening]
  refine hhead.bind (.seq (.failIf ?_) (.pure _))
  rcases hm with rfl | rfl <;> simp [Head.isBreak]

/-- Chunks that pass are read as one string. -/
theorem Accepts.readString (hmode : options.mode = .lenient) (hm : major = .bytes ∨ major = .text)
    (hn : ∀ c ∈ chunks, c.1.Holds c.2.length)
    (hmemory : (chunks.flatMap (·.2)).length < allocationLimit)
    (h : Chunked options major (chunks.map (·.2))) :
    Accepts (readString options major : EStateM Error σ Bytes) (chunks.flatMap (·.2))
      (major.chunked chunks) := by
  obtain ⟨hsize, htext⟩ := h
  rw [← List.flatMap_def] at hsize
  rw [readString_eq]
  exact (accepts_readStringHead hmode hm).bind (Accepts.readPayload_indefinite rfl hmode chunks hn
    hsize hmemory fun hmajor c hc => htext hmajor c.2 (List.mem_map_of_mem hc))

/-- The first chunk that is wrong decides how reading fails. -/
theorem Rejects.readString (hmode : options.mode = .lenient) (hm : major = .bytes ∨ major = .text)
    (hn : ∀ c ∈ chunks, c.1.Holds c.2.length)
    (hmemory : (chunks.flatMap (·.2)).length < allocationLimit)
    {front back : List Bytes} {c : Bytes} (hsplit : chunks.map (·.2) = front ++ c :: back)
    (hok : Chunked options major front) (hwrong : ¬Chunked options major (front ++ [c])) :
    Rejects (readString options major : EStateM Error σ Bytes)
      (chunkError options front.flatten.length c) (major.chunked chunks) := by
  obtain ⟨before, after, rfl, rfl, hafter⟩ := List.map_eq_append_iff.mp hsplit
  obtain ⟨⟨w, payload⟩, later, rfl, rfl, rfl⟩ := List.map_eq_cons_iff.mp hafter
  rw [List.forall_mem_append, List.forall_mem_cons] at hn
  have hlength : (before.flatMap (·.2)).length + payload.length < allocationLimit := by
    simp only [List.flatMap_append, List.flatMap_cons, List.length_append] at hmemory
    omega
  have hpieces : Rejects (readPieces options ⟨major, true, 1, 0⟩ : EStateM Error σ (Array UInt8))
      (chunkError options (before.flatMap (·.2)).length payload)
      (before.flatMap major.chunk ++ major.chunk (w, payload)) :=
    Rejects.readChunks hmode before hn.1 hn.2.1 hok hwrong hlength
  have hpayload : Rejects (readPayload options ⟨major, true, 1, 0⟩ : EStateM Error σ Bytes)
      (chunkError options (before.flatMap (·.2)).length payload)
      (before.flatMap major.chunk ++ major.chunk (w, payload)) := hpieces.bind
  have hstring := (accepts_readStringHead hmode hm).rejects
    (hpayload.append (later.flatMap major.chunk ++ [breakByte]))
  rw [readString_eq, Major.chunked, ← List.flatMap_def]
  simpa only [List.flatMap_append, List.flatMap_cons, List.append_assoc] using hstring

end Strings

/-- In lenient mode chunks of any widths that make a string are read as their concatenation, up to
and including the break. If they make none, the first one that is wrong decides: reading fails for
the size if the string is too long with it, and else because it is no text by itself. And on any
input, what has been read as the payload of a text is a text. -/
theorem chunked_strings_concatenate {σ : Type} [Input σ] [Reliable σ] {options : Options}
    (hmode : options.mode = .lenient) (chunks : List (ArgumentWidth × Bytes))
    (hn : ∀ c ∈ chunks, c.1.Holds c.2.length)
    (hmemory : (chunks.flatMap (·.2)).length < allocationLimit) :
    (Chunked options .bytes (chunks.map (·.2)) →
      Accepts (readBytes options : EStateM Error σ Bytes) (chunks.flatMap (·.2))
        (Major.bytes.chunked chunks)) ∧
      (Chunked options .text (chunks.map (·.2)) →
        ∃ text, Bytes.ofText text = chunks.flatMap (·.2) ∧
          Accepts (readText options : EStateM Error σ String) text (Major.text.chunked chunks)) ∧
      (¬Chunked options .bytes (chunks.map (·.2)) →
        Rejects (readBytes options : EStateM Error σ Bytes) .stringExceedsSizeLimit
          (Major.bytes.chunked chunks)) ∧
      (¬Chunked options .text (chunks.map (·.2)) →
        ∃ front c back, chunks.map (·.2) = front ++ c :: back ∧ Chunked options .text front ∧
          ¬Chunked options .text (front ++ [c]) ∧
          Rejects (readText options : EStateM Error σ String)
            (if options.maxStringSize.toNat < (front ++ [c]).flatten.length then
              .stringExceedsSizeLimit else .invalidUtf8) (Major.text.chunked chunks)) ∧
      ∀ {τ : Type} [Input τ] (limits : Options) {s t : τ} {bytes : Bytes},
        (readString limits .text s = .ok bytes t → ∃ text, textOf bytes = .ok text) ∧
          ∀ head : Head, head.major = .text → readPayload limits head s = .ok bytes t →
            ∃ text, textOf bytes = .ok text := by
  refine ⟨fun h => .readString hmode (Or.inl rfl) hn hmemory h, fun h => ?_, fun h => ?_,
    fun h => ?_, fun limits s t bytes =>
      ⟨textOf_of_readString, fun _ hm => textOf_of_readPayload hm⟩⟩
  · obtain ⟨text, htext⟩ := exists_text_flatten (h.text rfl)
    rw [← List.flatMap_def] at htext
    have hbytes : Accepts (readString options .text : EStateM Error σ Bytes)
      (chunks.flatMap (·.2)) (Major.text.chunked chunks) :=
      .readString hmode (Or.inr rfl) hn hmemory h
    refine ⟨text, htext.symm, ?_⟩
    rw [← List.append_nil (Major.text.chunked chunks)]
    exact hbytes.bind (.known (textOf_eq_ok_iff.mpr htext.symm))
  · obtain ⟨front, c, back, hsplit, hok, hwrong⟩ := exists_first_wrong h
    have hlong : options.maxStringSize.toNat < front.flatten.length + c.length := by
      by_contra hshort
      exact hwrong ⟨by simpa using Nat.le_of_not_lt hshort, by simp⟩
    have hreject : Rejects (readString options .bytes : EStateM Error σ Bytes)
        (chunkError options front.flatten.length c) (Major.bytes.chunked chunks) :=
      .readString hmode (Or.inl rfl) hn hmemory hsplit hok hwrong
    rwa [chunkError, if_pos hlong] at hreject
  · obtain ⟨front, c, back, hsplit, hok, hwrong⟩ := exists_first_wrong h
    have hreject : Rejects (readString options .text : EStateM Error σ Bytes)
        (chunkError options front.flatten.length c) (Major.text.chunked chunks) :=
      .readString hmode (Or.inr rfl) hn hmemory hsplit hok hwrong
    have hlength : (front ++ [c]).flatten.length = front.flatten.length + c.length := by simp
    refine ⟨front, c, back, hsplit, hok, hwrong, ?_⟩
    rw [hlength]
    exact hreject.bind

theorem decodeBytes_of_rejects {α : Type} {x : EStateM Error MemoryInput α} {e : Error}
    {bs : Bytes} (h : Rejects x e bs) (rest : Bytes) : decodeBytes x (bs ++ rest) = .error e := by
  obtain ⟨t, ht⟩ := h (MemoryInput.ofBytes (bs ++ rest)) rest rfl
  rw [decodeBytes, ht]

/-- A text that is split between its letters is read; one that is split inside a letter is refused,
although its bytes in a row are the same. -/
theorem split_letter_refused :
    decodeBytes (readText {}) [0x7F, 0x62, 0xC3, 0xA9, 0x78, 0x01, 0x61, 0xFF, 0x00] =
        .ok ("éa", 8) ∧
      decodeBytes (readText {}) [0x7F, 0x61, 0xC3, 0x62, 0xA9, 0x61, 0xFF] =
        .error .invalidUtf8 := by
  have hmode : ({} : Options).mode = .lenient := rfl
  constructor
  · have hchunked : Chunked {} .text [[0xC3, 0xA9], [0x61]] :=
      ⟨by decide, fun _ => by
        simpa using ⟨⟨"é", by decide⟩, ⟨"a", by decide⟩⟩⟩
    obtain ⟨text, htext, haccepts⟩ := (chunked_strings_concatenate (σ := MemoryInput) hmode
      [(.inline, [0xC3, 0xA9]), (.one, [0x61])] (by decide) (by decide)).2.1 hchunked
    have heq : text = "éa" := by
      have h : textOf [0xC3, 0xA9, 0x61] = .ok text := textOf_eq_ok_iff.mpr htext
      exact (Except.ok.inj (h.symm.trans rfl) :)
    rw [heq] at haccepts
    exact decodeBytes_of_accepts haccepts [0x00]
  · have hwrong : ¬Chunked {} .text [[0xC3], [0xA9, 0x61]] := by
      intro h
      have hnone : (Bytes.toText? [0xC3]).isNone = false :=
        isNone_toText?_iff.mpr (h.text rfl _ List.mem_cons_self)
      exact absurd hnone (by decide)
    obtain ⟨front, c, back, hsplit, -, -, hrejects⟩ :=
      (chunked_strings_concatenate (σ := MemoryInput) hmode
        [(.inline, [0xC3]), (.inline, [0xA9, 0x61])] (by decide) (by decide)).2.2.2.1 hwrong
    have hshort : (front ++ [c]).flatten.length ≤ 3 := by
      have hlength := congrArg (fun payloads : List Bytes => payloads.flatten.length) hsplit
      simp only [List.flatten_append, List.flatten_cons, List.length_append] at hlength ⊢
      simp at hlength ⊢
      omega
    rw [if_neg (Nat.not_lt_of_le (hshort.trans (by decide)))] at hrejects
    exact decodeBytes_of_rejects hrejects []

end CborCodec
