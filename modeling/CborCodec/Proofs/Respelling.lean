import CborCodec.Proofs.Canonical
import CborCodec.Proofs.Leaves
/-!
Heads decoded and encoded again. A head keeps all of its spelling: the initial byte is that of its
major and additional information, and its value follows in as many bytes as are left of its length.
The encoder has the shortest of the spellings of a major and value, so it gives back the bytes that
were decoded exactly if they were minimal.
-/

namespace CborCodec

namespace Head

variable {h : Head} {lead bs : Bytes}

/-- The additional information that is computed from a definite head is that of its width. -/
theorem additionalInformation_definite (m : Major) {w : ArgumentWidth} {n : Nat} (hn : w.Holds n) :
    (definite m (UInt64.ofNat n) (1 + w.bytes)).additionalInformation =
      UInt8.ofNat (w.info n) := by
  cases w with
  | inline =>
    have hval := ArgumentWidth.toNat_of_holds hn
    apply UInt8.toNat_inj.mp
    change (UInt64.ofNat n).toUInt8.toNat = (UInt8.ofNat n).toNat
    rw [UInt64.toNat_toUInt8, hval, UInt8.toNat_ofNat']
  | one | two | four | eight => rfl

/-- A head is spelled by what can be told from its fields. -/
theorem Spelled.eq_fields (s : h.Spelled lead) :
    (h.major.initialBits ||| h.additionalInformation) ::
      Bytes.ofWord (h.encodedLength - 1) h.value.toNat = lead := by
  cases s with
  | definite m w n hn =>
    have hval := ArgumentWidth.toNat_of_holds hn
    rw [additionalInformation_definite m hn]
    change (m.initialBits ||| UInt8.ofNat (w.info n)) ::
      Bytes.ofWord (1 + w.bytes - 1) (UInt64.ofNat n).toNat = m.spell w n
    rw [initialBits_or m (ArgumentWidth.info_lt hn), hval, Nat.add_sub_cancel_left, Major.spell]
  | opening m hm =>
    have hbyte : m.initialBits ||| 31 = m.initialByte 31 := initialBits_or m (by decide)
    rw [Major.opening, ← hbyte]
    rfl

theorem length_encode (m : Major) (value : UInt64) :
    (encode m value).length = 1 + (ArgumentWidth.shortest value.toNat).bytes := by
  rw [encode_eq_spell, Major.length_spell]

/-- What is encoded is decoded in front of anything. -/
theorem decode_encode_append (m : Major) (value : UInt64) (rest : Bytes) :
    decode (encode m value ++ rest) = .ok (definite m value (encode m value).length) := by
  rw [length_encode, encode_eq_spell, decode_spell m (ArgumentWidth.holds_shortest value.toNat_lt),
    UInt64.ofNat_toNat]

/-- The encoder's heads pass in every mode. -/
theorem check_encode {m : Major} (hm : m ≠ .special) (value : UInt64) (mode : Mode) :
    (definite m value (encode m value).length).check mode = .ok () := by
  have hadmits : mode.Admits m (.shortest value.toNat) value.toNat :=
    (admits_shortest hm).of_strict
  have hchecked := (check_definite (ArgumentWidth.holds_shortest value.toNat_lt)).mpr hadmits
  rwa [UInt64.ofNat_toNat, ← length_encode m] at hchecked

/-- No head is shorter than the encoder's with its major and value. -/
theorem Spelled.length_encode_le (s : h.Spelled lead) :
    (encode h.major h.value).length ≤ lead.length := by
  rw [length_encode]
  cases s with
  | definite m w n hn =>
    have hval := ArgumentWidth.toNat_of_holds hn
    have hle := ArgumentWidth.bytes_shortest_le hn
    rw [m.length_spell, Head.definite, hval]
    omega
  | opening m hm => exact Nat.le_refl 1

/-- Of the spellings of a major and value the encoder has the minimal one. -/
theorem Spelled.encode_eq_iff (s : h.Spelled lead) (hi : h.indefinite = false)
    (hm : h.major ≠ .special) : encode h.major h.value = lead ↔ h.isMinimal = true := by
  cases s with
  | opening m _ => cases hi
  | definite m w n hn =>
    change m ≠ .special at hm
    rw [isMinimal_definite hn]
    change encode m (UInt64.ofNat n) = m.spell w n ↔ _
    constructor
    · -- Spellings of one length are in one width, and the encoder's is narrowest.
      intro heq
      have hlength := congrArg List.length heq
      rw [encode_ofNat m (ArgumentWidth.lt_of_holds hn), m.length_spell, m.length_spell] at hlength
      have hwidth : ArgumentWidth.shortest n = w :=
        ArgumentWidth.eq_of_bytes (Nat.add_left_cancel hlength)
      rw [← hwidth]
      exact (admits_shortest hm).1
    · intro hnarrow
      exact encode_of_admits hm hn ⟨hnarrow, fun hspecial => absurd hspecial hm⟩

end Head

/-- What the encoder writes for a major and a value, of any that has no floats, decodes to them in
front of anything, as a definite head of its own length that every mode lets pass, and nothing
shorter decodes to them. What is decoded at the front of bytes is spelled there by the fields of
the head, and encoding a definite one gives those bytes back exactly if it is minimal. -/
theorem head_coding_inverts :
    (∀ (m : Major) (value : UInt64), m ≠ .special →
      (∀ rest, Head.decode (Head.encode m value ++ rest) =
        .ok ⟨m, false, (Head.encode m value).length, value⟩) ∧
      (∀ mode, Head.check ⟨m, false, (Head.encode m value).length, value⟩ mode = .ok ()) ∧
      ∀ bs h, Head.decode bs = .ok h → h.major = m → h.value = value →
        (Head.encode m value).length ≤ bs.length) ∧
    ∀ (window : Bytes) (h : Head), Head.decode window = .ok h →
      h.encodedLength ≤ window.length ∧
      (h.major.initialBits ||| h.additionalInformation) ::
        Bytes.ofWord (h.encodedLength - 1) h.value.toNat = window.take h.encodedLength ∧
      (h.indefinite = false → h.major ≠ .special →
        (Head.encode h.major h.value = window.take h.encodedLength ↔ h.isMinimal = true)) := by
  constructor
  · intro m value hm
    refine ⟨Head.decode_encode_append m value, Head.check_encode hm value, ?_⟩
    rintro bs h hdecode rfl rfl
    obtain ⟨lead, rest, rfl, hs⟩ := Head.spelled_of_decode hdecode
    rw [List.length_append]
    exact hs.length_encode_le.trans (Nat.le_add_right _ _)
  · intro window h hdecode
    obtain ⟨lead, rest, rfl, hs⟩ := Head.spelled_of_decode hdecode
    have htake : (lead ++ rest).take h.encodedLength = lead := List.take_left' hs.length_eq
    rw [htake, List.length_append, hs.length_eq]
    exact ⟨Nat.le_add_right _ _, hs.eq_fields, hs.encode_eq_iff⟩

/-- At the boundary of four bytes: the greatest value that fits them is encoded in five bytes in
all, and its wider spelling is decoded too but not given back. -/
theorem head_coding_at_boundary :
    Head.decode (Head.encode .array 0xFFFFFFFF ++ [0x01]) =
        .ok ⟨.array, false, (Head.encode .array 0xFFFFFFFF).length, 0xFFFFFFFF⟩ ∧
      Head.decode [0x9B, 0, 0, 0, 0, 0xFF, 0xFF, 0xFF, 0xFF, 0x01] =
        .ok ⟨.array, false, 9, 0xFFFFFFFF⟩ ∧
      (Head.encode .array 0xFFFFFFFF).length ≤ 10 ∧
      Head.encode .array 0xFFFFFFFF ≠ [0x9B, 0, 0, 0, 0, 0xFF, 0xFF, 0xFF, 0xFF] := by
  obtain ⟨hencoded, hdecoded⟩ := head_coding_inverts
  have hwide : Head.decode [0x9B, 0, 0, 0, 0, 0xFF, 0xFF, 0xFF, 0xFF, 0x01] =
      .ok ⟨.array, false, 9, 0xFFFFFFFF⟩ := by decide
  obtain ⟨hback, -, hshortest⟩ := hencoded .array 0xFFFFFFFF (by decide)
  obtain ⟨-, -, hminimal⟩ := hdecoded _ _ hwide
  refine ⟨hback [0x01], hwide, hshortest _ _ hwide rfl rfl, fun heq => ?_⟩
  exact absurd ((hminimal rfl (by decide)).mp heq) (by decide)

end CborCodec
