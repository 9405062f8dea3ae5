import CborCodec.Proofs.Abreast
/-!
Items delimit themselves. What is said of an item does not depend on what comes behind it, neither
that it is one nor why it is none; and of an item that is cut short nothing is said but that bytes
are missing.
-/

namespace CborCodec

/-- The failures that more bytes may turn into something else. -/
def Truncation (e : Error) : Prop := e = .missingData ∨ e = .endOfStream

namespace Standing

def within (ahead : Nat) (more : Bytes) : Standing MemoryInput where
  ahead := ahead
  more := more
  late := more ≠ []
  available_eq s r h := by
    by_cases hmore : more = []
    · have hstream := h.stream_eq
      rw [hmore, List.append_nil] at hstream
      have hs : available s = (stream s).length := s.rest.size_eq
      have hr : available r = (stream r).length := r.rest.size_eq
      exact Or.inr (by rw [hs, hr, hstream])
    · exact Or.inl hmore

theorem excused_within {ahead : Nat} {more : Bytes} {e : Error}
    (h : (within ahead more).Excused e) : more ≠ [] ∧ Truncation e := by
  rcases h with ⟨he, hmore⟩ | ⟨he, hmore⟩
  · exact ⟨hmore, Or.inl he⟩
  · exact ⟨hmore, Or.inr he⟩

end Standing

section Readers

variable {σ : Type} [Input σ] {options : Options}

theorem skipItem_ok {s : σ} {t : σ × Nowhere}
    (h : copyItem options (s, ({} : Nowhere)) = .ok () t) : skipItem options s = .ok () t.1 := by
  rw [skipItem, h]

theorem skipItem_error {s : σ} {e : Error} {t : σ × Nowhere}
    (h : copyItem options (s, ({} : Nowhere)) = .error e t) :
    skipItem options s = .error e t.1 := by
  rw [skipItem, h]

theorem follows_skipItem [Supplying σ] {c : Standing σ} (options : Options) :
    Follows (.abreast c) (skipItem options) (skipItem options) := by
  refine ⟨(Consumes.skipItem options).mono (Nat.zero_le 1), ?_⟩
  intro s r hrel
  have hwalk := ((abreast_walk (c := c) (τ := Nowhere) options).walkItem []).at_rel (s, {}) (r, {})
    hrel
  rw [← copyItem_eq, ← copyItem_eq] at hwalk
  cases hs : copyItem options (s, ({} : Nowhere)) with
  | ok _ t =>
    obtain ⟨u, hu, hafter⟩ := hwalk.ok hs trivial
    exact .of_ok (skipItem_ok hs) fun _ => ⟨u.1, skipItem_ok hu, hafter⟩
  | error e t =>
    rcases hwalk.error hs trivial with he | ⟨u, hu, hafter⟩
    · exact .excuse (skipItem_error hs) he
    · exact .of_error (skipItem_error hs) fun _ => ⟨u.1, skipItem_error hu, hafter⟩

end Readers

section Verdicts

variable {α : Type} {x : EStateM Error MemoryInput α} {data : Bytes} {e : Error}

theorem decodeBytes_eq_error_iff :
    decodeBytes x data = .error e ↔ ∃ t, x (MemoryInput.ofBytes data) = .error e t := by
  unfold decodeBytes
  cases x (MemoryInput.ofBytes data) <;> simp

/-- What is accepted is read with anything behind it. -/
theorem decodeBytes_of_accepts {a : α} {bs : Bytes} (h : Accepts x a bs) (rest : Bytes) :
    decodeBytes x (bs ++ rest) = .ok (a, bs.length) := by
  obtain ⟨t, ht, hadv⟩ := h (MemoryInput.ofBytes (bs ++ rest)) rest rfl
  have hoffset : t.offset = bs.length := hadv.2.trans (Nat.zero_add _)
  rw [decodeBytes_eq_ok_iff]
  exact ⟨t, ht, hoffset⟩

theorem itemLength_eq_map (options : Options) (data : Bytes) :
    itemLength options data = (decodeBytes (skipItem options) data).map Prod.snd := by
  unfold itemLength decodeBytes
  cases skipItem options (MemoryInput.ofBytes data) <;> rfl

theorem itemLength_eq_error_iff {options : Options} :
    itemLength options data = .error e ↔ decodeBytes (skipItem options) data = .error e := by
  rw [itemLength_eq_map]
  cases decodeBytes (skipItem options) data <;> simp [Except.map]

/-- Data, and the same data in front of more. -/
theorem abreast_append (data more : Bytes) :
    Abreast 0 more (MemoryInput.ofBytes data) (MemoryInput.ofBytes (data ++ more)) where
  ready := trivial
  ready' := trivial
  stream_eq := rfl
  position_eq := rfl

/-- Why there is nothing to read is not changed by what comes behind, but for a truncation. -/
theorem decodeBytes_refused (hx : ∀ c : Standing MemoryInput, Follows (.abreast c) x x)
    (h : decodeBytes x data = .error e) (he : ¬Truncation e) (more : Bytes) :
    decodeBytes x (data ++ more) = .error e := by
  rw [decodeBytes_eq_error_iff] at h ⊢
  obtain ⟨t, ht⟩ := h
  have hat := (hx (.within 0 more)).at_rel _ _ (abreast_append data more)
  rcases hat.error ht trivial with hexcused | ⟨u, hu, -⟩
  · exact absurd (Standing.excused_within hexcused).2 he
  · exact ⟨u, hu⟩

/-- What a reader of the first item says of data. An item stands by itself, whatever comes behind
it; a refusal stands, unless it is for want of bytes; and any front of an item is refused for want
of bytes. -/
structure SelfDelimiting (read : Bytes → Except Error α) (length : α → Nat) (data : Bytes) :
    Prop where
  stands : ∀ a, read data = .ok a → ∀ rest, read (data.take (length a) ++ rest) = .ok a
  refused : ∀ e, read data = .error e → ¬Truncation e → ∀ rest, read (data ++ rest) = .error e
  truncated : ∀ a, read data = .ok a → ∀ m < length a,
    ∃ e, read (data.take m) = .error e ∧ Truncation e

/-- What is said of a front of the data, when it stands, is said of the data. -/
theorem SelfDelimiting.of_fronts {read : Bytes → Except Error α} {length : α → Nat}
    (hok : ∀ m a, read (data.take m) = .ok a → length a ≤ m ∧
      ∀ rest, read ((data.take m).take (length a) ++ rest) = .ok a)
    (herror : ∀ m e, read (data.take m) = .error e → ¬Truncation e →
      ∀ rest, read (data.take m ++ rest) = .error e) : SelfDelimiting read length data where
  stands a ha := by
    have h := hok data.length a
    rw [List.take_length] at h
    exact (h ha).2
  refused e he := by
    have h := herror data.length e
    rw [List.take_length] at h
    exact h he
  truncated a ha m hm := by
    cases hfront : read (data.take m) with
    | ok b =>
      obtain ⟨hle, hstands⟩ := hok m b hfront
      -- The shorter item would be the item of the whole data.
      have hwhole := hstands (data.drop (length b))
      rw [List.take_take, Nat.min_eq_left hle, List.take_append_drop, ha] at hwhole
      cases hwhole
      omega
    | error e =>
      by_cases he : Truncation e
      · exact ⟨e, rfl, he⟩
      · have hwhole := herror m e hfront he (data.drop m)
        rw [List.take_append_drop, ha] at hwhole
        cases hwhole

end Verdicts

/-- The first item of any data, measured or decoded, is found by itself, is refused for a reason
that does not depend on what comes behind, and is missed for want of bytes where it is cut short.
Data that is decoded is such as memory can hold. -/
theorem items_delimit_themselves (options : Options) (data : Bytes) :
    SelfDelimiting (itemLength options) id data ∧
      (data.length ≤ allocationLimit →
        SelfDelimiting (decodeBytes (Value.decode options)) Prod.snd data) := by
  constructor
  · apply SelfDelimiting.of_fronts
    · intro m n h
      obtain ⟨hle, hitem⟩ := (itemLength_eq_ok_iff options _ n).mp h
      refine ⟨hle.trans (List.length_take_le m data), ?_⟩
      intro rest
      have hread := decodeBytes_of_accepts (.skipItem hitem) rest
      rw [List.length_take_of_le hle] at hread
      rw [itemLength_eq_map, id, hread]
      rfl
    · intro m e h he rest
      rw [itemLength_eq_error_iff] at h ⊢
      exact decodeBytes_refused (fun c => follows_skipItem options) h he rest
  · intro hdata
    apply SelfDelimiting.of_fronts
    · rintro m ⟨v, n⟩ h
      have hfront := List.length_take_le' m data
      rw [decode_eq_ok_iff _ _ _ _ (hfront.trans hdata)] at h
      obtain ⟨hle, hspells, hfits⟩ := h
      have hlength := List.length_take_of_le hle
      have hread := decodeBytes_of_accepts
        (accepts_decodeWithin hspells hfits (hlength.trans_le (hle.trans (hfront.trans hdata))))
      rw [hlength] at hread
      exact ⟨hle.trans (List.length_take_le m data), hread⟩
    · intro m e h he rest
      exact decodeBytes_refused (fun c => abreast_decodeWithin options _) h he rest

/-- An array of two before a stray byte, and a reserved head before an array. -/
theorem array_delimits_itself :
    itemLength {} [0x82, 0x01, 0x02, 0xFF] = .ok 3 ∧ itemLength {} [0x82, 0x01, 0x02] = .ok 3 ∧
      (∃ e, itemLength {} [0x82, 0x01] = .error e ∧ Truncation e) ∧
      (∃ e, decodeBytes (Value.decode {}) [0x82] = .error e ∧ Truncation e) ∧
      decodeBytes (Value.decode {}) [0x1C, 0x82] =
        .error (.invalidAdditionalInformation 28) := by
  have hmeasured : itemLength {} [0x82, 0x01, 0x02, 0xFF] = .ok 3 := by decide +kernel
  have hdecoded : decodeBytes (Value.decode {}) [0x82, 0x01, 0x02, 0xFF] =
      .ok (.array [.unsigned 1, .unsigned 2], 3) := rfl
  have hreserved : decodeBytes (Value.decode {}) [0x1C] =
      .error (.invalidAdditionalInformation 28) := rfl
  have hkept : ¬Truncation (.invalidAdditionalInformation 28) := by simp [Truncation]
  obtain ⟨hlength, hvalue⟩ := items_delimit_themselves {} [0x82, 0x01, 0x02, 0xFF]
  obtain ⟨-, hhead⟩ := items_delimit_themselves {} [0x1C]
  refine ⟨hmeasured, hlength.stands 3 hmeasured [], ?_, ?_, ?_⟩
  · exact hlength.truncated 3 hmeasured 2 (by decide)
  · exact (hvalue (by decide)).truncated _ hdecoded 1 (by decide)
  · exact (hhead (by decide)).refused _ hreserved hkept [0x82]

end CborCodec
