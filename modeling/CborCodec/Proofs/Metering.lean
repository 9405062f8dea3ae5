import CborCodec.Proofs.Concatenation
/-!
Memory that decoding asks for. A chunk is read into a reservation of just its length, so an input
that notes the lengths of its bulk reads notes what is reserved. Each is held against what is left
before, and all of them together are no more than the bytes that were consumed; no reservation comes
near the limit then, whatever lengths the data declares.
-/

namespace CborCodec

section Calculus

variable {S α β : Type} {P : S → Prop} {x : EStateM Error S α} {f : α → EStateM Error S β}

/-- From here the action keeps the property, and does not fail for want of memory. -/
def SparesAt (P : S → Prop) (x : EStateM Error S α) (s : S) : Prop :=
  P (final (x s)) ∧ ∀ t, x s ≠ .error .notEnoughMemory t

def Spares (P : S → Prop) (x : EStateM Error S α) : Prop := ∀ s, P s → SparesAt P x s

theorem SparesAt.of_ok {s t : S} {a : α} (h : x s = .ok a t) (ht : P t) : SparesAt P x s := by
  rw [SparesAt, h]
  exact ⟨ht, nofun⟩

theorem SparesAt.of_error {s t : S} {e : Error} (h : x s = .error e t) (ht : P t)
    (he : e ≠ .notEnoughMemory) : SparesAt P x s := by
  rw [SparesAt, h]
  refine ⟨ht, ?_⟩
  rintro _ ⟨⟩
  exact he rfl

theorem SparesAt.outcome_ne {s : S} (h : SparesAt P x s) :
    outcome (x s) ≠ .error .notEnoughMemory := by
  intro hout
  cases hrun : x s with
  | ok a t =>
    rw [hrun] at hout
    cases hout
  | error e t =>
    rw [hrun] at hout
    cases hout
    exact h.2 t hrun

/-- A sequence spares memory if its first action does, and what follows a success of it. -/
theorem SparesAt.bind {s : S} (hx : SparesAt P x s)
    (hf : ∀ a t, x s = .ok a t → P t → SparesAt P (f a) t) : SparesAt P (x >>= f) s := by
  obtain ⟨hkept, hmemory⟩ := hx
  unfold SparesAt
  rw [bind_apply]
  cases h : x s with
  | error e t =>
    rw [h] at hkept hmemory
    refine ⟨hkept, ?_⟩
    rintro _ ⟨⟩
    exact hmemory t rfl
  | ok a t =>
    rw [h] at hkept
    exact hf a t h hkept

namespace Spares

theorem pure (a : α) : Spares P (Pure.pure a) := fun _ hs => .of_ok rfl hs

theorem throw {e : Error} (he : e ≠ .notEnoughMemory := by decide) :
    Spares P (MonadExcept.throw e : EStateM Error S α) := fun _ hs => .of_error rfl hs he

theorem known {answer : Except Error α} (h : answer ≠ .error .notEnoughMemory) :
    Spares P (known answer) := by
  cases answer with
  | ok a => exact pure a
  | error e => exact throw fun he => h (he ▸ rfl)

theorem failIf (c : Prop) [Decidable c] {e : Error} (he : e ≠ .notEnoughMemory := by decide) :
    Spares P (failIf c e) := by
  unfold CborCodec.failIf
  split
  · exact throw he
  · exact pure ()

theorem get : Spares P (MonadState.get : EStateM Error S S) := fun _ hs => .of_ok rfl hs

theorem bind (hx : Spares P x) (hf : ∀ a, Spares P (f a)) : Spares P (x >>= f) :=
  fun s hs => (hx s hs).bind fun a t _ => hf a t

theorem seq {y : EStateM Error S β} (hx : Spares P x) (hy : Spares P y) :
    Spares P (x >>= fun _ => y) :=
  hx.bind fun _ => hy

theorem ite {c : Prop} [Decidable c] {y : EStateM Error S α} (hx : c → Spares P x)
    (hy : ¬c → Spares P y) : Spares P (if c then x else y) := by
  split
  · exact hx ‹_›
  · exact hy ‹_›

end Spares

end Calculus

section Answers

/-! No answer that is had of bytes at hand is about memory. -/

theorem Head.ofIndefinite_ne (m : Major) : ofIndefinite m ≠ .error .notEnoughMemory := by
  unfold ofIndefinite
  split <;> simp

/-- Decoding a head takes no memory. -/
theorem Head.decode_ne (bs : Bytes) : decode bs ≠ .error .notEnoughMemory := by
  unfold decode
  split
  · simp
  · simp only
    repeat' split
    all_goals simp [ofIndefinite_ne]

theorem Lookahead.head_ne (ahead : Lookahead) : ahead.head ≠ .error .notEnoughMemory := by
  unfold head
  simp only
  repeat' split
  all_goals simp [Head.ofIndefinite_ne]

theorem Head.check_ne (h : Head) (mode : Mode) : h.check mode ≠ .error .notEnoughMemory := by
  unfold check
  repeat' split
  all_goals simp

theorem Value.ofSpecial_ne (h : Head) : ofSpecial h ≠ .error .notEnoughMemory := by
  unfold ofSpecial
  split <;> simp

theorem textOf_ne (bs : Bytes) : textOf bs ≠ .error .notEnoughMemory := by
  unfold textOf
  split <;> simp

theorem orFail_ne {α : Type} (a : Option α) {e : Error} (he : e ≠ .notEnoughMemory := by decide) :
    orFail a e ≠ .error .notEnoughMemory := by
  cases a with
  | none => exact fun h => he (Except.error.inj h)
  | some a => simp [orFail]

theorem IntType.ofHead_ne (t : IntType) (h : Head) : t.ofHead h ≠ .error .notEnoughMemory := by
  unfold ofHead Head.signed
  repeat' split
  all_goals simp

theorem boolOf_ne (h : Head) : boolOf h ≠ .error .notEnoughMemory := by
  unfold boolOf
  repeat' split
  all_goals simp

theorem Single.ofDouble_ne (d : Double) : ofDouble d ≠ .error .notEnoughMemory := by
  unfold ofDouble
  split
  · simp
  · exact orFail_ne _

end Answers

section Heads

variable {σ : Type} [Input σ] {P : σ → Prop}

/-- Moving along the input keeps the property, and takes no memory. -/
structure Kept (P : σ → Prop) : Prop where
  require : ∀ n s, P s → P (final (Cursor.require n s)) ∧
    ∀ t, Cursor.require n s ≠ .error .notEnoughMemory t
  discard : ∀ n s, P s → P (Cursor.discard n s)

theorem MemoryInput.require_ne (n : Nat) (s t : MemoryInput) :
    require n s ≠ .error .notEnoughMemory t := by
  unfold require
  split <;> simp

variable (hP : Kept P)

include hP

theorem Spares.need (n : Nat) : Spares P (Input.need n) := by
  intro s hs
  obtain ⟨hkept, hmemory⟩ := hP.require n s hs
  cases h : (Cursor.require n s : EStateM.Result Fault σ Unit) with
  | ok u t =>
    rw [h] at hkept
    exact .of_ok (adaptExcept_eq_ok.2 h) hkept
  | error e t =>
    rw [h] at hkept hmemory
    refine .of_error (e := Error.ofFault e) (t := t) ?_ hkept ?_
    · simp only [Input.need, EStateM.adaptExcept, h]
    · cases e with
      | notEnoughMemory => exact absurd rfl (hmemory t)
      | endOfStream | device => simp [Error.ofFault]

theorem Spares.skip (n : Nat) : Spares P (Input.skip n) :=
  fun s hs => .of_ok rfl (hP.discard n s hs)

theorem Spares.peekHead (mode : Mode) : Spares P (peekHead mode) := by
  have hexactly : Spares P peekHeadExactly :=
    .seq (.need hP 1) (.bind .get fun _ => .seq (.need hP _) (.bind .get fun _ =>
      .known (Head.decode_ne _)))
  have hany : Spares P peekAnyHead := by
    intro s hs
    unfold SparesAt peekAnyHead
    cases Lookahead.ofBytes? (window s).toList with
    | some ahead => exact Spares.known ahead.head_ne s hs
    | none => exact hexactly s hs
  exact hany.bind fun head => .seq (.known (head.check_ne mode)) (.pure head)

theorem Spares.readHead (mode : Mode) : Spares P (readHead mode) :=
  (peekHead hP mode).bind fun head => .seq (.skip hP _) (.pure head)

theorem Spares.atBreak : Spares P atBreak :=
  .seq (.need hP 1) (.bind .get fun _ => .pure _)

omit hP

theorem Spares.checkAvailable (major : Major) (count : Nat) :
    Spares P (checkAvailable major count) :=
  .bind .get fun _ => .failIf _

omit [Input σ] in
theorem Spares.checkItems (options : Options) (count : Nat) : Spares P (checkItems options count) :=
  .failIf _

end Heads

/-- Bytes in memory, with a note of how many each bulk read has asked for, the last one first. -/
structure Metered where
  input : MemoryInput
  asked : List Nat

namespace Metered

def ofBytes (bs : Bytes) : Metered := ⟨MemoryInput.ofBytes bs, []⟩

def unnoted {ε α : Type} (x : EStateM ε MemoryInput α) : EStateM ε Metered α := fun s =>
  match x s.input with
  | .ok a t => .ok a ⟨t, s.asked⟩
  | .error e t => .error e ⟨t, s.asked⟩

theorem final_unnoted {ε α : Type} (x : EStateM ε MemoryInput α) (s : Metered) :
    final (unnoted x s) = ⟨final (x s.input), s.asked⟩ := by
  unfold unnoted
  cases x s.input <;> rfl

theorem unnoted_eq_ok {ε α : Type} {x : EStateM ε MemoryInput α} {s t : Metered} {a : α} :
    unnoted x s = .ok a t ↔ x s.input = .ok a t.input ∧ s.asked = t.asked := by
  obtain ⟨t, asked⟩ := t
  unfold unnoted
  cases x s.input <;> simp [and_assoc]

instance : Cursor Metered where
  window s := window s.input
  available s := available s.input
  position s := position s.input
  stream s := stream s.input
  require n := unnoted (Cursor.require n)
  discard n s := ⟨Cursor.discard n s.input, s.asked⟩
  window_isPrefix s := Cursor.window_isPrefix s.input
  stream_require n s := by rw [final_unnoted, Cursor.stream_require]
  position_require n s := by rw [final_unnoted, Cursor.position_require]
  size_of_require n s t h := Cursor.size_of_require n _ _ (unnoted_eq_ok.1 h).1
  stream_discard n s := Cursor.stream_discard n s.input
  position_discard n s := Cursor.position_discard n s.input

instance : Input Metered where
  bulkRead n := fun s => unnoted (Input.bulkRead n) ⟨s.input, n :: s.asked⟩
  advances_bulkRead n s := by
    obtain ⟨bs, hadv, hout⟩ := Input.advances_bulkRead n s.input
    refine ⟨bs, ?_, fun out t h => hout out t.input (unnoted_eq_ok.1 h).1⟩
    rw [final_unnoted]
    exact hadv

/-- All that was asked for is no more than what was consumed of the bytes in all. -/
structure Paid (total : Nat) (s : Metered) : Prop where
  asked_le : s.asked.sum ≤ position s
  total_eq : position s + (stream s).length = total

variable {total : Nat} {s t : Metered}

theorem paid_ofBytes (bs : Bytes) : Paid bs.length (ofBytes bs) := ⟨Nat.le_refl 0, Nat.zero_add _⟩

/-- Moving on makes up for whatever is noted on the way. -/
theorem Paid.advance {bs : Bytes} (h : Paid total s) (hadv : Advances s bs t)
    (hasked : t.asked.sum ≤ s.asked.sum + bs.length) : Paid total t := by
  obtain ⟨hsum, htotal⟩ := h
  have hposition := hadv.2
  have hlength := hadv.length_eq
  constructor <;> omega

/-- Moving past bytes asks for none and pays for some. -/
theorem kept_paid (total : Nat) : Kept (Paid total) where
  require n s hs := by
    refine ⟨hs.advance (Cursor.advances_require n s) ?_, fun t h => ?_⟩
    · change (final (unnoted (Cursor.require n) s)).asked.sum ≤ _
      rw [final_unnoted]
      exact Nat.le_refl _
    · change unnoted (MemoryInput.require n) s = _ at h
      unfold unnoted at h
      cases hrun : MemoryInput.require n s.input with
      | ok u v =>
        rw [hrun] at h
        cases h
      | error e v =>
        rw [hrun] at h
        cases h
        exact MemoryInput.require_ne n s.input v hrun
  discard n s hs := hs.advance (Cursor.advances_discard n s) (Nat.le_add_right _ _)

/-- Bytes that are there can be read, and are noted. -/
theorem read_ok {n : Nat} (hn : n ≤ (stream s).length) :
    ∃ out t, Input.read n s = .ok out t ∧ t.asked = n :: s.asked := by
  obtain ⟨out, t, hread⟩ := Reliable.bulkRead_ok n s.input hn
  exact ⟨out, ⟨t, n :: s.asked⟩, adaptExcept_eq_ok.2 (unnoted_eq_ok.2 ⟨hread, rfl⟩), rfl⟩

end Metered

section Decoding

open Metered

variable {options : Options} {total : Nat} {s : Metered}

/-- A chunk that is there is reserved and read; what came before it was consumed, so that both
together are less than memory holds. -/
theorem sparesAt_readChunk (major : Major) (length : Nat) {before : Array UInt8}
    (htotal : total < allocationLimit) (hs : Paid total s) (hbefore : before.size ≤ position s) :
    SparesAt (Paid total) (readChunk options major length before) s := by
  have hcheck : Spares (Paid total) (checkChunk options length before.size) :=
    .seq (.checkAvailable _ _) (.failIf _)
  refine (hcheck s hs).bind ?_
  intro _ t ht hpaid
  obtain ⟨hlength, -, rfl⟩ := checkChunk_eq_ok.1 ht
  -- The chunk is part of what is left, and the string before it of what was consumed.
  have hthere : length ≤ (stream s).length := hlength.trans s.input.rest.size_eq.le
  have hwithin : ¬allocationLimit ≤ before.size + length := by
    have hall := hs.total_eq
    omega
  rw [appendChunk, failIf, if_neg hwithin, pure_bind]
  obtain ⟨out, u, hread, hasked⟩ := Metered.read_ok hthere
  obtain ⟨bs, hadv, rfl, hsize⟩ := Reads.read length s out u hread
  refine SparesAt.bind (.of_ok hread (hs.advance hadv ?_)) ?_
  · rw [hasked, List.sum_cons, hsize]
    omega
  · intro chunk v _ hv
    exact Spares.seq (.failIf _) (.pure _) v hv

theorem spares_readChunkHead (options : Options) (major : Major) :
    Spares (Paid total) (readChunkHead options major) :=
  (Spares.readHead (kept_paid total) _).bind fun _ =>
    .ite (fun _ => .pure _) fun _ => .seq (.failIf _) (.pure _)

/-- A string never holds more than was consumed, so there is memory for each of its chunks. -/
theorem sparesAt_readChunks (major : Major) {before : Array UInt8}
    (htotal : total < allocationLimit) (hs : Paid total s) (hbefore : before.size ≤ position s) :
    SparesAt (Paid total) (readChunks options major before) s := by
  induction hn : (stream s).length using Nat.strong_induction_on generalizing before s with
  | _ n ih =>
    rw [readChunks_eq]
    refine (spares_readChunkHead options major s hs).bind ?_
    intro chunk t ht hpaid
    cases chunk with
    | none => exact .of_ok rfl hpaid
    | some length =>
      obtain ⟨lead, hadv, -⟩ := Reads.readChunkHead options major s (some length) t ht
      have hposition := hadv.2
      refine (sparesAt_readChunk major length htotal hpaid (by omega)).bind ?_
      intro after u hu hpaid'
      -- The string has grown by the chunk, and the position by that and a head.
      obtain ⟨piece, hadv', happended, -⟩ :=
        Reads.readChunk options major length before t after u hu
      have hsize : after.size = before.size + piece.length := by
        rw [← Array.length_toList, happended, List.length_append, Array.length_toList]
      have hposition' := hadv'.2
      have hlt := (Consumes.readChunkHead options major).lt_of_ok ht
      have hle := (Consumes.readChunk options major length before).le_of_ok hu
      exact ih _ (by omega) hpaid' (by omega) rfl

variable (htotal : total < allocationLimit)

include htotal

/-- A payload is asked for only where the input holds it. -/
theorem spares_readPayload (options : Options) (head : Head) :
    Spares (Paid total) (readPayload options head) := by
  have hpieces : Spares (Paid total) (readPieces options head) :=
    .ite (fun _ _ hs => sparesAt_readChunks _ htotal hs (Nat.zero_le _))
      fun _ _ hs => sparesAt_readChunk _ _ htotal hs (Nat.zero_le _)
  exact hpieces.bind fun _ => .pure _

theorem spares_readString (options : Options) (major : Major) :
    Spares (Paid total) (readString options major) :=
  (Spares.readHead (kept_paid total) _).bind fun head =>
    .seq (.failIf _) (spares_readPayload htotal options head)

omit htotal

section Containers

variable {β : Type}

theorem spares_repeatItem {item : β → EStateM Error Metered β}
    (h : ∀ b, Spares (Paid total) (item b)) (n : Nat) (b : β) :
    Spares (Paid total) (repeatItem item n b) := by
  induction n generalizing b with
  | zero => exact .pure b
  | succ n ih => exact (h b).bind ih

theorem spares_untilBreak {item : β → EStateM Error Metered β}
    (h : ∀ b, Spares (Paid total) (item b)) (allowance count : Nat) (b : β) :
    Spares (Paid total) (untilBreak item allowance count b) := by
  have hpass (result : Nat × β) :
      Spares (Paid total) (Input.skip 1 >>= fun _ => pure result : EStateM Error Metered _) :=
    .seq (.skip (kept_paid total) 1) (.pure _)
  induction allowance generalizing count b with
  | zero =>
    exact (Spares.atBreak (kept_paid total)).bind fun _ =>
      .ite (fun _ => hpass _) fun _ => .throw
  | succ allowance ih =>
    exact (Spares.atBreak (kept_paid total)).bind fun _ =>
      .ite (fun _ => hpass _) fun _ => (h b).bind fun _ => ih _ _

theorem spares_elements {ε : Type} {definite indefinite : EStateM Error Metered ε}
    (hd : Spares (Paid total) definite) (hi : Spares (Paid total) indefinite) (options : Options)
    (major : Major) (head : Head) :
    Spares (Paid total) (elements options major head definite indefinite) :=
  .ite (fun _ => spares_untilBreak (fun _ => hi.bind fun _ => .pure _) _ _ _)
    fun _ => .seq (.checkAvailable _ _) (.seq (.checkItems _ _)
      ((spares_repeatItem (fun _ => hd.bind fun _ => .pure _) _ _).bind fun _ => .pure _))

end Containers

include htotal

/-- The contents of an item are paid for if the items inside are. -/
theorem spares_decodeContents (options : Options) {inner : Option (EStateM Error Metered Value)}
    (h : ∀ item, inner = some item → Spares (Paid total) item) (head : Head) :
    Spares (Paid total) (Value.decodeContents options inner head) := by
  cases hm : head.major <;> simp only [Value.decodeContents, hm]
  case unsigned | negative => exact .pure _
  case bytes => exact (spares_readPayload htotal _ _).bind fun _ => .pure _
  case text =>
    exact (spares_readPayload htotal _ _).bind fun _ =>
      .bind (.known (textOf_ne _)) fun _ => .pure _
  case special => exact .known (Value.ofSpecial_ne _)
  all_goals
    cases inner with
    | none => exact fun _ hs => .of_error (e := .maxNestingDepth) rfl hs (by decide)
    | some item => ?_
    have hitem := h item rfl
    simp only [Value.descend, pure_bind]
  case array =>
    rw [arrayItems_eq]
    exact (spares_elements hitem hitem _ _ _).bind fun _ => .pure _
  case map =>
    rw [mapItems_eq]
    have hpair : Spares (Paid total) (pairOf item) :=
      hitem.bind fun _ => hitem.bind fun _ => .pure _
    have howed : Spares (Paid total) (owedPairOf item) :=
      hitem.bind fun _ => (Spares.atBreak (kept_paid total)).bind fun _ =>
        .seq (.failIf _) (hitem.bind fun _ => .pure _)
    exact (spares_elements hpair howed _ _ _).bind fun _ => .pure _
  case tag => exact hitem.bind fun _ => .pure _

/-- By induction on the depth, a value asks for no more bytes than it consumes. -/
theorem spares_decodeWithin (options : Options) (depth : Nat) :
    Spares (Paid total) (Value.decodeWithin options depth) := by
  induction depth with
  | zero =>
    refine (Spares.readHead (kept_paid total) _).bind fun head =>
      spares_decodeContents htotal options ?_ head
    rintro item ⟨⟩
  | succ depth ih =>
    refine (Spares.readHead (kept_paid total) _).bind fun head =>
      spares_decodeContents htotal options ?_ head
    rintro item ⟨⟩
    exact ih

/-- Whatever type is decoded, no more is asked for than is consumed, and never too much. -/
theorem Target.spares_decode (options : Options) (t : Target) :
    Spares (Paid total) (t.decode options) := by
  have hhead := Spares.readHead (kept_paid total) options.mode
  have hdouble : Spares (Paid total) (decodeDouble options) :=
    hhead.bind fun head => Spares.known (orFail_ne head.float?)
  induction t with
  | integer t =>
    exact hhead.bind fun head => (Spares.known (t.ofHead_ne head)).bind fun n =>
      Spares.known (orFail_ne (t.ofInt? n))
  | bool => exact hhead.bind fun head => .known (boolOf_ne head)
  | single => exact hdouble.bind fun d => .known (Single.ofDouble_ne d)
  | double => exact hdouble
  | text => exact (spares_readString htotal _ _).bind fun _ => .known (textOf_ne _)
  | bytes => exact spares_readString htotal _ _
  | value => exact spares_decodeWithin htotal _ _
  | option t ih =>
    exact (Spares.peekHead (kept_paid total) _).bind fun _ =>
      .ite (fun _ => .seq (.skip (kept_paid total) _) (.pure _))
        fun _ => ih.bind fun _ => .pure _

end Decoding

namespace Metered

instance : Supplying Metered where
  Ready _ := True
  answering {n s} _ _ := by
    refine ⟨s, trivial, ?_⟩
    change unnoted (MemoryInput.require n) s =
      if n ≤ s.input.rest.toList.length then .ok () s else .error .endOfStream s
    unfold unnoted MemoryInput.require
    rw [s.input.rest.size_eq]
    by_cases hn : n ≤ s.input.rest.toList.length
    · rw [if_pos hn, if_pos hn]
    · rw [if_neg hn, if_neg hn]
  bulkRead_ok {n s} _ hn := by
    obtain ⟨out, t, hread⟩ := Reliable.bulkRead_ok n s.input hn
    exact ⟨out, ⟨t, n :: s.asked⟩, trivial, unnoted_eq_ok.2 ⟨hread, rfl⟩⟩
  ready_discard _ _ _ := trivial
  length_le_available {s} _ := Reliable.length_le_available s.input

def standing : Standing Metered where
  ahead := 0
  more := []
  late := False
  available_eq s r h := by
    refine Or.inr ?_
    calc available s = (stream s).length := s.rest.size_eq
      _ = (stream r).length := by rw [h.stream_eq, List.append_nil]
      _ = available r := r.input.rest.size_eq.symm

theorem not_excused_standing (e : Error) : ¬standing.Excused e := by
  rintro (⟨-, hlate⟩ | ⟨-, hmore⟩)
  · exact hlate
  · exact hmore rfl

/-- Metering changes nothing: what is decoded, or why nothing is, and where. -/
theorem decode_eq (options : Options) (t : Target) (data : Bytes) :
    outcome (t.decode options (ofBytes data)) =
        outcome (t.decode options (MemoryInput.ofBytes data)) ∧
      position (final (t.decode options (ofBytes data))) =
        position (final (t.decode options (MemoryInput.ofBytes data))) := by
  have hstart : Abreast 0 [] (MemoryInput.ofBytes data) (ofBytes data) :=
    ⟨trivial, trivial, (List.append_nil data).symm, rfl⟩
  have hbeside : Follows (.abreast standing) (t.decode options) (t.decode options) :=
    t.abreast_decode
  obtain ⟨hsame, hrel⟩ := (hbeside.at_rel _ _ hstart).ends trivial not_excused_standing
  exact ⟨hsame, hrel.position_eq.trans (Nat.zero_add _)⟩

end Metered

end CborCodec
