import CborCodec.Input.Buffered
import CborCodec.Input.Schedule
import CborCodec.Proofs.Reading
/-!
Inputs that give all of their stream, though not all at once. Through a buffer over a steady source,
as from memory, a few bytes are made resident exactly if the stream has them, whatever pieces the
source hands out; and the head that is seen depends on the stream alone.
-/

namespace CborCodec

namespace Source

variable {ρ : Type} [Source ρ]

/-- A source that never fails, and that ends only when all of its bytes are handed out. -/
def Steady (r : ρ) : Prop :=
  ∃ P : ρ → Prop, P r ∧ ∀ s n, P s → 0 < n →
    ∃ bs t, read n s = .ok bs t ∧ P t ∧ (bs = [] → pending s = [])

theorem Steady.read {r : ρ} {n : Nat} (h : Steady r) (hn : 0 < n) :
    ∃ bs t, Source.read n r = .ok bs t ∧ Steady t ∧ (bs = [] → pending r = []) := by
  obtain ⟨P, hr, hP⟩ := h
  obtain ⟨bs, t, hread, ht, hend⟩ := hP r n hr hn
  exact ⟨bs, t, hread, ⟨P, ht, hP⟩, hend⟩

end Source

namespace ScheduledSource

/-- Where no piece is empty and no failure is due, some bytes are always allowed. -/
theorem allowance_pos {s : ScheduledSource} {room : Nat} (hpieces : ∀ k ∈ s.pieces, 0 < k)
    (hroom : 0 < room) (hfailure : ∀ f, s.failure = some f → s.handed < f.1) :
    0 < s.allowance room := by
  have hpiece : 0 < if 0 < s.pieces.size then
      min room (s.pieces.getD (s.turn % s.pieces.size) 0) else room := by
    split
    · next hsize =>
      have hturn := Nat.mod_lt s.turn hsize
      have hpos := hpieces _ (Array.getElem_mem hturn)
      rw [Array.getD_eq_getD_getElem?, Array.getElem?_eq_getElem hturn, Option.getD_some]
      omega
    · exact hroom
  unfold allowance
  simp only
  cases hf : s.failure with
  | none => exact hpiece
  | some f =>
    have hdue := hfailure f hf
    dsimp only
    omega

/-- What is given is nothing only if nothing is left. -/
theorem rest_eq_nil_of_give {s t : ScheduledSource} {room : Nat} (hallowance : 0 < s.allowance room)
    (h : s.give room = .ok [] t) : s.rest = [] := by
  injection h with hnil
  rcases List.take_eq_nil_iff.mp hnil with hzero | hrest
  · omega
  · exact hrest

/-- A schedule without empty pieces is steady from where no failure is left. -/
theorem steady_of_failure_eq_none {r : ScheduledSource} (hnone : r.failure = none)
    (h : ∀ k ∈ r.pieces, 0 < k) : Source.Steady r := by
  refine ⟨fun s => s.failure = none ∧ s.pieces = r.pieces, ⟨hnone, rfl⟩, ?_⟩
  intro s n hs hn
  obtain ⟨hfailure, hpieces⟩ := hs
  have hallowance : 0 < s.allowance n := by
    apply allowance_pos (hpieces ▸ h) hn
    intro f hf
    rw [hfailure] at hf
    cases hf
  have hread : ScheduledSource.read n s = s.give n := by simp only [read, hfailure]
  refine ⟨_, _, hread, ⟨hfailure, hpieces⟩, fun hnil => ?_⟩
  -- Bytes were allowed, so a read that brings none has found the end.
  exact rest_eq_nil_of_give hallowance (congrArg (fun bs => EStateM.Result.ok bs _) hnil)

/-- A schedule without failures and without empty pieces is steady. -/
theorem steady (data : Bytes) {pieces : Array Nat} (h : ∀ k ∈ pieces, 0 < k) :
    Source.Steady (ofBytes data pieces none) :=
  steady_of_failure_eq_none rfl h

end ScheduledSource

namespace BufferedInput

variable {ρ : Type} [Source ρ] {s : BufferedInput ρ} {n : Nat}

omit [Source ρ] in
/-- What is given into the free room stands within the buffer. -/
theorem within_append {bs : Bytes} (h : s.start + s.resident.size ≤ s.capacity)
    (hlength : bs.length ≤ s.free) : s.start + (s.resident.append bs).size ≤ s.capacity := by
  unfold free at hlength
  rw [Window.size_append]
  omega

omit [Source ρ] in
/-- What moves past bytes stays within the buffer. -/
theorem within_advance (h : s.start + s.resident.size ≤ s.capacity) (n : Nat) :
    (s.advance n).start + (s.advance n).resident.size ≤ s.capacity := by
  have hsize : (s.resident.drop (min n s.resident.size)).size =
      s.resident.size - min n s.resident.size := Window.size_drop ..
  simp only [BufferedInput.advance, hsize]
  split <;> omega

structure Sound (s : BufferedInput ρ) : Prop where
  steady : Source.Steady s.source
  ended : s.ended = true → Source.pending s.source = []
  room : minimumRoom ≤ s.capacity
  allocated : s.capacity ≤ allocationLimit
  within : s.start + s.resident.size ≤ s.capacity

theorem sound_ofSource {source : ρ} {capacity : Nat} (h : Source.Steady source)
    (hcapacity : capacity ≤ allocationLimit) : (ofSource source capacity).Sound where
  steady := h
  ended := by simp [ofSource]
  room := Nat.le_max_right _ _
  allocated := Nat.max_le.mpr ⟨hcapacity, by decide⟩
  within := Nat.zero_le _

/-- A request that the buffer is made for finds room behind the resident bytes, or makes it by
moving them to the front. -/
theorem Sound.makeRoom_ok (h : s.Sound) (hn : n ≤ minimumRoom) (hlack : s.resident.size < n) :
    ∃ start, makeRoom n s = .ok () { s with start := start } ∧
      start + s.resident.size < s.capacity := by
  have hroom := h.room
  have hallocated := h.allocated
  have hwithin := h.within
  have hword : (s.start + n) % UInt64.size = s.start + n := by
    refine Nat.mod_eq_of_lt ?_
    unfold minimumRoom at hn
    unfold allocationLimit at hallocated
    unfold UInt64.size
    omega
  unfold makeRoom
  rw [hword]
  by_cases hfits : s.start + n ≤ s.capacity
  · exact ⟨s.start, if_pos hfits, by omega⟩
  · rw [if_neg hfits, if_pos (hn.trans hroom)]
    exact ⟨0, rfl, by omega⟩

/-- One read into free room brings bytes, or the end, which is then true. -/
theorem Sound.fetch_ok (h : s.Sound) (hfree : 0 < s.free) :
    ∃ t, fetch s = .ok () t ∧ t.Sound := by
  obtain ⟨bs, source, hread, hsteady, hend⟩ := h.steady.read hfree
  have hpending := Source.pending_of_read _ _ _ _ hread
  have hlength := Source.length_of_read _ _ _ _ hread
  cases bs with
  | nil =>
    have hfetch : fetch s = .ok () { s with source := source, ended := true } := by
      simp only [fetch, hread]
    have hgone : Source.pending source = [] := hpending.symm.trans (hend rfl)
    exact ⟨_, hfetch, { h with steady := hsteady, ended := fun _ => hgone }⟩
  | cons b bs =>
    have hfetch : fetch s =
        .ok () { s with source := source, resident := s.resident.append (b :: bs) } := by
      simp only [fetch, hread]
    refine ⟨_, hfetch, { h with steady := hsteady, ended := fun he => ?_, within := ?_ }⟩
    · rw [h.ended he] at hpending
      cases hpending
    · exact within_append h.within hlength

/-- A refill of a sound buffer succeeds. -/
theorem Sound.fill_ok (h : s.Sound) (hn : n ≤ minimumRoom) (hlack : s.resident.size < n) :
    ∃ t, fill n s = .ok () t ∧ t.Sound := by
  obtain ⟨start, hmake, hfree⟩ := h.makeRoom_ok hn hlack
  have hmoved : ({ s with start := start } : BufferedInput ρ).Sound := { h with within := hfree.le }
  rw [fill_eq, hmake]
  exact hmoved.fetch_ok (Nat.sub_pos_of_lt hfree)

theorem size_resident_le (s : BufferedInput ρ) : s.resident.size ≤ (rest s).length :=
  Cursor.size_le_length s

/-- Refilling brings the bytes that are asked for if the stream has them, and else finds its end. -/
theorem Sound.require_ends (h : s.Sound) (hn : n ≤ minimumRoom) :
    ∃ t, t.Sound ∧
      require n s = if n ≤ (rest s).length then .ok () t else .error .endOfStream t := by
  fun_induction require n s with
  | case1 s hsize => exact ⟨s, h, (if_pos (hsize.trans (size_resident_le s))).symm⟩
  | case2 s hsize hended =>
    have hall : (rest s).length = s.resident.size := by
      rw [rest, h.ended hended, List.append_nil, s.resident.size_eq]
    exact ⟨s, h, (if_neg (hall ▸ hsize)).symm⟩
  | case3 s hsize _ e t hfill =>
    obtain ⟨u, hu, -⟩ := h.fill_ok hn (Nat.lt_of_not_le hsize)
    rw [hu] at hfill
    cases hfill
  | case4 s hsize _ t hfill ih =>
    obtain ⟨u, hu, hsound⟩ := h.fill_ok hn (Nat.lt_of_not_le hsize)
    rw [hu] at hfill
    cases hfill
    have hrest := rest_fill n s
    rw [hu, final_ok] at hrest
    rw [← hrest]
    exact ih hsound

theorem Sound.advance (h : s.Sound) (n : Nat) : (s.advance n).Sound :=
  { h with within := within_advance h.within n }

/-- What the stream has can be read, a resident window at a time. -/
theorem Sound.gather_ok (h : s.Sound) (hn : n ≤ (rest s).length) (acc : Array UInt8) :
    ∃ out t, t.Sound ∧ Cursor.gather n acc s = .ok out t := by
  fun_induction Cursor.gather n acc s with
  | case1 acc s => exact ⟨_, s, h, rfl⟩
  | case2 n acc s hpos e t hrequire =>
    obtain ⟨u, -, hu⟩ := h.require_ends (n := 1) (by decide)
    rw [if_pos (by omega)] at hu
    cases hu.symm.trans hrequire
  | case3 n acc s hpos t hrequire k ih =>
    obtain ⟨u, hsound, hu⟩ := h.require_ends (n := 1) (by decide)
    rw [if_pos (by omega)] at hu
    cases hu.symm.trans hrequire
    have hrest := rest_require 1 s
    rw [hu, final_ok] at hrest
    rw [← hrest] at hn
    have hpassed := (Cursor.advances_discard k t).length_eq
    have htaken : ((window t).toList.take k).length ≤ k := List.length_take_le ..
    refine ih (hsound.advance k) ?_
    change n - k ≤ (stream (Cursor.discard k t)).length
    change (rest t).length = _ at hpassed
    omega

end BufferedInput

/-- States that answer for all of their stream: as many bytes as a head can have are made resident
exactly if the stream has them, and the state is then again of this kind. -/
def Answering {σ : Type} [Cursor σ] (P : σ → Prop) : Prop :=
  ∀ {n s}, P s → n ≤ minimumRoom → ∃ t, P t ∧
    Cursor.require n s = if n ≤ (stream s).length then .ok () t else .error .endOfStream t

theorem BufferedInput.answering_sound {ρ : Type} [Source ρ] : Answering (Sound (ρ := ρ)) :=
  fun h hn => h.require_ends hn

/-- Inputs of which some states, once reached, are never left, and answer for all of the stream:
few bytes are made resident exactly if the stream has them, many are read if it has them, and the
bound on what is left is one. -/
class Supplying (σ : Type) [Input σ] where
  Ready : σ → Prop
  answering : Answering Ready
  bulkRead_ok : ∀ {n} {s : σ}, Ready s → n ≤ (stream s).length →
    ∃ out t, Ready t ∧ Input.bulkRead n s = .ok out t
  ready_discard : ∀ n {s : σ}, Ready s → Ready (Cursor.discard n s)
  length_le_available : ∀ {s : σ}, Ready s → (stream s).length ≤ available s

instance : Supplying MemoryInput where
  Ready _ := True
  answering {n s} _ _ := by
    refine ⟨s, trivial, ?_⟩
    change (if n ≤ s.rest.size then _ else _) = if n ≤ s.rest.toList.length then _ else _
    rw [s.rest.size_eq]
  bulkRead_ok _ hn := by
    obtain ⟨out, t, h⟩ := Reliable.bulkRead_ok _ _ hn
    exact ⟨out, t, trivial, h⟩
  ready_discard _ _ _ := trivial
  length_le_available {s} _ := Reliable.length_le_available s

/-- A ready buffer is sound, and each byte of its stream has an address. -/
instance {ρ : Type} [Source ρ] : Supplying (BufferedInput ρ) where
  Ready s := s.Sound ∧ (stream s).length ≤ unknownLength
  answering {n s} h hn := by
    obtain ⟨t, ht, hrequire⟩ := h.1.require_ends hn
    have hstill := (Cursor.advances_require n s).length_le
    refine ⟨t, ⟨ht, ?_⟩, hrequire⟩
    change (stream (final (BufferedInput.require n s))).length ≤ _ at hstill
    rw [hrequire] at hstill
    split at hstill <;> exact hstill.trans h.2
  bulkRead_ok {n s} h hn := by
    obtain ⟨out, t, ht, hread⟩ := h.1.gather_ok hn #[]
    obtain ⟨bs, hadv, -⟩ := Input.advances_bulkRead n s
    have hbulk : Input.bulkRead n s = .ok out t := hread
    rw [hbulk] at hadv
    exact ⟨out, t, ⟨ht, hadv.length_le.trans h.2⟩, hbulk⟩
  ready_discard n s h := ⟨h.1.advance n, (Cursor.advances_discard n s).length_le.trans h.2⟩
  length_le_available {s} h := by
    change (BufferedInput.rest s).length ≤ if s.ended then s.resident.size else unknownLength
    split
    · next hended =>
      rw [BufferedInput.rest, h.1.ended hended, List.append_nil, s.resident.size_eq]
    · exact h.2

section Heads

open Head

theorem Head.announcedLength_le (b : UInt8) : announcedLength b ≤ 9 := by
  unfold announcedLength
  simp only
  split
  · next h =>
    obtain ⟨w, hw, -⟩ := ArgumentWidth.exists_announced h.1 h.2
    rw [← hw]
    cases w <;> decide
  · decide

theorem Head.announcedLength_pos (b : UInt8) : 0 < announcedLength b := by
  unfold announcedLength
  simp only
  split <;> omega

/-- What a head is does not depend on bytes behind those that its first byte announces. -/
theorem Head.decode_take {bs : Bytes} {n : Nat} (h : announcedLength (bs.headD 0) ≤ n) :
    decode (bs.take n) = decode bs := by
  cases bs with
  | nil => rw [List.take_nil]
  | cons b rest =>
    rw [List.headD_cons] at h
    have hpos := announcedLength_pos b
    obtain ⟨m, rfl⟩ : ∃ m, n = m + 1 := ⟨n - 1, by omega⟩
    rw [List.take_succ_cons]
    unfold decode
    simp only
    by_cases hlt : b.toNat % 32 < 24
    · rw [if_pos hlt, if_pos hlt]
    · rw [if_neg hlt, if_neg hlt]
      by_cases hle : b.toNat % 32 ≤ 27
      · have hwidth : twoPow (b.toNat % 32 - 24) ≤ m := by
          unfold announcedLength at h
          simp only [if_pos (And.intro (Nat.le_of_not_lt hlt) hle)] at h
          omega
        rw [if_pos hle, if_pos hle, List.take_take, Nat.min_eq_left hwidth]
      · rw [if_neg hle, if_neg hle]

def headAt (bs : Bytes) : Except Error Head :=
  if announcedLength (bs.headD 0) ≤ bs.length then decode bs else .error .endOfStream

/-- A head is as long as its initial byte announces. -/
theorem encodedLength_headAt {bs : Bytes} {h : Head} (e : headAt bs = .ok h) :
    h.encodedLength = announcedLength (bs.headD 0) ∧ h.encodedLength ≤ bs.length := by
  unfold headAt at e
  split at e
  · next hall =>
    obtain ⟨lead, rest, rfl, hs⟩ := spelled_of_decode e
    rw [announcedLength_spelled hs, hs.length_eq] at *
    exact ⟨rfl, hall⟩
  · cases e

variable {σ : Type} [Input σ] {P : σ → Prop} {s : σ}

/-- Few bytes are made resident just if the stream has them. -/
theorem need_ends {n : Nat} (hP : Answering P) (h : P s) (hn : n ≤ minimumRoom) :
    ∃ t, P t ∧ Advances s [] t ∧ (n ≤ (stream s).length → n ≤ (window t).size) ∧
      Input.need n s = if n ≤ (stream s).length then .ok () t else .error .endOfStream t := by
  obtain ⟨t, ht, hrequire⟩ := hP h hn
  have hneed : Input.need n s =
      if n ≤ (stream s).length then .ok () t else .error .endOfStream t := by
    simp only [Input.need, EStateM.adaptExcept, hrequire]
    by_cases hle : n ≤ (stream s).length
    · simp only [if_pos hle]
    · simp only [if_neg hle]
      rfl
  have hstill := Cursor.advances_require n s
  rw [hrequire] at hstill
  refine ⟨t, ht, ?_, fun hle => size_of_need (hneed.trans (if_pos hle)), hneed⟩
  split at hstill <;> exact hstill

theorem decode_window {n : Nat} (hn : announcedLength ((stream s).headD 0) ≤ n)
    (hsize : n ≤ (window s).size) : decode ((window s).toList.take n) = decode (stream s) := by
  rw [Cursor.take_window, Nat.min_eq_left hsize, decode_take hn]

/-- From such states the action consumes nothing and answers by the stream alone, and as many bytes
as its answer is about are resident then. -/
def Sees {α : Type} (P : σ → Prop) (x : EStateM Error σ α) (f : Bytes → Except Error α)
    (about : α → Nat) : Prop :=
  ∀ s, P s → ∃ t, P t ∧ Advances s [] t ∧
    x s = known (f (stream s)) t ∧ ∀ a, f (stream s) = .ok a → about a ≤ (window t).size

theorem Sees.peekHeadExactly (hP : Answering P) :
    Sees P peekHeadExactly headAt encodedLength := by
  intro s h
  have hle := announcedLength_le ((stream s).headD 0)
  have hpos := announcedLength_pos ((stream s).headD 0)
  obtain ⟨t, ht, hstill, hsize, hneed⟩ := need_ends (n := 1) hP h (by decide)
  by_cases hone : 1 ≤ (stream s).length
  swap
  · rw [if_neg hone] at hneed
    refine ⟨t, ht, hstill, ?_, fun head hhead => ?_⟩
    · rw [CborCodec.peekHeadExactly, bind_apply, hneed, headAt, if_neg (by omega)]
      rfl
    · rw [headAt, if_neg (by omega)] at hhead
      cases hhead
  rw [if_pos hone] at hneed
  have hinitial : (window t).toList.headD 0 = (stream s).headD 0 := by
    rw [headD_window (hsize hone), hstill.of_nil]
  obtain ⟨u, hu, hstill', hsize', hneed'⟩ :=
    need_ends (n := announcedLength ((stream s).headD 0)) hP ht (hle.trans (by decide))
  rw [hstill.of_nil] at hsize' hneed'
  refine ⟨u, hu, hstill.trans hstill', ?_, ?_⟩
  · rw [CborCodec.peekHeadExactly, bind_apply, hneed]
    simp only [bind_apply, get_apply, hinitial, hneed', headAt]
    by_cases hall : announcedLength ((stream s).headD 0) ≤ (stream s).length
    · have hstream : stream u = stream s := (hstill.trans hstill').of_nil
      simp only [if_pos hall]
      rw [decode_window (by rw [hstream]) (hsize' hall), hstream]
    · simp only [if_neg hall]
      rfl
  · intro head hhead
    obtain ⟨hlength, hall⟩ := encodedLength_headAt hhead
    rw [hlength] at hall ⊢
    exact hsize' hall

/-- Whether it is taken from a lookahead or byte by byte, the head is that of the stream. -/
theorem Sees.peekAnyHead (hP : Answering P) : Sees P peekAnyHead headAt encodedLength := by
  intro s h
  unfold CborCodec.peekAnyHead
  split
  · next ahead hahead =>
    have hle := announcedLength_le ((stream s).headD 0)
    have hnine := length_of_lookahead hahead
    rw [← (window s).size_eq] at hnine
    have hlength := Cursor.size_le_length s
    refine ⟨s, h, Advances.rfl, ?_, fun head hhead => ?_⟩
    · have hwindow := decode_window (s := s) (hle.trans hnine) (Nat.le_refl _)
      rw [(window s).size_eq, List.take_length] at hwindow
      rw [head_ofBytes? hahead, hwindow, headAt, if_pos (by omega)]
    · rw [(encodedLength_headAt hhead).1]
      omega
  · exact Sees.peekHeadExactly hP s h

def headIn (mode : Mode) (bs : Bytes) : Except Error Head :=
  match headAt bs with
  | .error e => .error e
  | .ok head =>
    match head.check mode with
    | .error e => .error e
    | .ok () => .ok head

/-- Decoded from nine bytes at once or from no more than it has, the same head is seen. -/
theorem Sees.peekHead (hP : Answering P) (mode : Mode) :
    Sees P (peekHead mode) (headIn mode) encodedLength := by
  intro s h
  obtain ⟨t, ht, hstill, hpeek, hsize⟩ := Sees.peekAnyHead hP s h
  refine ⟨t, ht, hstill, ?_⟩
  unfold headIn
  rw [CborCodec.peekHead, bind_apply, hpeek]
  cases hhead : headAt (stream s) with
  | error e => exact ⟨rfl, fun _ e => by cases e⟩
  | ok head =>
    simp only [known, pure_apply, bind_apply]
    cases hcheck : head.check mode with
    | error e => exact ⟨rfl, fun _ e => by cases e⟩
    | ok =>
      refine ⟨rfl, ?_⟩
      rintro _ ⟨⟩
      exact hsize head hhead

def breakAt : Bytes → Except Error Bool
  | [] => .error .endOfStream
  | b :: _ => .ok (b == breakByte)

theorem Sees.atBreak (hP : Answering P) : Sees P atBreak breakAt fun _ => 1 := by
  intro s h
  obtain ⟨t, ht, hstill, hsize, hneed⟩ := need_ends (n := 1) hP h (by decide)
  refine ⟨t, ht, hstill, ?_⟩
  cases hs : stream s with
  | nil =>
    rw [hs, if_neg (by simp)] at hneed
    refine ⟨?_, fun _ e => by cases e⟩
    rw [CborCodec.atBreak, bind_apply, hneed]
    rfl
  | cons b rest =>
    rw [hs] at hsize hneed
    rw [if_pos (by simp)] at hneed
    have hbreak : CborCodec.atBreak s = .ok ((window t).toList.head? == some breakByte) t := by
      rw [CborCodec.atBreak, bind_apply, hneed]
      rfl
    obtain ⟨-, -, hb⟩ := atBreak_eq_ok hbreak
    rw [hb, hstill.of_nil, hs] at hbreak
    exact ⟨hbreak, fun _ _ => hsize (by simp)⟩

end Heads

end CborCodec
