import CborCodec.Proofs.Following
/-!
Two inputs abreast: the second stands somewhere in a stream of its own, and what lies before it is
the stream of the first, perhaps with more behind. What is seen of the first stream is seen of the
second, unless the end is met; so skipping and decoding go on abreast, until the first input runs
out or one of them knows earlier than the other that bytes are missing.
-/

namespace CborCodec

section Abreast

variable {σ σ' α : Type} [Input σ] [Supplying σ] [Input σ'] [Supplying σ']

/-- Two inputs that answer for all of their streams. The second has `ahead` bytes more behind it,
and its stream is that of the first with `more` at its end. -/
structure Abreast (ahead : Nat) (more : Bytes) (s : σ) (r : σ') : Prop where
  ready : Supplying.Ready s
  ready' : Supplying.Ready r
  stream_eq : stream r = stream s ++ more
  position_eq : position r = ahead + position s

variable {ahead : Nat} {more : Bytes}

namespace Abreast

variable {s t : σ} {r u : σ'} {bs : Bytes} {n : Nat}

/-- Inputs stay abreast when both move past the same bytes. -/
theorem advance (h : Abreast ahead more s r) (hs : Advances s bs t) (hr : Advances r bs u)
    (ht : Supplying.Ready t) (hu : Supplying.Ready u) : Abreast ahead more t u where
  ready := ht
  ready' := hu
  stream_eq := by
    have hstream : bs ++ stream u = bs ++ (stream t ++ more) := by
      rw [← hr.1, h.stream_eq, hs.1, List.append_assoc]
    exact List.append_cancel_left hstream
  position_eq := by rw [hs.2, hr.2, h.position_eq, Nat.add_assoc]

theorem take_eq (h : Abreast ahead more s r) (hn : n ≤ (stream s).length) :
    (stream r).take n = (stream s).take n := by
  rw [h.stream_eq, List.take_append_of_le_length hn]

theorem length_le (h : Abreast ahead more s r) : (stream s).length ≤ (stream r).length := by
  rw [h.stream_eq, List.length_append]
  exact Nat.le_add_right _ _

theorem discard (h : Abreast ahead more s r) (hs : n ≤ (window s).size)
    (hr : n ≤ (window r).size) :
    Abreast ahead more (Cursor.discard n s) (Cursor.discard n r) := by
  have hadv := Cursor.advances_discard n s
  have hadv' := Cursor.advances_discard n r
  rw [Cursor.take_window, Nat.min_eq_left hs] at hadv
  rw [Cursor.take_window, Nat.min_eq_left hr,
    h.take_eq (hs.trans (Cursor.size_le_length s))] at hadv'
  exact h.advance hadv hadv' (Supplying.ready_discard n h.ready)
    (Supplying.ready_discard n h.ready')

end Abreast

/-- An answer that is had of a stream, and a failure other than that it ends, does not depend on
what comes behind the stream. -/
def Stable (f : Bytes → Except Error α) : Prop :=
  ∀ bs more, f bs = .error .endOfStream ∨ f (bs ++ more) = f bs

/-- Bytes behind a head do not change it. -/
theorem Stable.headAt : Stable headAt := by
  intro bs more
  unfold CborCodec.headAt
  by_cases hall : Head.announcedLength (bs.headD 0) ≤ bs.length
  · have hpos := Head.announcedLength_pos (bs.headD 0)
    have hhead : (bs ++ more).headD 0 = bs.headD 0 := by
      cases bs with
      | nil =>
        rw [List.length_nil] at hall
        omega
      | cons b bs => rfl
    have hannounced : Head.announcedLength ((bs ++ more).headD 0) ≤ bs.length := by rwa [hhead]
    have hdecode := Head.decode_take hannounced
    rw [List.take_left] at hdecode
    rw [hhead, if_pos hall, List.length_append, if_pos (hall.trans (Nat.le_add_right _ _)), hdecode]
    exact Or.inr rfl
  · exact Or.inl (if_neg hall)

theorem Stable.headIn (mode : Mode) : Stable (headIn mode) := by
  intro bs more
  unfold CborCodec.headIn
  rcases Stable.headAt bs more with hend | hsame
  · rw [hend]
    exact Or.inl rfl
  · rw [hsame]
    exact Or.inr rfl

theorem Stable.breakAt : Stable breakAt := by
  intro bs more
  cases bs with
  | nil => exact Or.inl rfl
  | cons b bs => exact Or.inr rfl

/-- What is seen of the first stream is seen of the second, and can be moved past on both sides; or
else the first stream has ended, and the second one goes on. -/
theorem Sees.alike {x : EStateM Error σ α} {y : EStateM Error σ' α} {f : Bytes → Except Error α}
    {about : α → Nat} (hx : Sees Supplying.Ready x f about) (hy : Sees Supplying.Ready y f about)
    (hf : Stable f) {s : σ} {r : σ'} (h : Abreast ahead more s r) :
    (∃ a t u, x s = .ok a t ∧ y r = .ok a u ∧ Abreast ahead more t u ∧
      about a ≤ (window t).size ∧ about a ≤ (window u).size) ∨
    (∃ e t u, x s = .error e t ∧ y r = .error e u ∧ Abreast ahead more t u) ∨
      more ≠ [] ∧ ∃ t, x s = .error .endOfStream t := by
  obtain ⟨t, ht, hadv, hs, hsize⟩ := hx s h.ready
  obtain ⟨u, hu, hadv', hr, hsize'⟩ := hy r h.ready'
  have hafter := h.advance hadv hadv' ht hu
  by_cases hsame : f (stream r) = f (stream s)
  · rw [hsame] at hr hsize'
    cases hanswer : f (stream s) with
    | ok a =>
      rw [hanswer] at hs hr
      exact Or.inl ⟨a, t, u, hs, hr, hafter, hsize a hanswer, hsize' a hanswer⟩
    | error e =>
      rw [hanswer] at hs hr
      exact Or.inr (Or.inl ⟨e, t, u, hs, hr, hafter⟩)
  · have hend := (hf (stream s) more).resolve_right (h.stream_eq ▸ hsame)
    rw [hend] at hs
    refine Or.inr (Or.inr ⟨?_, t, hs⟩)
    rintro rfl
    rw [h.stream_eq, List.append_nil] at hsame
    exact hsame rfl

end Abreast

section Ends

variable {σ τ : Type} [Input σ] [Supplying σ] {n : Nat} {i : σ}

/-- An input that answers for its stream reads from it, and then answers for the rest. -/
theorem read_ends (h : Supplying.Ready i) (hn : n ≤ (stream i).length) :
    ∃ t, Supplying.Ready t ∧ Advances i ((stream i).take n) t ∧
      Input.read n i = .ok ((stream i).take n) t := by
  obtain ⟨out, t, ht, hbulk⟩ := Supplying.bulkRead_ok h hn
  have hread : Input.read n i = .ok out t := adaptExcept_eq_ok.2 hbulk
  obtain ⟨bs, hadv, rfl, rfl⟩ := Reads.read n i out t hread
  have hout : (stream i).take out.length = out := by rw [hadv.1, List.take_left]
  rw [hout]
  exact ⟨t, ht, hadv, hread⟩

variable [Output τ] [Endless τ]

/-- A transfer goes on to where it should end, or to the end of the stream. -/
theorem transfer_ends (h : Supplying.Ready i) (o : τ) :
    ∃ t o', Supplying.Ready t ∧ Advances i ((stream i).take n) t ∧
      transfer n (i, o) = if n ≤ (stream i).length then .ok () (t, o')
        else .error .endOfStream (t, o') := by
  induction n using Nat.strong_induction_on generalizing i o with
  | _ n ih =>
    by_cases hn : n = 0
    · subst hn
      exact ⟨i, o, h, Advances.rfl, transfer_zero _⟩
    obtain ⟨t, ht, hstill, hsize, hneed⟩ := need_ends (n := 1) Supplying.answering h (by decide)
    by_cases hone : 1 ≤ (stream i).length
    swap
    · rw [if_neg hone] at hneed
      have hnil : stream i = [] := List.length_eq_zero_iff.mp (by omega)
      refine ⟨t, o, ht, by rw [hnil, List.take_nil]; exact hstill, ?_⟩
      rw [if_neg (by omega)]
      exact transfer_error hn hneed o
    rw [if_pos hone] at hneed
    have hwindow := hsize hone
    obtain ⟨o', ho⟩ := Endless.put_ok ((window t).toList.take (min (window t).size n)) o
    have hadv := Cursor.advances_discard (min (window t).size n) t
    rw [Cursor.take_window, Nat.min_eq_left (Nat.min_le_left _ _), hstill.of_nil] at hadv
    have hle := Cursor.size_le_length t
    rw [hstill.of_nil] at hle
    obtain ⟨u, o'', hu, hrest, hturn⟩ := ih (n - min (window t).size n) (by omega)
      (Supplying.ready_discard (min (window t).size n) ht) o'
    have hleft : stream (Cursor.discard (min (window t).size n) t) =
        (stream i).drop (min (window t).size n) := by
      rw [Cursor.stream_discard, hstill.of_nil, Nat.min_eq_left (Nat.min_le_left _ _)]
    rw [hleft] at hrest hturn
    refine ⟨u, o'', hu, ?_, ?_⟩
    · have hwhole := (hstill.trans hadv).trans hrest
      rwa [List.nil_append, ← List.take_add, Nat.add_sub_cancel' (Nat.min_le_right _ _)] at hwhole
    · rw [transfer_turn hn hneed ho, hturn, List.length_drop]
      by_cases hall : n ≤ (stream i).length
      · rw [if_pos hall, if_pos (by omega)]
      · rw [if_neg hall, if_neg (by omega)]

end Ends

section Standing

variable {σ : Type} [Input σ] [Supplying σ]

/-- How a second input stands to bytes in memory: what it has behind it and at its end, and whether
it may be later to know that a count is too great. -/
structure Standing (σ : Type) [Input σ] [Supplying σ] where
  ahead : Nat
  more : Bytes
  late : Prop
  available_eq : ∀ (s : MemoryInput) (r : σ), Abreast ahead more s r →
    late ∨ available s = available r

/-- Where the first input runs out and the second does not, nothing is said about the second, nor
where it is late and the first finds bytes missing. -/
def Standing.Excused (c : Standing σ) (e : Error) : Prop :=
  e = .missingData ∧ c.late ∨ e = .endOfStream ∧ c.more ≠ []

def Comparison.abreast (c : Standing σ) : Comparison MemoryInput σ where
  rel := Abreast c.ahead c.more
  excused := c.Excused
  live _ := True
  live_of_advances _ h := h

def Comparison.abreastWith (c : Standing σ) (τ : Type) :
    Comparison (MemoryInput × τ) (σ × τ) where
  rel s r := Abreast c.ahead c.more s.1 r.1
  excused := c.Excused
  live _ := True
  live_of_advances _ h := h

theorem MemoryInput.available_le {ahead : Nat} {more : Bytes} {s : MemoryInput} {r : σ}
    (h : Abreast ahead more s r) : available s ≤ available r := by
  calc available s = (stream s).length := s.rest.size_eq
    _ ≤ (stream r).length := h.length_le
    _ ≤ available r := Supplying.length_le_available h.ready'

theorem capacityFor_mono (major : Major) {m n : Nat} (h : m ≤ n) :
    capacityFor major m ≤ capacityFor major n := by
  unfold capacityFor
  split <;> omega

/-- A count that the first input has the bytes for passes on both sides. Where it is refused on one
side only, the second input is late. -/
theorem Abreast.capacityFor_cases {c : Standing σ} {s : MemoryInput} {r : σ}
    (h : Abreast c.ahead c.more s r) (major : Major) (count : Nat) :
    (¬capacityFor major (available s) < count ∧ ¬capacityFor major (available r) < count) ∨
      (capacityFor major (available s) < count ∧
        (c.late ∨ capacityFor major (available r) < count)) := by
  have hle := capacityFor_mono major (MemoryInput.available_le h)
  by_cases hc : capacityFor major (available s) < count
  · refine Or.inr ⟨hc, ?_⟩
    rcases c.available_eq s r h with hlate | hsame
    · exact Or.inl hlate
    · exact Or.inr (hsame ▸ hc)
  · exact Or.inl ⟨hc, by omega⟩

end Standing

section Walking

variable {σ τ : Type} [Input σ] [Supplying σ] [Output τ] [Endless τ] {c : Standing σ}

theorem abreast_takeHead (mode : Mode) :
    Follows (.abreastWith c τ) (takeHead mode) (takeHead mode) := by
  refine ⟨(Consumes.takeHead mode).mono (Nat.zero_le 1), ?_⟩
  rintro ⟨i, o⟩ ⟨j, o'⟩ hrel
  rcases (Sees.peekHead Supplying.answering mode).alike
      (Sees.peekHead Supplying.answering mode) (.headIn mode) hrel with
    ⟨head, t, u, ht, hu, hafter, hsize, hsize'⟩ | ⟨e, t, u, ht, hu, hafter⟩ | ⟨hmore, t, ht⟩
  · obtain ⟨p, hp⟩ := Endless.putHead_ok ((window t).toList.take head.encodedLength) o
    obtain ⟨q, hq⟩ := Endless.putHead_ok ((window u).toList.take head.encodedLength) o'
    exact .of_ok (takeHead_ok ht hp) fun _ => ⟨_, takeHead_ok hu hq, hafter.discard hsize hsize'⟩
  · exact .of_error (takeHead_error ht o) fun _ => ⟨_, takeHead_error hu o', hafter⟩
  · exact .excuse (takeHead_error ht o) (Or.inr ⟨rfl, hmore⟩)

theorem abreast_tryClose (frame : Frame) :
    Follows (.abreastWith c τ) (tryClose frame) (tryClose frame) := by
  refine ⟨.tryClose frame, ?_⟩
  rintro ⟨i, o⟩ ⟨j, o'⟩ hrel
  rcases (Sees.atBreak Supplying.answering).alike
      (Sees.atBreak Supplying.answering) .breakAt hrel with
    ⟨ended, t, u, ht, hu, hafter, hsize, hsize'⟩ | ⟨e, t, u, ht, hu, hafter⟩ | ⟨hmore, t, ht⟩
  · cases ended with
    | false => exact .of_ok (tryClose_false ht o) fun _ => ⟨_, tryClose_false hu o', hafter⟩
    | true =>
      by_cases howed : frame.owed = true
      · exact .of_error (tryClose_owed ht howed o)
          fun _ => ⟨_, tryClose_owed hu howed o', hafter⟩
      · obtain ⟨p, hp⟩ := Endless.putHead_ok [breakByte] o
        obtain ⟨q, hq⟩ := Endless.putHead_ok [breakByte] o'
        exact .of_ok (tryClose_ok ht howed hp)
          fun _ => ⟨_, tryClose_ok hu howed hq, hafter.discard hsize hsize'⟩
  · exact .of_error (tryClose_error ht o) fun _ => ⟨_, tryClose_error hu o', hafter⟩
  · exact .excuse (tryClose_error ht o) (Or.inr ⟨rfl, hmore⟩)

/-- However a payload is cut into windows, it is moved from both inputs alike. -/
theorem abreast_transfer (n : Nat) :
    Follows (.abreastWith c τ) (transfer n) (transfer n) := by
  refine ⟨(Consumes.transfer n).mono (Nat.zero_le n), ?_⟩
  rintro ⟨i, o⟩ ⟨j, o'⟩ hrel
  obtain ⟨t, p, ht, hadv, hs⟩ := transfer_ends (n := n) hrel.ready o
  obtain ⟨u, q, hu, hadv', hr⟩ := transfer_ends (n := n) hrel.ready' o'
  have hle : (stream i).length ≤ (stream j).length := hrel.length_le
  by_cases hall : n ≤ (stream i).length
  · have htake : (stream j).take n = (stream i).take n := hrel.take_eq hall
    rw [htake] at hadv'
    rw [if_pos hall] at hs
    rw [if_pos (hall.trans hle)] at hr
    exact .of_ok hs fun _ => ⟨_, hr, hrel.advance hadv hadv' ht hu⟩
  rw [if_neg hall] at hs
  by_cases hmore : c.more = []
  · have hstream : stream j = stream i := by
      have heq : stream j = stream i ++ c.more := hrel.stream_eq
      rw [heq, hmore, List.append_nil]
    rw [hstream] at hadv' hr
    rw [if_neg hall] at hr
    exact .of_error hs fun _ => ⟨_, hr, hrel.advance hadv hadv' ht hu⟩
  · exact .excuse hs (Or.inr ⟨rfl, hmore⟩)

/-- Every walk ends alike on inputs that are abreast. -/
theorem abreast_walk (options : Options) : WalkFollows (.abreastWith c τ) options where
  takeHead := abreast_takeHead _
  checkAvailable major count := by
    refine ⟨.checkAvailable _ _, ?_⟩
    rintro ⟨i, o⟩ ⟨j, o'⟩ hrel
    rcases Abreast.capacityFor_cases hrel major count with ⟨hs, hr⟩ | ⟨hs, hlate | hr⟩
    · exact .of_ok ((checkAvailable_apply ..).trans (if_neg hs)) fun _ =>
        ⟨_, (checkAvailable_apply ..).trans (if_neg hr), hrel⟩
    · exact .excuse ((checkAvailable_apply ..).trans (if_pos hs)) (Or.inl ⟨rfl, hlate⟩)
    · exact .of_error ((checkAvailable_apply ..).trans (if_pos hs)) fun _ =>
        ⟨_, (checkAvailable_apply ..).trans (if_pos hr), hrel⟩
  tryClose := abreast_tryClose
  transfer := abreast_transfer

end Walking

section Decoding

variable {σ : Type} [Input σ] [Supplying σ] {c : Standing σ}

theorem readHead_ok {σ : Type} [Input σ] {mode : Mode} {head : Head} {s t : σ}
    (h : peekHead mode s = .ok head t) :
    readHead mode s = .ok head (Cursor.discard head.encodedLength t) := by
  rw [readHead, bind_apply, h]
  rfl

theorem readHead_error {σ : Type} [Input σ] {mode : Mode} {e : Error} {s t : σ}
    (h : peekHead mode s = .error e t) : readHead mode s = .error e t := by
  rw [readHead, bind_apply, h]

theorem abreast_readHead (mode : Mode) :
    Follows (.abreast c) (readHead mode) (readHead mode) := by
  refine ⟨(Consumes.readHead mode).mono (Nat.zero_le 1), fun s r hrel => ?_⟩
  rcases (Sees.peekHead Supplying.answering mode).alike
      (Sees.peekHead Supplying.answering mode) (.headIn mode) hrel with
    ⟨head, t, u, ht, hu, hafter, hsize, hsize'⟩ | ⟨e, t, u, ht, hu, hafter⟩ | ⟨hmore, t, ht⟩
  · exact .of_ok (readHead_ok ht) fun _ => ⟨_, readHead_ok hu, hafter.discard hsize hsize'⟩
  · exact .of_error (readHead_error ht) fun _ => ⟨_, readHead_error hu, hafter⟩
  · exact .excuse (readHead_error ht) (Or.inr ⟨rfl, hmore⟩)

theorem abreast_checkAvailable (major : Major) (count : Nat) :
    Follows (.abreast c) (checkAvailable major count) (checkAvailable major count) := by
  refine ⟨.checkAvailable _ _, fun s r hrel => ?_⟩
  rcases Abreast.capacityFor_cases hrel major count with ⟨hs, hr⟩ | ⟨hs, hlate | hr⟩
  · exact .of_ok ((checkAvailable_apply ..).trans (if_neg hs)) fun _ =>
      ⟨_, (checkAvailable_apply ..).trans (if_neg hr), hrel⟩
  · exact .excuse ((checkAvailable_apply ..).trans (if_pos hs)) (Or.inl ⟨rfl, hlate⟩)
  · exact .of_error ((checkAvailable_apply ..).trans (if_pos hs)) fun _ =>
      ⟨_, (checkAvailable_apply ..).trans (if_pos hr), hrel⟩

theorem abreast_atBreak : Follows (.abreast c) atBreak atBreak := by
  refine ⟨.atBreak, fun s r hrel => ?_⟩
  rcases (Sees.atBreak Supplying.answering).alike
      (Sees.atBreak Supplying.answering) .breakAt hrel with
    ⟨ended, t, u, ht, hu, hafter, -⟩ | ⟨e, t, u, ht, hu, hafter⟩ | ⟨hmore, t, ht⟩
  · exact .of_ok ht fun _ => ⟨_, hu, hafter⟩
  · exact .of_error ht fun _ => ⟨_, hu, hafter⟩
  · exact .excuse ht (Or.inr ⟨rfl, hmore⟩)

theorem passBreak_of_atBreak {σ : Type} [Input σ] {ended : Bool} {s t : σ}
    (h : atBreak s = .ok ended t) :
    passBreak s = .ok ended (if ended then Cursor.discard 1 t else t) := by
  rw [passBreak, bind_apply, h]
  cases ended <;> rfl

theorem abreast_passBreak : Follows (.abreast c) passBreak passBreak := by
  refine ⟨.passBreak, fun s r hrel => ?_⟩
  rcases (Sees.atBreak Supplying.answering).alike
      (Sees.atBreak Supplying.answering) .breakAt hrel with
    ⟨ended, t, u, ht, hu, hafter, hsize, hsize'⟩ | ⟨e, t, u, ht, hu, hafter⟩ | ⟨hmore, t, ht⟩
  · refine .of_ok (passBreak_of_atBreak ht) fun _ => ⟨_, passBreak_of_atBreak hu, ?_⟩
    cases ended with
    | false => exact hafter
    | true => exact hafter.discard hsize hsize'
  · exact .of_error (by rw [passBreak, bind_apply, ht])
      fun _ => ⟨_, by rw [passBreak, bind_apply, hu], hafter⟩
  · exact .excuse (by rw [passBreak, bind_apply, ht]) (Or.inr ⟨rfl, hmore⟩)

/-- Whether an item is missing is told by the head that is seen. -/
theorem passMissing_of_peekHead {σ : Type} [Input σ] {mode : Mode} {head : Head} {s t : σ}
    (h : peekHead mode s = .ok head t) :
    passMissing mode s = .ok (decide head.isMissing)
      (if head.isMissing then Cursor.discard head.encodedLength t else t) := by
  rw [passMissing, bind_apply, h]
  by_cases hmissing : head.isMissing
  · simp only [if_pos hmissing, decide_eq_true hmissing]
    rfl
  · simp only [if_neg hmissing, decide_eq_false hmissing]
    rfl

theorem abreast_passMissing (mode : Mode) :
    Follows (.abreast c) (passMissing mode) (passMissing mode) := by
  refine ⟨.passMissing mode, fun s r hrel => ?_⟩
  rcases (Sees.peekHead Supplying.answering mode).alike
      (Sees.peekHead Supplying.answering mode) (.headIn mode) hrel with
    ⟨head, t, u, ht, hu, hafter, hsize, hsize'⟩ | ⟨e, t, u, ht, hu, hafter⟩ | ⟨hmore, t, ht⟩
  · refine .of_ok (passMissing_of_peekHead ht) fun _ => ⟨_, passMissing_of_peekHead hu, ?_⟩
    split
    · exact hafter.discard hsize hsize'
    · exact hafter
  · exact .of_error (by rw [passMissing, bind_apply, ht])
      fun _ => ⟨_, by rw [passMissing, bind_apply, hu], hafter⟩
  · exact .excuse (by rw [passMissing, bind_apply, ht]) (Or.inr ⟨rfl, hmore⟩)

/-- Bytes that both inputs have are read alike. -/
theorem followsAt_read {n : Nat} {s : MemoryInput} {r : σ} (h : Abreast c.ahead c.more s r)
    (hn : n ≤ (stream s).length) :
    FollowsAt (.abreast c) (Input.read n) (Input.read n) s r := by
  obtain ⟨t, ht, hadv, hs⟩ := read_ends h.ready hn
  obtain ⟨u, hu, hadv', hr⟩ := read_ends h.ready' (hn.trans h.length_le)
  rw [h.take_eq hn] at hadv' hr
  exact .of_ok hs fun _ => ⟨u, hr, h.advance hadv hadv' ht hu⟩

theorem followsAt_appendChunk (major : Major) {length : Nat} (before : Array UInt8)
    {s : MemoryInput} {r : σ} (h : Abreast c.ahead c.more s r)
    (hlength : length ≤ (stream s).length) :
    FollowsAt (.abreast c) (appendChunk major length before) (appendChunk major length before)
      s r := by
  have hread : Consumes 0 (Input.read length : EStateM Error MemoryInput Bytes) :=
    (Consumes.read length).mono (Nat.zero_le length)
  refine ((Follows.failIf _ _).at_rel s r h).bind
    (fun _ => .bind hread fun _ => .seq (.failIf _ _) (.pure _)) fun _ t u ht hrel => ?_
  obtain ⟨-, rfl⟩ := failIf_eq_ok.1 ht
  exact (followsAt_read hrel hlength).bind (fun _ => .seq (.failIf _ _) (.pure _))
    fun _ t u _ hrel => (Follows.seq (.failIf _ _) (.pure _)).at_rel t u hrel

theorem abreast_readChunk (options : Options) (major : Major) (length : Nat)
    (before : Array UInt8) :
    Follows (.abreast c) (readChunk options major length before)
      (readChunk options major length before) := by
  refine ⟨(Consumes.readChunk _ _ _ _).mono (Nat.zero_le length), fun s r hrel => ?_⟩
  have hcheck : Follows (.abreast c) (checkChunk options length before.size)
      (checkChunk options length before.size) :=
    .seq (abreast_checkAvailable _ _) (.failIf _ _)
  refine (hcheck.at_rel s r hrel).bind (fun _ => .seq (.failIf _ _) (.bind
    ((Consumes.read length).mono (Nat.zero_le length)) fun _ => .seq (.failIf _ _) (.pure _)))
    fun _ t u ht hrel => ?_
  -- The check has held the length against what is in memory, so neither read falls short.
  obtain ⟨havailable, -, rfl⟩ := checkChunk_eq_ok.1 ht
  rw [show available s = (stream s).length from s.rest.size_eq] at havailable
  exact followsAt_appendChunk major before hrel havailable

/-- The pieces of every decoder go on abreast. -/
theorem abreast_decoding (options : Options) : DecodeFollows (.abreast c) options where
  readHead := abreast_readHead _
  passMissing := abreast_passMissing _
  atBreak := abreast_atBreak
  passBreak := abreast_passBreak
  checkAvailable := abreast_checkAvailable
  readChunk := abreast_readChunk options

theorem abreast_decodeWithin (options : Options) (depth : Nat) :
    Follows (.abreast c) (Value.decodeWithin options depth)
      (Value.decodeWithin options depth) :=
  (abreast_decoding options).decodeWithin depth

/-- Every typed decoder goes on abreast. -/
theorem Target.abreast_decode {options : Options} (t : Target) :
    Follows (.abreast c) (t.decode options) (t.decode options) :=
  (abreast_decoding options).decode t

end Decoding

end CborCodec
