import CborCodec.Proofs.Flushing
import CborCodec.Proofs.Scripting
/-!
All outputs receive the same bytes. Since the writes are the same on each, it only has to be seen
what an output makes of a list of writes: a slice takes those that fit and refuses the first that
does not, a buffer over a willing sink takes all of them, and so does an output that writes large
payloads in pieces and always makes room for one.
-/

namespace CborCodec

open Write

def Write.bytesOf (ws : List Write) : Bytes := ws.flatMap bytes

/-- Where all that is written is kept, a payload is written as a head. -/
theorem Write.make_eq_putHead {τ : Type} [Output τ] [Recording τ] (w : Write) :
    (w.make : EStateM Error τ Unit) = Output.putHead w.bytes := by
  cases w with
  | head bs => rfl
  | payload bs => exact put_eq bs

/-- What an output has gained by writes is their bytes in order. -/
theorem written_makeAll {τ : Type} [Output τ] [Recording τ] {ws : List Write} {o o' : τ}
    (h : makeAll ws o = .ok () o') :
    Recording.written o' = Recording.written o ++ bytesOf ws := by
  induction ws generalizing o with
  | nil =>
    cases h
    exact (List.append_nil _).symm
  | cons w ws ih =>
    obtain ⟨_, u, hw, hrest⟩ := bind_eq_ok.mp h
    rw [w.make_eq_putHead] at hw
    rcases putHead_cases w.bytes o with ⟨o'', ho, hwritten⟩ | ⟨e, o'', ho, -⟩
    · rw [ho] at hw
      cases hw
      rw [ih hrest, hwritten, List.append_assoc]
      rfl
    · rw [ho] at hw
      cases hw

/-- A write to an output that answers at once whether there is room for it. -/
theorem make_eq {τ : Type} [Output τ] {o : τ} {n : Nat} (w : Write)
    (hbulk : ∀ bs, (Output.bulkWrite bs : EStateM Fault τ Unit) = (do
      Room.ensure bs.length
      modify (Room.commit bs)))
    (hensure : Room.ensure w.bytes.length o =
      if w.bytes.length ≤ n then .ok () o else .error .endOfStream o) :
    w.make o = if w.bytes.length ≤ n then .ok () (Room.commit w.bytes o)
      else .error .endOfStream o := by
  have hput : (w.make : EStateM Error τ Unit) = Output.putHead w.bytes := by
    cases w with
    | head bs => rfl
    | payload bs => exact put_eq_putHead (hbulk bs)
  simp only [hput, Output.putHead, bind_apply, EStateM.adaptExcept, hensure]
  by_cases hfits : w.bytes.length ≤ n
  · simp only [if_pos hfits]
    rfl
  · simp only [if_neg hfits]
    rfl

/-- A slice that is being written: what is written of it, and what the cells behind still hold. -/
structure SliceOutput where
  written : Bytes
  rest : Bytes

namespace SliceOutput

def commit (bs : Bytes) (s : SliceOutput) : SliceOutput :=
  ⟨s.written ++ bs, s.rest.drop bs.length⟩

def ensure (n : Nat) : EStateM Fault SliceOutput Unit := fun s =>
  if n ≤ s.rest.length then .ok () s else .error .endOfStream s

instance : Output SliceOutput where
  room s := s.rest.length
  ensure := ensure
  commit := commit
  room_of_ensure n s t h := by
    unfold ensure at h
    split at h
    · next hn => cases h; exact hn
    · cases h
  bulkWrite bs := do
    ensure bs.length
    modify (commit bs)

def fixed (s : SliceOutput) : FixedOutput := ⟨s.written.toArray, s.rest.length⟩

theorem fixed_commit (bs : Bytes) (s : SliceOutput) : (s.commit bs).fixed = s.fixed.commit bs := by
  simp [fixed, commit, FixedOutput.commit]

theorem exists_fixed (o : FixedOutput) : ∃ s : SliceOutput, s.fixed = o :=
  ⟨⟨o.toBytes, List.replicate o.free 0⟩, by simp [fixed, FixedOutput.toBytes]⟩

/-- The cells that are left have no part in what is done. -/
theorem makeAll_fixed (ws : List Write) (s : SliceOutput) :
    makeAll ws s.fixed = match makeAll ws s with
      | .ok _ t => .ok () t.fixed
      | .error e t => .error e t.fixed := by
  induction ws generalizing s with
  | nil => rfl
  | cons w ws ih =>
    have hslice := make_eq (o := s) w (fun _ => rfl) rfl
    have hfixed := make_eq (o := s.fixed) w (fun _ => rfl) rfl
    simp only [makeAll, bind_apply, hslice, hfixed]
    by_cases hfits : w.bytes.length ≤ s.rest.length
    · have hfits' : w.bytes.length ≤ s.fixed.free := hfits
      have hrest := ih (s.commit w.bytes)
      rw [fixed_commit] at hrest
      simp only [if_pos hfits, if_pos hfits']
      exact hrest
    · have hfits' : ¬w.bytes.length ≤ s.fixed.free := hfits
      simp only [if_neg hfits, if_neg hfits']

/-- The writes are taken up to the first that does not fit into the cells that are left. -/
theorem makeAll_cases (ws : List Write) (s : SliceOutput) :
    ((bytesOf ws).length ≤ s.rest.length → makeAll ws s = .ok () (s.commit (bytesOf ws))) ∧
      (s.rest.length < (bytesOf ws).length → ∃ part, part <+: bytesOf ws ∧
        part.length ≤ s.rest.length ∧ makeAll ws s = .error .endOfStream (s.commit part)) := by
  induction ws generalizing s with
  | nil =>
    constructor
    · intro _
      simp [bytesOf, commit, makeAll, pure_apply]
    · intro h
      simp [bytesOf] at h
  | cons w ws ih =>
    have hslice := make_eq (o := s) w (fun _ => rfl) rfl
    obtain ⟨hall, hpart⟩ := ih (s.commit w.bytes)
    have hcommit : ∀ bs, (s.commit w.bytes).commit bs = s.commit (w.bytes ++ bs) := by
      intro bs
      simp [commit]
    have hrest : (s.commit w.bytes).rest.length = s.rest.length - w.bytes.length := by
      simp [commit]
    have hbytes : bytesOf (w :: ws) = w.bytes ++ bytesOf ws := rfl
    rw [hbytes, List.length_append, makeAll, bind_apply, hslice]
    constructor
    · intro hfits
      rw [if_pos (by omega)]
      dsimp only
      rw [hcommit] at hall
      exact hall (by omega)
    · intro hlacks
      by_cases hfits : w.bytes.length ≤ s.rest.length
      · obtain ⟨part, hfront, hlength, herror⟩ := hpart (by omega)
        rw [if_pos hfits]
        refine ⟨w.bytes ++ part, (List.prefix_append_right_inj _).mpr hfront, ?_, ?_⟩
        · rw [List.length_append]
          omega
        · rw [← hcommit]
          exact herror
      · rw [if_neg hfits]
        refine ⟨[], List.nil_prefix, Nat.zero_le _, ?_⟩
        simp [commit]

end SliceOutput

namespace Sink

variable {ω : Type} [Sink ω]

/-- A sink that takes at least a byte of whatever it is offered, and never fails. -/
def Willing (sink : ω) : Prop :=
  ∃ P : ω → Prop, P sink ∧ ∀ s, P s →
    (∀ bs ≠ [], ∃ n t, write bs s = .ok n t ∧ 0 < n ∧ P t) ∧
      ∃ t, (flush : EStateM DeviceError ω Unit) s = .ok () t ∧ P t

theorem Willing.write {sink : ω} (h : Willing sink) {bs : Bytes} (hbs : bs ≠ []) :
    ∃ n t, Sink.write bs sink = .ok n t ∧ 0 < n ∧ Willing t := by
  obtain ⟨P, hsink, hP⟩ := h
  obtain ⟨n, t, hwrite, hn, ht⟩ := (hP sink hsink).1 bs hbs
  exact ⟨n, t, hwrite, hn, P, ht, hP⟩

theorem Willing.flush {sink : ω} (h : Willing sink) :
    ∃ t, (Sink.flush : EStateM DeviceError ω Unit) sink = .ok () t := by
  obtain ⟨P, hsink, hP⟩ := h
  obtain ⟨t, hflush, -⟩ := (hP sink hsink).2
  exact ⟨t, hflush⟩

/-- A willing sink takes all that it is offered. -/
theorem Willing.writeAll {sink : ω} (h : Willing sink) (bs : Bytes) :
    ∃ t, Sink.writeAll bs sink = .ok () t ∧ Willing t := by
  fun_induction Sink.writeAll bs sink with
  | case1 sink => exact ⟨sink, rfl, h⟩
  | case2 bs sink hbs e t hwrite =>
    obtain ⟨n, u, hu, -, -⟩ := h.write hbs
    rw [hu] at hwrite
    cases hwrite
  | case3 bs sink hbs t hwrite =>
    obtain ⟨n, u, hu, hn, -⟩ := h.write hbs
    rw [hu] at hwrite
    cases hwrite
    exact absurd hn (Nat.lt_irrefl 0)
  | case4 bs sink hbs n t hwrite ih =>
    obtain ⟨n', u, hu, -, hwilling⟩ := h.write hbs
    rw [hu] at hwrite
    cases hwrite
    exact ih hwilling

end Sink

/-- Without limits and failures any positive number of bytes at a time will do. -/
theorem ScheduledSink.willing {taken : Array UInt8} {piece : Option Nat}
    (h : ∀ k, piece = some k → 0 < k) :
    Sink.Willing (⟨taken, none, piece, none, none⟩ : ScheduledSink) := by
  refine ⟨fun s => s.piece = piece ∧ s.limit = none ∧ s.failure = none ∧ s.flushFailure = none,
    ⟨rfl, rfl, rfl, rfl⟩, ?_⟩
  rintro ⟨taken', limit, piece', failure, flushFailure⟩ ⟨rfl, rfl, rfl, rfl⟩
  refine ⟨?_, _, rfl, rfl, rfl, rfl, rfl⟩
  intro bs hbs
  refine ⟨_, _, rfl, ?_, rfl, rfl, rfl, rfl⟩
  have hpos := List.length_pos_iff.mpr hbs
  cases piece' with
  | none => exact hpos
  | some k =>
    have hk := h k rfl
    show 0 < (bs.take k).length
    rw [List.length_take]
    omega

/-- An output that is in order and stays so takes each write, and what it counts as written grows by
the bytes of the write. -/
structure Takes {τ : Type} [Output τ] (written : τ → Bytes) (P : τ → Prop) : Prop where
  make : ∀ (w : Write) (o : τ), P o →
    ∃ o', w.make o = .ok () o' ∧ P o' ∧ written o' = written o ++ w.bytes

/-- An output that takes each write takes all of them. -/
theorem Takes.makeAll {τ : Type} [Output τ] {written : τ → Bytes} {P : τ → Prop}
    (h : Takes written P) (ws : List Write) {o : τ} (ho : P o) :
    ∃ o', Write.makeAll ws o = .ok () o' ∧ P o' ∧ written o' = written o ++ bytesOf ws := by
  induction ws generalizing o with
  | nil => exact ⟨o, rfl, ho, (List.append_nil _).symm⟩
  | cons w ws ih =>
    obtain ⟨u, hu, hPu, hwritten⟩ := h.make w o ho
    obtain ⟨o', ho', hPo', hrest⟩ := ih hPu
    refine ⟨o', bind_eq_ok.mpr ⟨(), u, hu, ho'⟩, hPo', ?_⟩
    rw [hrest, hwritten, List.append_assoc]
    rfl

namespace BufferedOutput

variable {ω : Type} [Sink ω]

structure Sound (s : BufferedOutput ω) : Prop where
  willing : Sink.Willing s.sink
  room : pieceRoom ≤ s.capacity

variable {s : BufferedOutput ω}

theorem Sound.through (h : s.Sound) (bs : Bytes) : ∃ t, through bs s = .ok () t ∧ t.Sound := by
  obtain ⟨sink, hsink, hwilling⟩ := h.willing.writeAll bs
  exact ⟨{ s with sink := sink }, by simp only [BufferedOutput.through, hsink],
    { h with willing := hwilling }⟩

theorem Sound.empty (h : s.Sound) : ∃ t, empty s = .ok () t ∧ t.Sound := by
  obtain ⟨t, ht, hsound⟩ := h.through s.filled.toList
  exact ⟨{ t with filled := #[] }, by rw [empty_eq, ht], { hsound with }⟩

/-- The emptied buffer has room for any head. -/
theorem Sound.ensure (h : s.Sound) {n : Nat} (hn : n ≤ pieceRoom) :
    ∃ t, ensure n s = .ok () t ∧ t.Sound := by
  unfold BufferedOutput.ensure
  by_cases hfits : n ≤ s.room
  · exact ⟨s, if_pos hfits, h⟩
  · obtain ⟨t, ht, hsound⟩ := h.empty
    obtain ⟨hfilled, -⟩ := empty_ok ht
    have hroom : n ≤ t.room := by
      rw [BufferedOutput.room, hfilled]
      exact hn.trans hsound.room
    rw [if_neg hfits, ht]
    exact ⟨t, if_pos hroom, hsound⟩

/-- Writing a payload never fails over a willing sink. -/
theorem Sound.bulkWrite (h : s.Sound) (bs : Bytes) :
    ∃ t, (Output.bulkWrite bs : EStateM Fault (BufferedOutput ω) Unit) s = .ok () t ∧ t.Sound := by
  simp only [Output.bulkWrite, bind_apply, get_apply]
  by_cases hfits : bs.length ≤ s.room
  · rw [if_pos hfits]
    exact ⟨commit bs s, rfl, { h with }⟩
  · obtain ⟨t, ht, hsound⟩ := h.empty
    obtain ⟨u, hu, hsound'⟩ := hsound.through bs
    rw [if_neg hfits]
    exact ⟨u, bind_eq_ok.mpr ⟨(), t, ht, hu⟩, hsound'⟩

/-- What is held, in the sink and in the buffer, grows by what is written. -/
theorem takes : Takes held (Sound (ω := ω)) where
  make w s h := by
    cases w with
    | head bs short =>
      obtain ⟨t, ht, hsound⟩ := h.ensure short
      have hheld := Call.make_ok (.ensure bs.length) ht
      refine ⟨commit bs t, bind_eq_ok.mpr ⟨(), t, adaptExcept_eq_ok.mpr ht, rfl⟩,
        { hsound with }, ?_⟩
      rw [held_commit, hheld]
      exact congrArg (· ++ bs) (List.append_nil _)
    | payload bs =>
      obtain ⟨t, ht, hsound⟩ := h.bulkWrite bs
      exact ⟨t, adaptExcept_eq_ok.mpr ht, hsound, Call.make_ok (.write bs) ht⟩

/-- At the end a willing sink has taken all bytes that were held. -/
theorem Sound.finish (h : s.Sound) :
    ∃ t, finish s = .ok () t ∧ Sink.taken t.sink = held s := by
  obtain ⟨t, ht, hsound⟩ := h.empty
  obtain ⟨sink, hflush⟩ := hsound.willing.flush
  have hfinish : BufferedOutput.finish s = .ok () { t with sink := sink } := by
    refine bind_eq_ok.mpr ⟨(), t, ht, ?_⟩
    simp only [hflush]
  exact ⟨_, hfinish, finish_ok hfinish⟩

end BufferedOutput

section Pieces

variable {τ : Type} [Output τ]

/-- An output that always makes room for a piece, in which making room writes nothing and what is
committed into it is written. -/
def Obliging (written : τ → Bytes) (o : τ) : Prop :=
  ∃ P : τ → Prop, P o ∧ ∀ s, P s →
    (∀ n ≤ pieceRoom, ∃ t, Room.ensure n s = .ok () t ∧ P t ∧ written t = written s) ∧
      ∀ bs, bs.length ≤ Room.room s →
        P (Room.commit bs s) ∧ written (Room.commit bs s) = written s ++ bs

theorem Obliging.ensure {written : τ → Bytes} {o : τ} (h : Obliging written o) {n : Nat}
    (hn : n ≤ pieceRoom) :
    ∃ t, Room.ensure n o = .ok () t ∧ Obliging written t ∧ written t = written o := by
  obtain ⟨P, ho, hP⟩ := h
  obtain ⟨t, ht, hPt, hwritten⟩ := (hP o ho).1 n hn
  exact ⟨t, ht, ⟨P, hPt, hP⟩, hwritten⟩

theorem Obliging.commit {written : τ → Bytes} {o : τ} (h : Obliging written o) {bs : Bytes}
    (hbs : bs.length ≤ Room.room o) :
    Obliging written (Room.commit bs o) ∧ written (Room.commit bs o) = written o ++ bs := by
  obtain ⟨P, ho, hP⟩ := h
  obtain ⟨hPt, hwritten⟩ := (hP o ho).2 bs hbs
  exact ⟨⟨P, hPt, hP⟩, hwritten⟩

/-- Each piece is as large as the room that is found, and no byte falls between two of them. -/
theorem Obliging.writePieces {written : τ → Bytes} {o : τ} (h : Obliging written o) (bs : Bytes) :
    ∃ o', Room.writePieces bs o = .ok () o' ∧ Obliging written o' ∧
      written o' = written o ++ bs := by
  fun_induction Room.writePieces bs o with
  | case1 o => exact ⟨o, rfl, h, (List.append_nil _).symm⟩
  | case2 bs o hbs e t herror =>
    obtain ⟨u, hu, -, -⟩ := h.ensure (List.length_take_le ..)
    rw [hu] at herror
    cases herror
  | case3 bs o hbs t hensure ih =>
    obtain ⟨u, hu, hobliging, hstill⟩ := h.ensure (List.length_take_le pieceRoom bs)
    rw [hu] at hensure
    cases hensure
    obtain ⟨hcommitted, hpiece⟩ := hobliging.commit (List.length_take_le (Room.room t) bs)
    obtain ⟨o', ho', hlast, hrest⟩ := ih hcommitted
    refine ⟨o', ho', hlast, ?_⟩
    rw [hrest, hpiece, hstill, List.append_assoc, List.take_append_drop]

/-- An output that makes room for each piece takes a payload of any length. -/
theorem takes_obliging {written : τ → Bytes}
    (hbulk : (Output.bulkWrite : Bytes → EStateM Fault τ Unit) = Room.writePieces) :
    Takes written (Obliging written) where
  make w o h := by
    cases w with
    | head bs short =>
      obtain ⟨t, ht, hobliging, hstill⟩ := h.ensure short
      obtain ⟨hcommitted, hwritten⟩ := hobliging.commit (Room.room_of_ensure _ _ _ ht)
      refine ⟨Room.commit bs t, bind_eq_ok.mpr ⟨(), t, adaptExcept_eq_ok.mpr ht, rfl⟩,
        hcommitted, ?_⟩
      rw [hwritten, hstill]
      rfl
    | payload bs =>
      obtain ⟨t, ht, hobliging, hwritten⟩ := h.writePieces bs
      rw [← hbulk] at ht
      exact ⟨t, adaptExcept_eq_ok.mpr ht, hobliging, hwritten⟩

/-- A window of at least one piece makes room by letting go of what is in it. -/
theorem WindowOutput.obliging {capacity : Nat} (h : pieceRoom ≤ capacity) :
    Obliging toBytes (ofCapacity capacity) := by
  refine ⟨fun s => s.capacity = capacity, rfl, ?_⟩
  rintro s rfl
  constructor
  · intro n hn
    by_cases hfits : n ≤ s.room
    · refine ⟨s, ?_, rfl, rfl⟩
      show ensure n s = _
      simp only [ensure, if_pos hfits]
    · let t : WindowOutput := { s with taken := s.taken ++ s.filled, filled := #[] }
      have hempty : n ≤ t.room := hn.trans h
      refine ⟨t, ?_, rfl, ?_⟩
      · show ensure n s = _
        simp only [ensure, if_neg hfits]
        exact if_pos hempty
      · simp [t, toBytes]
  · intro bs _
    refine ⟨rfl, ?_⟩
    show toBytes (commit bs s) = toBytes s ++ bs
    simp [toBytes, commit]

end Pieces

section Received

variable {σ α : Type}

/-- From the input the action answers `a` and leaves `j` behind, on any output that has room for the
bytes or makes it, and the output gains exactly them. Where they do not fit, those that are written
are the first of them, and the cells behind are as they were. -/
structure Received (x : AnyAction σ α) (i : σ) (a : α) (j : σ) (bs : Bytes) : Prop where
  fixed : ∀ o : FixedOutput, bs.length ≤ o.free → x FixedOutput (i, o) = .ok a (j, o.commit bs)
  fixed_full : ∀ o : FixedOutput, o.free < bs.length → ∃ part k, part <+: bs ∧
    part.length ≤ o.free ∧ x FixedOutput (i, o) = .error .endOfStream (k, o.commit part)
  slice : ∀ s : SliceOutput, bs.length ≤ s.rest.length →
    x SliceOutput (i, s) = .ok a (j, s.commit bs)
  slice_full : ∀ s : SliceOutput, s.rest.length < bs.length → ∃ part k, part <+: bs ∧
    part.length ≤ s.rest.length ∧ x SliceOutput (i, s) = .error .endOfStream (k, s.commit part)
  buffered : ∀ {ω : Type} [Sink ω] (sink : ω) (capacity : Nat), Sink.Willing sink →
    ∃ o o' : BufferedOutput ω, x (BufferedOutput ω) (i, .ofSink sink capacity) = .ok a (j, o) ∧
      o.finish = .ok () o' ∧ Sink.taken o'.sink = Sink.taken sink ++ bs
  pieces : ∀ {τ : Type} [Output τ] (written : τ → Bytes) (o : τ),
    (Output.bulkWrite : Bytes → EStateM Fault τ Unit) = Room.writePieces → Obliging written o →
      ∃ o' : τ, x τ (i, o) = .ok a (j, o') ∧ written o' = written o ++ bs

variable {x : AnyAction σ α} {i j : σ} {a : α} {ws : List Write}

/-- The writes of an action reach every output, or the first of their bytes where not all fit. -/
theorem Script.received (h : Script x i ws (.ok a j)) : Received x i a j (bytesOf ws) where
  fixed o hfits := by
    obtain ⟨s, rfl⟩ := SliceOutput.exists_fixed o
    have hmade := (SliceOutput.makeAll_cases ws s).1 hfits
    have hfixed := SliceOutput.makeAll_fixed ws s
    rw [hmade] at hfixed
    rw [← SliceOutput.fixed_commit]
    exact h.written hfixed
  fixed_full o hlacks := by
    obtain ⟨s, rfl⟩ := SliceOutput.exists_fixed o
    obtain ⟨part, hfront, hlength, hmade⟩ := (SliceOutput.makeAll_cases ws s).2 hlacks
    have hfixed := SliceOutput.makeAll_fixed ws s
    rw [hmade] at hfixed
    obtain ⟨k, hk⟩ := h.refused hfixed
    refine ⟨part, k, hfront, hlength, ?_⟩
    rw [← SliceOutput.fixed_commit]
    exact hk
  slice s hfits := h.written ((SliceOutput.makeAll_cases ws s).1 hfits)
  slice_full s hlacks := by
    obtain ⟨part, hfront, hlength, hmade⟩ := (SliceOutput.makeAll_cases ws s).2 hlacks
    obtain ⟨k, hk⟩ := h.refused hmade
    exact ⟨part, k, hfront, hlength, hk⟩
  buffered sink capacity hwilling := by
    have hsound : (BufferedOutput.ofSink sink capacity).Sound := ⟨hwilling, Nat.le_max_right _ _⟩
    obtain ⟨o, ho, hfilled, hheld⟩ := BufferedOutput.takes.makeAll ws hsound
    obtain ⟨o', hfinish, htaken⟩ := hfilled.finish
    refine ⟨o, o', h.written ho, hfinish, ?_⟩
    rw [htaken, hheld, BufferedOutput.held_ofSink]
  pieces written o hbulk hobliging := by
    obtain ⟨o', ho', -, hwritten⟩ := (takes_obliging hbulk).makeAll ws hobliging
    exact ⟨o', h.written ho', hwritten⟩

/-- What succeeds on a growing output has a script that succeeds. -/
theorem Scripted.received (h : Scripted x i) {o o' : GrowingOutput}
    (hx : x GrowingOutput (i, o) = .ok a (j, o')) :
    ∃ bs, o'.toBytes = o.toBytes ++ bs ∧ Received x i a j bs := by
  obtain ⟨ws, r, hws⟩ := h
  cases hmade : makeAll ws o with
  | error e u =>
    obtain ⟨k, hk⟩ := hws.refused hmade
    rw [hk] at hx
    cases hx
  | ok _ u =>
    have hbeside := hws.written hmade
    rw [hx] at hbeside
    cases r with
    | error e k => cases hbeside
    | ok b k =>
      cases hbeside
      exact ⟨bytesOf ws, written_makeAll hmade, hws.received⟩

end Received

namespace Transcriber

variable {σ τ : Type} [Input σ] [Output τ]

def copy (w : Transcriber) : EStateM Error (σ × τ) Unit := fun s =>
  match copyItem (w, s) with
  | .ok _ t => .ok () t.2
  | .error e t => .error e t.2

theorem copy_eq (w : Transcriber) :
    (w.copy : EStateM Error (σ × τ) Unit) = walkItem w.options [] := by
  funext s
  rw [copy, copyItem_apply, onSecond, ← CborCodec.copyItem_eq]
  cases CborCodec.copyItem w.options s <;> rfl

end Transcriber

/-- Calls that pass on every failure, and copies of items, write the same bytes to every output. If
they succeed on a growing one they do on all that have room for the bytes or make it, and a slice
that is too small holds the first of them. -/
theorem same_bytes_everywhere {σ : Type} [Input σ] (i j : σ) (o o' : GrowingOutput) :
    (∀ (options : Options) (calls : List Program) (made : Nat),
      (∀ c ∈ calls, c.Throughout Program.Propagates) →
      Program.runAll options none 0 calls (i, o) = .ok made (j, o') →
        ∃ bs, o'.toBytes = o.toBytes ++ bs ∧
          Received (fun _ _ => Program.runAll options none 0 calls) i made j bs) ∧
      ∀ w : Transcriber, w.copy (i, o) = .ok () (j, o') →
        ∃ bs, o'.toBytes = o.toBytes ++ bs ∧ Received (fun _ _ => w.copy) i () j bs := by
  constructor
  · intro options calls made hcalls h
    apply Scripted.received _ h
    exact Program.scripted_runAll fun c hc => Program.scripted_run (hcalls c hc)
  · intro w h
    apply Scripted.received _ h
    exact (Scripted.walkItem w.options [] i).congr fun _ _ => w.copy_eq

/-- An item of the input with a text behind it, on a slice of three cells, byte by byte into a sink,
and through a window of sixteen bytes; and a copy of the item. -/
theorem same_bytes_of_two_calls :
    let calls : List Program := [.itemFrom, .leaf (.text "hi")]
    let i := MemoryInput.ofBytes [0x01]
    let s : SliceOutput := ⟨[], [7, 8, 9]⟩
    let sink : ScheduledSink := ⟨#[], none, some 1, none, none⟩
    let bs := [0x01, 0x62, 0x68, 0x69]
    (∃ part k, part <+: bs ∧ part.length ≤ 3 ∧
        Program.runAll {} none 0 calls (i, s) = .error .endOfStream (k, s.commit part)) ∧
      (∃ (j : MemoryInput) (o o' : BufferedOutput ScheduledSink),
        Program.runAll {} none 0 calls (i, .ofSink sink 0) = .ok 2 (j, o) ∧
          o.finish = .ok () o' ∧ Sink.taken o'.sink = bs) ∧
      (∃ (j : MemoryInput) (o : WindowOutput),
        Program.runAll {} none 0 calls (i, .ofCapacity 16) = .ok 2 (j, o) ∧ o.toBytes = bs) ∧
      ∃ j, Received (fun _ _ => ({ options := {} } : Transcriber).copy) i () j [0x01] := by
  intro calls i s sink bs
  have hcalls : ∀ c ∈ calls, c.Throughout Program.Propagates := by
    have hpart (c : Program) (hc : c.parts = [c]) (h : c.Propagates) :
        c.Throughout Program.Propagates := (Program.throughout_of_parts hc).mpr h
    simp only [calls, List.forall_mem_cons]
    exact ⟨hpart _ rfl trivial, hpart _ rfl trivial, by simp⟩
  have hrun := eq_ok_of_outcome (a := 2)
    (r := Program.runAll {} none 0 calls (i, GrowingOutput.ofCapacity 0)) (by decide +kernel)
  have hcopy := eq_ok_of_outcome (a := ())
    (r := ({ options := {} } : Transcriber).copy (i, GrowingOutput.ofCapacity 0))
    (by decide +kernel)
  obtain ⟨bs', hbytes, hreceived⟩ := (same_bytes_everywhere i _ _ _).1 {} calls 2 hcalls hrun
  obtain ⟨cs, hcs, hcopied⟩ := (same_bytes_everywhere i _ _ _).2 { options := {} } hcopy
  have hall : bs' = bs := by
    change _ = [] ++ bs' at hbytes
    rw [← List.nil_append bs', ← hbytes]
    decide +kernel
  have hitem : cs = [0x01] := by
    change _ = [] ++ cs at hcs
    rw [← List.nil_append cs, ← hcs]
    decide +kernel
  rw [hall] at hreceived
  rw [hitem] at hcopied
  refine ⟨hreceived.slice_full s (by decide), ?_, ?_, _, hcopied⟩
  · obtain ⟨o, o', ho⟩ := hreceived.buffered sink 0 (ScheduledSink.willing (by simp))
    exact ⟨_, o, o', ho⟩
  · obtain ⟨o, ho⟩ := hreceived.pieces WindowOutput.toBytes (.ofCapacity 16) rfl
      (WindowOutput.obliging (by decide))
    exact ⟨_, o, ho⟩

end CborCodec
