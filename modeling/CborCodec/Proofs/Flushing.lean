import CborCodec.Output.Schedule
import Mathlib.Data.List.Infix
import Mathlib.Logic.Relation
/-!
What a sink behind a buffer has taken, after calls that may fail while they empty the buffer. Bytes
are never lost. They are repeated exactly if the sink took some of the buffer before it refused the
rest, since the buffer keeps all it held then.
-/

namespace CborCodec

namespace Sink

variable {ω : Type} [Sink ω]

/-- One sink becomes the other as it is offered bytes, so it may be met on the way there. -/
def Leads : ω → ω → Prop :=
  Relation.ReflTransGen fun s t => ∃ bs, t = final (write bs s)

/-- A sink keeps what it has taken. -/
theorem taken_write_grows (bs : Bytes) (s : ω) : taken s <+: taken (final (write bs s)) := by
  cases h : write bs s with
  | ok n t =>
    rw [final_ok, (taken_of_write _ _ _ _ h).2]
    exact List.prefix_append _ _
  | error e t =>
    rw [final_error, taken_of_failed_write _ _ _ _ h]

/-- A sink never gives back what it took. -/
theorem Leads.grows {s t : ω} (h : Leads s t) : taken s <+: taken t := by
  induction h with
  | refl => exact List.prefix_rfl
  | tail _ hlast ih =>
    obtain ⟨bs, rfl⟩ := hlast
    exact ih.trans (taken_write_grows bs _)

theorem leads_write {bs : Bytes} {s : ω} {r : EStateM.Result DeviceError ω Nat}
    (h : write bs s = r) : Leads s (final r) :=
  Relation.ReflTransGen.single ⟨bs, by rw [h]⟩

/-- Handing bytes over is nothing but offers. -/
theorem leads_writeAll (bs : Bytes) (s : ω) : Leads s (final (writeAll bs s)) := by
  fun_induction writeAll bs s with
  | case1 => exact Relation.ReflTransGen.refl
  | case2 bs s _ e t h => exact leads_write h
  | case3 bs s _ t h => exact leads_write h
  | case4 bs s _ n t h ih => exact (leads_write h).trans ih

/-- A sink that is offered bytes until all are taken has gained exactly these. -/
theorem taken_writeAll {bs : Bytes} {s t : ω} (h : writeAll bs s = .ok () t) :
    taken t = taken s ++ bs := by
  fun_induction writeAll bs s with
  | case1 s => cases h; rw [List.append_nil]
  | case2 => cases h
  | case3 => cases h
  | case4 bs s _ n u hwrite ih =>
    calc taken t = taken u ++ bs.drop (n + 1) := ih h
      _ = taken s ++ (bs.take (n + 1) ++ bs.drop (n + 1)) := by
        rw [(taken_of_write _ _ _ _ hwrite).2, List.append_assoc]
      _ = taken s ++ bs := by rw [List.take_append_drop]

end Sink

namespace BufferedOutput

variable {ω : Type} [Sink ω] {s t : BufferedOutput ω} {e : Fault}

/-- The bytes in the sink and behind them those still in the buffer. -/
def held (s : BufferedOutput ω) : Bytes :=
  Sink.taken s.sink ++ s.filled.toList

theorem held_ofSink (sink : ω) (capacity : Nat) :
    held (ofSink sink capacity) = Sink.taken sink := by
  simp [held, ofSink]

theorem held_commit (bs : Bytes) (s : BufferedOutput ω) : held (commit bs s) = held s ++ bs := by
  simp [held, commit]

theorem through_ok {bs : Bytes} (h : through bs s = .ok () t) :
    Sink.taken t.sink = Sink.taken s.sink ++ bs ∧ t.filled = s.filled := by
  unfold through at h
  cases hwrite : Sink.writeAll bs s.sink with
  | ok _ sink =>
    rw [hwrite] at h
    cases h
    exact ⟨Sink.taken_writeAll hwrite, rfl⟩
  | error e sink =>
    rw [hwrite] at h
    cases h

theorem final_through (bs : Bytes) (s : BufferedOutput ω) :
    final (through bs s) = { s with sink := final (Sink.writeAll bs s.sink) } := by
  unfold through
  cases Sink.writeAll bs s.sink <;> rfl

theorem empty_eq (s : BufferedOutput ω) :
    empty s = match through s.filled.toList s with
      | .ok _ t => .ok () { t with filled := #[] }
      | .error e t => .error e t := by
  simp only [empty, bind_apply, get_apply]
  cases through s.filled.toList s <;> rfl

/-- An emptied buffer has moved to the sink whole. -/
theorem empty_ok (h : empty s = .ok () t) :
    t.filled = #[] ∧ Sink.taken t.sink = held s := by
  rw [empty_eq] at h
  cases hthrough : through s.filled.toList s with
  | ok _ u =>
    rw [hthrough] at h
    cases h
    exact ⟨rfl, (through_ok hthrough).1⟩
  | error e u =>
    rw [hthrough] at h
    cases h

/-- A buffer that could not be emptied keeps all it held. -/
theorem empty_error (h : empty s = .error e t) : t.filled = s.filled := by
  rw [empty_eq] at h
  have hfinal := final_through s.filled.toList s
  cases hthrough : through s.filled.toList s with
  | ok _ u =>
    rw [hthrough] at h
    cases h
  | error _ u =>
    rw [hthrough] at h hfinal
    cases h
    rw [final_error] at hfinal
    rw [hfinal]

theorem leads_through (bs : Bytes) (s : BufferedOutput ω) :
    Sink.Leads s.sink (final (through bs s)).sink := by
  rw [final_through]
  exact Sink.leads_writeAll bs s.sink

/-- Emptying the buffer does no more than offer bytes to the sink. -/
theorem leads_empty (s : BufferedOutput ω) : Sink.Leads s.sink (final (empty s)).sink := by
  have hleads := leads_through s.filled.toList s
  rw [empty_eq]
  cases hthrough : through s.filled.toList s <;>
  · rw [hthrough] at hleads
    exact hleads

inductive Call where
  | ensure (n : Nat)
  /-- Fills as much of the free room as the bytes take up, and no more than there is. -/
  | commit (bs : Bytes)
  | write (bs : Bytes)

namespace Call

def make : Call → EStateM Fault (BufferedOutput ω) Unit
  | ensure n => Room.ensure n
  | commit bs => modify fun s => Room.commit (bs.take s.room) s
  | write bs => Output.bulkWrite bs

def bytes : Call → BufferedOutput ω → Bytes
  | ensure _, _ => []
  | commit bs, s => bs.take s.room
  | write bs, _ => bs

/-- A successful call adds its bytes to those held before, and no others. -/
theorem make_ok (c : Call) (h : c.make s = .ok () t) : held t = held s ++ c.bytes s := by
  cases c with
  | ensure n =>
    show held t = held s ++ []
    rw [List.append_nil]
    change BufferedOutput.ensure n s = .ok () t at h
    unfold BufferedOutput.ensure at h
    split at h
    · cases h; rfl
    · cases hempty : empty s with
      | error e u => rw [hempty] at h; cases h
      | ok _ u =>
        obtain ⟨hfilled, htaken⟩ := empty_ok hempty
        rw [hempty] at h
        -- The buffer may grow here, but by now there is nothing in it.
        have hu : held t = Sink.taken u.sink := by
          dsimp only at h
          repeat' split at h
          all_goals cases h
          all_goals simp [held, hfilled]
        rw [hu, htaken]
  | commit bs =>
    cases h
    exact held_commit _ s
  | write bs =>
    change Output.bulkWrite bs s = .ok () t at h
    simp only [Output.bulkWrite, bind_apply, get_apply] at h
    split at h
    · cases h
      exact held_commit bs s
    · rw [bind_eq_ok] at h
      obtain ⟨_, u, hempty, hthrough⟩ := h
      obtain ⟨hfilled, htaken⟩ := empty_ok hempty
      obtain ⟨hgain, hkept⟩ := through_ok hthrough
      simp only [held, hgain, hkept, hfilled, htaken, bytes]
      simp

/-- No call does more to the sink than offer bytes to it. -/
theorem leads_make (c : Call) (s : BufferedOutput ω) :
    Sink.Leads s.sink (final (c.make s)).sink := by
  cases c with
  | ensure n =>
    have hleads := leads_empty s
    show Sink.Leads s.sink (final (BufferedOutput.ensure n s)).sink
    unfold BufferedOutput.ensure
    split
    · exact Relation.ReflTransGen.refl
    · cases hempty : empty s with
      | error e u => rw [hempty] at hleads; exact hleads
      | ok _ u =>
        rw [hempty] at hleads
        dsimp only
        repeat' split
        all_goals exact hleads
  | commit bs => exact Relation.ReflTransGen.refl
  | write bs =>
    have hleads := leads_empty s
    show Sink.Leads s.sink (final (Output.bulkWrite bs s)).sink
    simp only [Output.bulkWrite, bind_apply, get_apply]
    split
    · exact Relation.ReflTransGen.refl
    · rw [bind_apply]
      cases hempty : empty s with
      | error e u => rw [hempty] at hleads; exact hleads
      | ok _ u =>
        rw [hempty] at hleads
        exact hleads.trans (leads_through bs u)

def committed (c : Call) (s : BufferedOutput ω) : Bytes :=
  match c.make s with
  | .ok _ _ => c.bytes s
  | .error _ _ => []

def FailsFlushing (c : Call) (s : BufferedOutput ω) : Prop :=
  ∀ e t, c.make s = .error e t → empty s = .error e t

def FailsClean (c : Call) (s : BufferedOutput ω) : Prop :=
  ∀ e t, c.make s = .error e t → Sink.taken t.sink = Sink.taken s.sink

/-- The bytes that the sink takes in a call that fails. -/
def repeated (c : Call) (s : BufferedOutput ω) : Nat :=
  match c.make s with
  | .ok _ _ => 0
  | .error _ t => (Sink.taken t.sink).length - (Sink.taken s.sink).length

/-- Asking for room fails for no other reason, except beyond all memory. -/
theorem failsFlushing_ensure {n : Nat} (hn : n < allocationLimit) (s : BufferedOutput ω) :
    (ensure n).FailsFlushing s := by
  intro e t h
  change BufferedOutput.ensure n s = .error e t at h
  unfold BufferedOutput.ensure at h
  split at h
  · cases h
  · cases hempty : empty s with
    | error e' u => rw [hempty] at h; exact h
    | ok _ u =>
      simp only [hempty] at h
      split at h <;> cases h

/-- A write for which there is room does not fail. -/
theorem failsFlushing_write {bs : Bytes} (hbs : bs.length ≤ s.room) :
    (write bs).FailsFlushing s := by
  intro e t h
  change Output.bulkWrite bs s = .error e t at h
  simp only [Output.bulkWrite, bind_apply, get_apply, if_pos hbs] at h
  cases h

/-- After a call that fails no other way, what was held and committed is held, with what the sink
took in a failed flush between them. -/
theorem held_make (c : Call) (h : c.FailsFlushing s) :
    ∃ part : Bytes, held (final (c.make s)) =
        Sink.taken s.sink ++ part ++ s.filled.toList ++ c.committed s ∧
      part.length = c.repeated s := by
  have hleads := c.leads_make s
  cases hmake : c.make s with
  | ok _ t =>
    refine ⟨[], ?_, by simp [repeated, hmake]⟩
    rw [final_ok, c.make_ok hmake]
    simp [held, committed, hmake]
  | error e t =>
    rw [hmake, final_error] at hleads
    obtain ⟨part, hpart⟩ := hleads.grows
    refine ⟨part, ?_, ?_⟩
    · rw [final_error, held, ← hpart, empty_error (h e t hmake)]
      simp [committed, hmake]
    · simp [repeated, hmake, ← hpart]

/-- The sink gets bytes twice just where it has taken some of them in a call that fails. -/
theorem repeated_eq_zero (c : Call) (s : BufferedOutput ω) :
    c.repeated s = 0 ↔ c.FailsClean s := by
  have hleads := c.leads_make s
  unfold repeated FailsClean
  cases hmake : c.make s with
  | ok _ t => simp
  | error e t =>
    rw [hmake, final_error] at hleads
    obtain ⟨part, hpart⟩ := hleads.grows
    constructor
    · intro hzero e' t' herror
      cases herror
      dsimp only at hzero
      rw [← hpart] at hzero ⊢
      have hnil : part = [] := List.eq_nil_of_length_eq_zero (by simpa using hzero)
      rw [hnil, List.append_nil]
    · intro hclean
      dsimp only
      rw [hclean e t rfl, Nat.sub_self]

end Call

def after : List Call → BufferedOutput ω → BufferedOutput ω
  | [], s => s
  | c :: cs, s => after cs (final (c.make s))

def committed : List Call → BufferedOutput ω → Bytes
  | [], _ => []
  | c :: cs, s => c.committed s ++ committed cs (final (c.make s))

def repeated : List Call → BufferedOutput ω → Nat
  | [], _ => 0
  | c :: cs, s => c.repeated s + repeated cs (final (c.make s))

def FailFlushing : List Call → BufferedOutput ω → Prop
  | [], _ => True
  | c :: cs, s => c.FailsFlushing s ∧ FailFlushing cs (final (c.make s))

def FailClean : List Call → BufferedOutput ω → Prop
  | [], _ => True
  | c :: cs, s => c.FailsClean s ∧ FailClean cs (final (c.make s))

theorem repeated_eq_zero_iff (cs : List Call) (s : BufferedOutput ω) :
    repeated cs s = 0 ↔ FailClean cs s := by
  induction cs generalizing s with
  | nil => simp [repeated, FailClean]
  | cons c cs ih =>
    rw [repeated, FailClean, Nat.add_eq_zero_iff, ih, c.repeated_eq_zero]

/-- Nothing that was held or committed is lost, and its order is kept. -/
theorem sublist_held_after {cs : List Call} (h : FailFlushing cs s) :
    (held s ++ committed cs s).Sublist (held (after cs s)) := by
  induction cs generalizing s with
  | nil => rw [committed, List.append_nil, after]
  | cons c cs ih =>
    obtain ⟨hfirst, hrest⟩ := h
    obtain ⟨part, hheld, -⟩ := c.held_make hfirst
    refine List.Sublist.trans ?_ (ih hrest)
    rw [committed, hheld, held, ← List.append_assoc]
    refine List.Sublist.append_right (List.Sublist.append_right ?_ _) _
    exact (List.sublist_append_left _ part).append_right _

/-- There is more than that by the bytes that failed calls have handed over. -/
theorem length_held_after {cs : List Call} (h : FailFlushing cs s) :
    (held (after cs s)).length = (held s ++ committed cs s).length + repeated cs s := by
  induction cs generalizing s with
  | nil => simp [after, committed, repeated]
  | cons c cs ih =>
    obtain ⟨hfirst, hrest⟩ := h
    obtain ⟨part, hheld, hpart⟩ := c.held_make hfirst
    rw [after, ih hrest, hheld, committed, repeated]
    simp only [held, List.length_append, hpart]
    omega

/-- What is held is what was committed, just if no failed call has left bytes with the sink. -/
theorem held_after_eq_iff {cs : List Call} (h : FailFlushing cs s) :
    held (after cs s) = held s ++ committed cs s ↔ FailClean cs s := by
  rw [← repeated_eq_zero_iff]
  have hlength := length_held_after h
  constructor
  · intro heq
    rw [heq] at hlength
    omega
  · intro hzero
    rw [hzero, Nat.add_zero] at hlength
    exact ((sublist_held_after h).eq_of_length hlength.symm).symm

/-- At the end of a successful finish the sink has all that was held. -/
theorem finish_ok (h : finish s = .ok () t) : Sink.taken t.sink = held s := by
  obtain ⟨_, u, hempty, hflush⟩ := bind_eq_ok.mp h
  have htaken := Sink.taken_flush u.sink
  rw [← (empty_ok hempty).2, ← htaken]
  split at hflush
  · next hsink => cases hflush; rw [hsink, final_ok]
  · cases hflush

/-- Where calls fail only as they empty the buffer, a sink that took nothing in any such call has at
every moment taken a prefix of what was committed. A sink that is finished holds all that was
committed in order, and nothing else exactly if it took nothing in those calls. -/
theorem finish_exact_iff (sink : ω) (capacity : Nat) (cs : List Call)
    (h : FailFlushing cs (ofSink sink capacity)) :
    let s := ofSink sink capacity
    let all := Sink.taken sink ++ committed cs s
    (FailClean cs s → ∀ moment, Sink.Leads moment (after cs s).sink → Sink.taken moment <+: all) ∧
      ∀ t, finish (after cs s) = .ok () t →
        all.Sublist (Sink.taken t.sink) ∧ (Sink.taken t.sink = all ↔ FailClean cs s) := by
  intro s all
  have hall : held s ++ committed cs s = all := by rw [held_ofSink]
  have hexact := held_after_eq_iff h
  have hsublist := sublist_held_after h
  rw [hall] at hexact hsublist
  refine ⟨?_, ?_⟩
  · intro hclean moment hleads
    rw [← hexact.mpr hclean]
    exact hleads.grows.trans (List.prefix_append _ _)
  · intro t hfinish
    rw [finish_ok hfinish]
    exact ⟨hsublist, hexact⟩

def finished? (s : BufferedOutput ω) : Option Bytes :=
  match finish s with
  | .ok _ t => some (Sink.taken t.sink)
  | .error _ _ => none

theorem finished?_eq_some {bs : Bytes} (h : finished? s = some bs) :
    ∃ t, finish s = .ok () t ∧ Sink.taken t.sink = bs := by
  unfold finished? at h
  cases hfinish : finish s with
  | ok _ t =>
    rw [hfinish] at h
    exact ⟨t, rfl, Option.some.inj h⟩
  | error e t =>
    rw [hfinish] at h
    cases h

/-- The empty buffer over a sink that fails once, when it has taken so many bytes. -/
def stumbling (point : Nat) : BufferedOutput ScheduledSink :=
  ofSink ⟨#[], none, none, some (point, .other), none⟩ 16

/-- Two bytes, and a request for all of the buffer's room that is made again. -/
def retried : List Call :=
  [.write [1, 2], .ensure 16, .ensure 16]

theorem failFlushing_retried (point : Nat) : FailFlushing retried (stumbling point) := by
  refine ⟨Call.failsFlushing_write ?_, ?_, ?_, trivial⟩
  · show 2 ≤ 16 - 0
    decide
  · exact Call.failsFlushing_ensure (by decide) _
  · exact Call.failsFlushing_ensure (by decide) _

/-- After a failure before the first byte the two bytes arrive once. -/
theorem finish_exact_of_early_failure :
    FailFlushing retried (stumbling 0) ∧ FailClean retried (stumbling 0) ∧
      ∃ t, finish (after retried (stumbling 0)) = .ok () t ∧
        Sink.taken t.sink = Sink.taken (stumbling 0).sink ++ committed retried (stumbling 0) := by
  have hcalls := failFlushing_retried 0
  have hclean : FailClean retried (stumbling 0) :=
    (repeated_eq_zero_iff _ _).mp (by decide +kernel)
  have hfinished : finished? (after retried (stumbling 0)) = some [1, 2] := by decide +kernel
  obtain ⟨t, hfinish, -⟩ := finished?_eq_some hfinished
  exact ⟨hcalls, hclean, t, hfinish, ((finish_exact_iff _ 16 _ hcalls).2 t hfinish).2.mpr hclean⟩

/-- After a failure between the two bytes the first of them arrives twice. -/
theorem finish_repeats :
    FailFlushing retried (stumbling 1) ∧ committed retried (stumbling 1) = [1, 2] ∧
      ∃ t, finish (after retried (stumbling 1)) = .ok () t ∧ Sink.taken t.sink = [1, 1, 2] := by
  have hcommitted : committed retried (stumbling 1) = [1, 2] := by decide +kernel
  have hfinished : finished? (after retried (stumbling 1)) = some [1, 1, 2] := by decide +kernel
  exact ⟨failFlushing_retried 1, hcommitted, finished?_eq_some hfinished⟩

end BufferedOutput

end CborCodec
