import CborCodec.Proofs.Copying
import CborCodec.Proofs.Decoding
import CborCodec.Proofs.Supply
/-!
Decoders side by side. A decoder touches its input in a few ways only, so it follows another if
these do: reading a head, passing a null or a break, looking for a break, the check of what is
available and reading a chunk. An input that mirrors another, showing the same bytes and answering
requests for a head alike, has all of these from the other, and the pieces of a walk too.
-/

namespace CborCodec

section Passing

variable {σ α β : Type} [Input σ]

def passBreak : EStateM Error σ Bool := do
  if ← atBreak then
    Input.skip 1
    return true
  else
    return false

def passMissing (mode : Mode) : EStateM Error σ Bool := do
  let head ← peekHead mode
  if head.isMissing then
    Input.skip head.encodedLength
    return true
  else
    return false

theorem Consumes.passBreak : Consumes 0 (passBreak : EStateM Error σ Bool) :=
  .bind .atBreak fun _ => .ite (fun _ => .seq (.skip 1) (.pure _)) fun _ => .pure _

theorem Consumes.passMissing (mode : Mode) :
    Consumes 0 (passMissing mode : EStateM Error σ Bool) :=
  .bind (.peekHead mode) fun _ => .ite (fun _ => .seq (.skip _) (.pure _)) fun _ => .pure _

/-- One turn of the loop over elements, with the break passed in one step. -/
theorem untilBreak_eq (item : β → EStateM Error σ β) (allowance count : Nat) (b : β) :
    untilBreak item allowance count b = (do
      if ← passBreak then
        return (count, b)
      else
        match allowance with
        | 0 => throw .itemValueOutOfRange
        | allowance + 1 => untilBreak item allowance (count + 1) (← item b)) := by
  unfold passBreak
  rw [bind_assoc]
  cases allowance <;> rw [untilBreak] <;> congr 1 <;> funext ended <;> cases ended <;> rfl

theorem decodeOption_eq (options : Options) (x : EStateM Error σ α) :
    decodeOption options x = (do
      if ← passMissing options.mode then
        return none
      else
        return some (← x)) := by
  unfold decodeOption passMissing
  rw [bind_assoc]
  congr 1
  funext head
  by_cases h : head.isMissing
  · rw [if_pos h, if_pos h]
    rfl
  · rw [if_neg h, if_neg h]
    rfl

end Passing

theorem Follows.repeatItem {σ σ' β : Type} [Input σ] {C : Comparison σ σ'}
    {item : β → EStateM Error σ β} {item' : β → EStateM Error σ' β}
    (h : ∀ b, Follows C (item b) (item' b)) (n : Nat) (b : β) :
    Follows C (repeatItem item n b) (repeatItem item' n b) := by
  induction n generalizing b with
  | zero => exact .pure b
  | succ n ih => exact (h b).bind ih

structure DecodeFollows {σ σ' : Type} [Input σ] [Input σ'] (C : Comparison σ σ')
    (options : Options) : Prop where
  readHead : Follows C (readHead options.mode) (readHead options.mode)
  passMissing : Follows C (passMissing options.mode) (passMissing options.mode)
  atBreak : Follows C atBreak atBreak
  passBreak : Follows C passBreak passBreak
  checkAvailable : ∀ major count,
    Follows C (checkAvailable major count) (checkAvailable major count)
  readChunk : ∀ major length before,
    Follows C (readChunk options major length before) (readChunk options major length before)

namespace DecodeFollows

variable {σ σ' κ α β : Type} [Input σ] [Input σ'] {C : Comparison σ σ'} {options : Options}
  (h : DecodeFollows C options)

include h

theorem readChunkHead (major : Major) :
    Follows C (readChunkHead options major) (readChunkHead options major) :=
  h.readHead.bind fun _ => .ite (fun _ => .pure _) fun _ => .seq (.failIf _ _) (.pure _)

theorem readChunks (major : Major) (before : Array UInt8) :
    Follows C (readChunks options major before) (readChunks options major before) := by
  refine ⟨.readChunks _ _ _, ?_⟩
  intro s
  induction hn : (stream s).length using Nat.strong_induction_on generalizing before s with
  | _ n ih =>
    intro r hrel
    rw [readChunks_eq (σ := σ), readChunks_eq (σ := σ')]
    refine ((h.readChunkHead major).at_rel s r hrel).bind (fun chunk => ?_)
      fun chunk t u ht hrel => ?_
    · cases chunk with
      | none => exact .pure _
      | some length =>
        exact .bind (h.readChunk major length before).consumes fun _ => .readChunks _ _ _
    cases chunk with
    | none => exact (Follows.pure before).at_rel t u hrel
    | some length =>
      refine ((h.readChunk major length before).at_rel t u hrel).bind
        (fun _ => .readChunks _ _ _) fun after t' u' ht' hrel => ?_
      have hlt := (Consumes.readChunkHead options major).lt_of_ok ht
      have hle := (Consumes.readChunk options major length before).le_of_ok ht'
      exact ih _ (by omega) after t' rfl u' hrel

theorem readPayload (head : Head) :
    Follows C (readPayload options head) (readPayload options head) :=
  .bind (.ite (fun _ => h.readChunks _ _) fun _ => h.readChunk _ _ _) fun _ => .pure _

theorem readString (major : Major) :
    Follows C (readString options major) (readString options major) :=
  h.readHead.bind fun head => .seq (.failIf _ _) (h.readPayload head)

section Containers

variable {item : β → EStateM Error σ β} {item' : β → EStateM Error σ' β}

theorem untilBreak (hi : ∀ b, Follows C (item b) (item' b)) (allowance count : Nat) (b : β) :
    Follows C (untilBreak item allowance count b) (untilBreak item' allowance count b) := by
  induction allowance generalizing count b with
  | zero =>
    rw [untilBreak_eq, untilBreak_eq]
    exact h.passBreak.bind fun _ => .ite (fun _ => .pure _) fun _ => .throw _
  | succ allowance ih =>
    rw [untilBreak_eq, untilBreak_eq]
    exact h.passBreak.bind fun _ => .ite (fun _ => .pure _) fun _ => (hi b).bind (ih _)

theorem arrayItems (hi : ∀ b, Follows C (item b) (item' b)) (head : Head) (init : β) :
    Follows C (arrayItems options head item init) (arrayItems options head item' init) :=
  .ite (fun _ => h.untilBreak hi _ _ _) fun _ =>
    (h.checkAvailable _ _).seq (.seq (.failIf _ _)
      ((Follows.repeatItem hi _ _).bind fun _ => .pure _))

/-- The keys and values of a map follow if each does, however a value goes on with its key. -/
theorem mapItems {key : EStateM Error σ κ} {key' : EStateM Error σ' κ}
    {value : κ → β → EStateM Error σ β} {value' : κ → β → EStateM Error σ' β}
    (hk : Follows C key key') (hv : ∀ k b, Follows C (value k b) (value' k b)) (head : Head)
    (init : β) : Follows C (mapItems options head key value init)
      (mapItems options head key' value' init) := by
  have howed (k : κ) (b : β) : Follows C (owedValue value k b) (owedValue value' k b) :=
    h.atBreak.bind fun _ => .seq (.failIf _ _) (hv k b)
  exact .ite (fun _ => h.untilBreak (fun b => hk.bind fun k => howed k b) _ _ _) fun _ =>
    (h.checkAvailable _ _).seq (.seq (.failIf _ _)
      ((Follows.repeatItem (fun b => hk.bind fun k => hv k b) _ _).bind fun _ => .pure _))

end Containers

/-- The contents of two items follow each other if the items inside do. -/
theorem decodeContents {inner : Option (EStateM Error σ Value)}
    {inner' : Option (EStateM Error σ' Value)} (hi : Option.Rel (Follows C) inner inner')
    (head : Head) : Follows C (Value.decodeContents options inner head)
      (Value.decodeContents options inner' head) := by
  cases hm : head.major <;> simp only [Value.decodeContents, hm]
  case unsigned | negative => exact .pure _
  case bytes => exact (h.readPayload _).bind fun _ => .pure _
  case text => exact (h.readPayload _).bind fun _ => .bind (.known _) fun _ => .pure _
  case special => exact .known _
  all_goals
    cases hi with
    | none => exact .throw .maxNestingDepth
    | some hi => ?_
    simp only [Value.descend, pure_bind]
  case array => exact (h.arrayItems (fun _ => hi.bind fun _ => .pure _) _ _).bind fun _ => .pure _
  case map => exact (h.mapItems hi (fun _ _ => hi.bind fun _ => .pure _) _ _).bind fun _ => .pure _
  case tag => exact hi.bind fun _ => .pure _

theorem decodeWithin (depth : Nat) :
    Follows C (Value.decodeWithin options depth) (Value.decodeWithin options depth) := by
  induction depth with
  | zero => exact h.readHead.bind fun head => h.decodeContents .none head
  | succ depth ih => exact h.readHead.bind fun head => h.decodeContents (.some ih) head

theorem decodeOption {x : EStateM Error σ α} {y : EStateM Error σ' α} (hx : Follows C x y) :
    Follows C (decodeOption options x) (decodeOption options y) := by
  rw [decodeOption_eq, decodeOption_eq]
  exact h.passMissing.bind fun _ => .ite (fun _ => .pure _) fun _ => hx.bind fun _ => .pure _

/-- Every typed decoder follows if the pieces do. -/
theorem decode (t : Target) : Follows C (t.decode options) (t.decode options) := by
  have hdouble : Follows C (decodeDouble options) (decodeDouble options) :=
    h.readHead.bind fun _ => .known _
  induction t with
  | integer t => exact h.readHead.bind fun _ => .bind (.known _) fun _ => .known _
  | bool => exact h.readHead.bind fun _ => .known _
  | single => exact hdouble.bind fun _ => .known _
  | double => exact hdouble
  | text => exact (h.readString _).bind fun _ => .known _
  | bytes => exact h.readString _
  | value => exact h.decodeWithin _
  | option t ih => exact h.decodeOption ih

end DecodeFollows

section Mirroring

variable {S S' τ α β : Type} [Input S] [Input S'] {C : Comparison S S'}

omit [Input S'] in
/-- What is done with the state follows if it does from related states. -/
theorem Follows.get {f : S → EStateM Error S α} {g : S' → EStateM Error S' α}
    (hc : ∀ s, Consumes 0 (f s)) (h : ∀ s r, C.rel s r → FollowsAt C (f s) (g r) s r) :
    Follows C (MonadState.get >>= f) (MonadState.get >>= g) :=
  ⟨.bind .get hc, h⟩

section Gathering

variable {n : Nat} {acc : Array UInt8} {s t : S}

theorem Cursor.gather_error {e : Fault} (hn : n ≠ 0) (h : require 1 s = .error e t) :
    gather n acc s = .error e t := by
  rw [gather, if_neg hn]
  split
  · next hrun =>
    rw [h] at hrun
    cases hrun
    rfl
  · next hrun =>
    rw [h] at hrun
    cases hrun

/-- One turn of a bulk read takes what is resident and still wanted. -/
theorem Cursor.gather_turn (hn : n ≠ 0) (h : require 1 s = .ok () t) :
    gather n acc s = gather (n - min n (window t).size)
      (acc ++ (window t).toList.take (min n (window t).size))
      (discard (min n (window t).size) t) := by
  rw [gather, if_neg hn]
  split
  · next hrun =>
    rw [h] at hrun
    cases hrun
  · next hrun =>
    rw [h] at hrun
    cases hrun
    rfl

def gathered {σ : Type} [Input σ] (n : Nat) (acc : Array UInt8) : EStateM Error σ Bytes :=
  EStateM.adaptExcept Error.ofFault (Cursor.gather n acc)

theorem Consumes.gathered (n : Nat) (acc : Array UInt8) :
    Consumes 0 (gathered n acc : EStateM Error S Bytes) :=
  .adaptExcept fun s => by
    obtain ⟨bs, hadv, -⟩ := Cursor.exists_advances_gather n acc s
    exact ⟨bs, hadv, fun _ _ _ => Nat.zero_le _⟩

theorem gathered_zero (acc : Array UInt8) :
    (gathered 0 acc : EStateM Error S Bytes) = pure acc.toList := by
  funext s
  simp only [gathered, EStateM.adaptExcept]
  rw [Cursor.gather, if_pos rfl]
  rfl

/-- Bytes are gathered by making one resident and taking what is resident with it. -/
theorem gathered_of_ne (hn : n ≠ 0) (acc : Array UInt8) :
    (gathered n acc : EStateM Error S Bytes) = (do
      Input.need 1
      let t ← MonadState.get
      Input.skip (min n (window t).size)
      gathered (n - min n (window t).size)
        (acc ++ (window t).toList.take (min n (window t).size))) := by
  funext s
  rw [bind_apply]
  simp only [gathered, Input.need, EStateM.adaptExcept]
  cases h : (Cursor.require 1 s : EStateM.Result Fault S Unit) with
  | error e t => rw [Cursor.gather_error hn h]
  | ok _ t =>
    rw [Cursor.gather_turn hn h]
    rfl

end Gathering

/-- Related states show the same, as many bytes as a head can have are made resident on both sides
or on neither, and both are moved past. -/
structure Mirrors (C : Comparison S S') : Prop where
  window_eq : ∀ {s r}, C.rel s r → window r = window s
  available_eq : ∀ {s r}, C.rel s r → available r = available s
  need : ∀ n ≤ 9, Follows C (Input.need n) (Input.need n)
  skip : ∀ n, Follows C (Input.skip n) (Input.skip n)

namespace Mirrors

/-- Of inputs that mirror each other the same head is seen. -/
theorem peekHead (h : Mirrors C) (mode : Mode) : Follows C (peekHead mode) (peekHead mode) := by
  have hexactly : Follows C peekHeadExactly peekHeadExactly := by
    refine (h.need 1 (by decide)).bind fun _ => .get (fun _ => .seq (.need _) (.bind .get
      fun _ => .known _)) fun s r hrel => ?_
    rw [h.window_eq hrel]
    -- The first byte, which both show, tells how many more there are.
    refine Follows.at_rel ?_ s r hrel
    refine (h.need _ (Head.announcedLength_le _)).bind fun _ => .get (fun _ => .known _)
      fun s r hrel => ?_
    rw [h.window_eq hrel]
    exact (Follows.known _).at_rel s r hrel
  have hany : Follows C peekAnyHead peekAnyHead := by
    refine ⟨.peekAnyHead, fun s r hrel => ?_⟩
    unfold FollowsAt peekAnyHead
    rw [h.window_eq hrel]
    cases Lookahead.ofBytes? (window s).toList with
    | some ahead => exact (Follows.known ahead.head).at_rel s r hrel
    | none => exact hexactly.at_rel s r hrel
  exact hany.bind fun head => .seq (.known (head.check mode)) (.pure head)

theorem atBreak (h : Mirrors C) : Follows C atBreak atBreak := by
  refine (h.need 1 (by decide)).bind fun _ => .get (fun _ => .pure _) fun s r hrel => ?_
  rw [h.window_eq hrel]
  exact (Follows.pure _).at_rel s r hrel

theorem checkAvailable (h : Mirrors C) (major : Major) (count : Nat) :
    Follows C (checkAvailable major count) (checkAvailable major count) := by
  refine .get (fun _ => .failIf _ _) fun s r hrel => ?_
  rw [h.available_eq hrel]
  exact (Follows.failIf _ _).at_rel s r hrel

/-- A decoder that also reads payloads alike follows. -/
theorem decoding (h : Mirrors C) (hread : ∀ n, Follows C (Input.read n) (Input.read n))
    (options : Options) : DecodeFollows C options where
  readHead := (h.peekHead _).bind fun _ => (h.skip _).seq (.pure _)
  passMissing := (h.peekHead _).bind fun _ =>
    .ite (fun _ => (h.skip _).seq (.pure _)) fun _ => .pure _
  atBreak := h.atBreak
  passBreak := h.atBreak.bind fun _ => .ite (fun _ => (h.skip _).seq (.pure _)) fun _ => .pure _
  checkAvailable := h.checkAvailable
  readChunk _ length _ := .seq ((h.checkAvailable _ _).seq (.failIf _ _))
    (.seq (.failIf _ _) ((hread length).bind fun _ => .seq (.failIf _ _) (.pure _)))

/-- The bulk read that takes a resident window at a time follows. -/
theorem gather (h : Mirrors C) (n : Nat) (acc : Array UInt8) :
    Follows C (gathered n acc) (gathered n acc) := by
  refine ⟨.gathered n acc, ?_⟩
  induction n using Nat.strong_induction_on generalizing acc with
  | _ n ih =>
    intro s r hrel
    by_cases hn : n = 0
    · rw [hn, gathered_zero, gathered_zero]
      exact (Follows.pure _).at_rel s r hrel
    rw [gathered_of_ne hn, gathered_of_ne hn]
    refine ((h.need 1 (by decide)).at_rel s r hrel).bind (fun _ => .bind .get fun _ =>
      .seq (.skip _) (.gathered _ _)) fun _ t u ht hrel => ?_
    have hsize := size_of_need ht
    change FollowsAt C (Input.skip (min n (window t).size) >>= fun _ => gathered _ _)
      (Input.skip (min n (window u).size) >>= fun _ => gathered _ _) t u
    rw [h.window_eq hrel]
    exact ((h.skip _).at_rel t u hrel).bind (fun _ => .gathered _ _)
      fun _ t u _ hrel => ih _ (by omega) _ t u hrel

end Mirrors

def Comparison.beside (C : Comparison S S') (τ : Type) : Comparison (S × τ) (S' × τ) where
  rel s r := C.rel s.1 r.1 ∧ r.2 = s.2
  excused := C.excused
  live s := C.live s.1
  live_of_advances h := C.live_of_advances h

omit [Input S'] in
/-- Actions that follow each other do so beside any output. -/
theorem Follows.onFirst {x : EStateM Error S α} {y : EStateM Error S' α} (h : Follows C x y) :
    Follows (C.beside τ) (onFirst x) (onFirst y) := by
  constructor
  · rintro ⟨s, o⟩
    obtain ⟨bs, hadv, -⟩ := h.consumes s
    refine ⟨bs, ?_, fun _ _ _ => Nat.zero_le _⟩
    rw [final_onFirst]
    exact hadv
  · rintro ⟨s, o⟩ ⟨r, p⟩ ⟨hrel, rfl⟩ hlive
    rw [final_onFirst] at hlive
    have hat := h.at_rel s r hrel hlive
    simp only [CborCodec.onFirst]
    cases hx : x s with
    | ok a t =>
      rw [hx] at hat
      obtain ⟨u, hu, hrel⟩ := hat
      exact ⟨(u, p), by rw [hu], hrel, rfl⟩
    | error e t =>
      rw [hx] at hat
      refine hat.imp_right ?_
      rintro ⟨u, hu, hrel⟩
      exact ⟨(u, p), by rw [hu], hrel, rfl⟩

omit [Input S'] in
theorem Follows.onSecond (x : EStateM Error τ α) :
    Follows (C.beside τ) (onSecond x) (onSecond x) := by
  refine ⟨.onSecond x, ?_⟩
  rintro ⟨s, o⟩ ⟨r, p⟩ ⟨hrel, rfl⟩
  cases hx : x p with
  | ok a q =>
    have hs : CborCodec.onSecond x (s, p) = .ok a (s, q) := by simp only [CborCodec.onSecond, hx]
    have hr : CborCodec.onSecond x (r, p) = .ok a (r, q) := by simp only [CborCodec.onSecond, hx]
    exact .of_ok hs fun _ => ⟨(r, q), hr, hrel, rfl⟩
  | error e q =>
    have hs : CborCodec.onSecond x (s, p) = .error e (s, q) := by
      simp only [CborCodec.onSecond, hx]
    have hr : CborCodec.onSecond x (r, p) = .error e (r, q) := by
      simp only [CborCodec.onSecond, hx]
    exact .of_error hs fun _ => ⟨(r, q), hr, hrel, rfl⟩

namespace Mirrors

theorem beside (h : Mirrors C) (τ : Type) : Mirrors (C.beside τ) where
  window_eq hrel := h.window_eq hrel.1
  available_eq hrel := h.available_eq hrel.1
  need n hn := by
    rw [← onFirst_need, ← onFirst_need]
    exact (h.need n hn).onFirst
  skip n := (h.skip n).onFirst

variable [Output τ]

/-- A payload is moved in the same windows from inputs that mirror each other. -/
theorem transfer (h : Mirrors C) (n : Nat) :
    Follows (C.beside τ) (transfer n) (transfer n) := by
  refine ⟨(Consumes.transfer n).mono (Nat.zero_le n), ?_⟩
  induction n using Nat.strong_induction_on with
  | _ n ih =>
    intro s r hrel
    by_cases hn : n = 0
    · rw [hn]
      exact .of_ok (transfer_zero s) fun _ => ⟨r, transfer_zero r, hrel⟩
    rw [transfer_of_ne (σ := S) hn, transfer_of_ne (σ := S') hn]
    have hrest (k : Nat) : Consumes 0 (CborCodec.transfer k : EStateM Error (S × τ) Unit) :=
      (Consumes.transfer k).mono (Nat.zero_le k)
    refine (((h.beside τ).need 1 (by decide)).at_rel s r hrel).bind (fun _ => .bind .get fun _ =>
      .seq (.onSecond _) (.seq (.skip _) (hrest _))) fun _ t u ht hrel => ?_
    have hsize := size_of_need ht
    change FollowsAt (C.beside τ)
      (onSecond (Output.put ((window t).toList.take (min (window t).size n))) >>= fun _ =>
        Input.skip (min (window t).size n) >>= fun _ => CborCodec.transfer _)
      (onSecond (Output.put ((window u).toList.take (min (window u).size n))) >>= fun _ =>
        Input.skip (min (window u).size n) >>= fun _ => CborCodec.transfer _) t u
    rw [(h.beside τ).window_eq hrel]
    refine ((Follows.onSecond _).at_rel t u hrel).bind (fun _ => .seq (.skip _) (hrest _))
      fun _ t u _ hrel => ?_
    exact (((h.beside τ).skip _).at_rel t u hrel).bind (fun _ => hrest _)
      fun _ t u _ hrel => ih _ (by omega) t u hrel

/-- A walk follows over the input that it mirrors, whatever it writes to. -/
theorem walking (h : Mirrors C) (options : Options) : WalkFollows (C.beside τ) options where
  takeHead := by
    refine ((h.beside τ).peekHead _).bind fun head => .get
      (fun _ => .seq (.onSecond _) (.seq (.skip _) (.pure _))) fun s r hrel => ?_
    rw [(h.beside τ).window_eq hrel]
    exact Follows.at_rel (.seq (.onSecond _) (.seq ((h.beside τ).skip _) (.pure _))) s r hrel
  checkAvailable := (h.beside τ).checkAvailable
  tryClose frame := (h.beside τ).atBreak.bind fun _ => .ite
    (fun _ => .seq (.seq (.failIf _ _) (.seq (.onSecond _) ((h.beside τ).skip 1))) (.pure _))
    fun _ => .pure _
  transfer := h.transfer

end Mirrors

end Mirroring

end CborCodec
