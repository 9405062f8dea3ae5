import CborCodec.Proofs.Contents
import CborCodec.Proofs.Walking
import CborCodec.Sequence
import CborCodec.Typed
/-!
The value decoder and the walk agree. The decoder recurses and the walk keeps a stack, so the one
is compared with the other in front of any stack: where the decoder has read a value the walk goes
on over what is open below, from the same place in the input; where the decoder fails the walk
fails alike, but for the few failures that only a decoder knows.
-/

namespace CborCodec

variable {σ τ α β γ : Type} [Input σ]

section Lifting

omit [Input σ] in
theorem onFirst_bind (x : EStateM Error σ α) (f : α → EStateM Error σ β) :
    (onFirst (x >>= f) : EStateM Error (σ × τ) β) = onFirst x >>= fun a => onFirst (f a) := by
  funext ⟨s, o⟩
  simp only [onFirst, bind_apply]
  cases x s <;> rfl

omit [Input σ] in
theorem onFirst_known (e : Except Error α) :
    (onFirst (known e) : EStateM Error (σ × τ) α) = known e := by
  cases e <;> rfl

omit [Input σ] in
theorem onFirst_failIf (c : Prop) [Decidable c] (e : Error) :
    (onFirst (failIf c e) : EStateM Error (σ × τ) Unit) = failIf c e := by
  by_cases h : c <;> simp only [failIf, if_pos, if_neg, h, not_false_eq_true] <;> rfl

theorem onFirst_need (n : Nat) :
    (onFirst (Input.need n) : EStateM Error (σ × τ) Unit) = Input.need n := by
  funext ⟨s, o⟩
  change _ = EStateM.adaptExcept Error.ofFault (onFirst (Cursor.require n)) (s, o)
  simp only [onFirst, Input.need, EStateM.adaptExcept]
  cases (Cursor.require n s : EStateM.Result Fault σ Unit) <;> rfl

theorem onFirst_atBreak : (onFirst atBreak : EStateM Error (σ × τ) Bool) = atBreak := by
  unfold atBreak
  rw [onFirst_bind, onFirst_need]
  rfl

theorem onFirst_peekHeadExactly :
    (onFirst peekHeadExactly : EStateM Error (σ × τ) Head) = peekHeadExactly := by
  have hget (f : σ → EStateM Error σ Head) :
      (onFirst (get >>= f) : EStateM Error (σ × τ) Head) = get >>= fun s => onFirst (f s.1) := rfl
  unfold peekHeadExactly
  rw [onFirst_bind, onFirst_need]
  simp only [hget, onFirst_bind, onFirst_need, onFirst_known]
  rfl

theorem onFirst_peekHead (mode : Mode) :
    (onFirst (peekHead mode) : EStateM Error (σ × τ) Head) = peekHead mode := by
  have hany : (onFirst peekAnyHead : EStateM Error (σ × τ) Head) = peekAnyHead := by
    funext ⟨s, o⟩
    have hwindow : window (s, o) = window s := rfl
    simp only [onFirst, peekAnyHead, hwindow]
    cases Lookahead.ofBytes? (window s).toList with
    | some ahead => exact congrFun (onFirst_known ahead.head) (s, o)
    | none => exact congrFun onFirst_peekHeadExactly (s, o)
  unfold peekHead
  rw [onFirst_bind, hany]
  simp only [onFirst_bind, onFirst_known]
  rfl

theorem onFirst_checkAvailable (major : Major) (count : Nat) :
    (onFirst (checkAvailable major count) : EStateM Error (σ × τ) Unit) =
      checkAvailable major count := by
  funext ⟨s, o⟩
  exact congrFun (onFirst_failIf _ _) (s, o)

omit [Input σ] in
theorem onFirst_checkItems (options : Options) (count : Nat) :
    (onFirst (checkItems options count) : EStateM Error (σ × τ) Unit) =
      checkItems options count := onFirst_failIf _ _

theorem onFirst_checkChunk (options : Options) (length total : Nat) :
    (onFirst (checkChunk options length total) : EStateM Error (σ × τ) Unit) =
      checkChunk options length total := by
  unfold checkChunk
  rw [onFirst_bind, onFirst_checkAvailable]
  simp only [onFirst_failIf]

end Lifting

/-- Where the first action succeeds the second comes to what is continued with, in the same place;
where it fails the second fails alike, unless the failure is excused. -/
def ShadowsAt (excused : Error → Prop) (x : EStateM Error σ α) (y : α → EStateM Error (σ × τ) β)
    (z : EStateM Error (σ × τ) β) (s : σ) (o : τ) : Prop :=
  match x s with
  | .ok a t => ∃ o', z (s, o) = y a (t, o')
  | .error e _ => excused e ∨ ∃ t, z (s, o) = .error e t

namespace ShadowsAt

variable {excused : Error → Prop} {x : EStateM Error σ α} {y : α → EStateM Error (σ × τ) β}
  {z : EStateM Error (σ × τ) β} {s : σ} {o : τ}

omit [Input σ] in
theorem mono {more : Error → Prop} (h : ShadowsAt excused x y z s o)
    (hmore : ∀ e, excused e → more e) : ShadowsAt more x y z s o := by
  unfold ShadowsAt at h ⊢
  cases hx : x s with
  | ok a t => simpa only [hx] using h
  | error e t =>
    simp only [hx] at h
    exact h.imp_left (hmore e)

omit [Input σ] in
theorem pure (a : α) : ShadowsAt excused (Pure.pure a) y (y a) s o := ⟨o, rfl⟩

omit [Input σ] in
theorem excuse {e : Error} (h : excused e) : ShadowsAt excused (throw e) y z s o := Or.inl h

omit [Input σ] in
theorem fail (e : Error) : ShadowsAt excused (throw e) y (throw e) s o := Or.inr ⟨_, rfl⟩

omit [Input σ] in
/-- A sequence is shadowed if its first action is, and what follows a success of it. -/
theorem bind {f : α → EStateM Error σ γ} {w : γ → EStateM Error (σ × τ) β}
    (hx : ShadowsAt excused x y z s o)
    (hf : ∀ a t o', x s = .ok a t → ShadowsAt excused (f a) w (y a) t o') :
    ShadowsAt excused (x >>= f) w z s o := by
  unfold ShadowsAt at hx ⊢
  rw [bind_apply]
  cases h : x s with
  | ok a t =>
    simp only [h] at hx
    obtain ⟨o', ho⟩ := hx
    rw [ho]
    exact hf a t o' h
  | error e t => simpa only [h] using hx

omit [Input σ] in
/-- An action that both take on the input. -/
theorem both {x' : EStateM Error (σ × τ) α} {f : α → EStateM Error σ γ}
    {w : γ → EStateM Error (σ × τ) β} (h : onFirst x = x')
    (hf : ∀ a t, x s = .ok a t → ShadowsAt excused (f a) w (y a) t o) :
    ShadowsAt excused (x >>= f) w (x' >>= y) s o := by
  subst h
  unfold ShadowsAt
  rw [bind_apply, bind_apply]
  cases hx : x s with
  | ok a t =>
    simp only [onFirst, hx]
    exact hf a t hx
  | error e t =>
    simp only [onFirst, hx]
    exact Or.inr ⟨_, rfl⟩

omit [Input σ] in
/-- A check of the first action only, whose failure is excused. -/
theorem guard {c : Prop} [Decidable c] {e : Error} {f : Unit → EStateM Error σ α}
    (hc : c → excused e) (h : ¬c → ShadowsAt excused (f ()) y z s o) :
    ShadowsAt excused (failIf c e >>= f) y z s o := by
  by_cases hcond : c
  · rw [failIf, if_pos hcond]
    exact Or.inl (hc hcond)
  · rw [failIf, if_neg hcond, pure_bind]
    exact h hcond

omit [Input σ] in
/-- What the first action answers does not matter where the continuation ignores it. -/
theorem map {y : EStateM Error (σ × τ) β} (g : α → γ) (h : ShadowsAt excused x (fun _ => y) z s o) :
    ShadowsAt excused (do return g (← x)) (fun _ => y) z s o :=
  h.bind fun _ _ _ _ => pure (y := fun _ => y) _

end ShadowsAt

section Heads

variable [Output τ] [Endless τ]

/-- Copying a head reads it. -/
theorem shadows_readHead (excused : Error → Prop) (mode : Mode)
    (y : Head → EStateM Error (σ × τ) β) (s : σ) (o : τ) :
    ShadowsAt excused (readHead mode) y (takeHead mode >>= y) s o := by
  unfold readHead takeHead
  simp only [bind_assoc]
  refine .both (onFirst_peekHead mode) ?_
  intro head t _
  obtain ⟨u, hu⟩ := onSecond_ok (s := (t, o))
    (Endless.putHead_ok ((window t).toList.take head.encodedLength) o)
  obtain ⟨v, o'⟩ := u
  obtain rfl : v = t := fst_of_onSecond hu
  refine ⟨o', ?_⟩
  have hemit : (emitHead ((window (v, o)).toList.take head.encodedLength) :
      EStateM Error (σ × τ) Unit) (v, o) = .ok () (v, o') := hu
  rw [bind_apply, get_apply]
  dsimp only
  rw [bind_apply, hemit]
  rfl

end Heads

section Strings

/-- In memory the bytes that are moved past determine the state. -/
theorem MemoryInput.eq_of_advances {s t u : MemoryInput} {bs : Bytes} (ht : Advances s bs t)
    (hu : Advances s bs u) : t = u := by
  have hstream : stream t = stream u := List.append_cancel_left (ht.1.symm.trans hu.1)
  have hpos : position t = position u := ht.2.trans hu.2.symm
  obtain ⟨rest, offset⟩ := t
  obtain ⟨rest', offset'⟩ := u
  obtain rfl : rest = rest' := Window.ext hstream
  obtain rfl : offset = offset' := hpos
  rfl

variable [Output τ] [Endless τ] {excused : Error → Prop} {y : EStateM Error (MemoryInput × τ) β}

/-- Bytes that are there are transferred as they are read. -/
theorem shadows_read {n : Nat} {s : MemoryInput} {o : τ} (h : n ≤ (stream s).length) :
    ShadowsAt excused (Input.read n) (fun _ => y) (transfer n >>= fun _ => y) s o := by
  have hlen : ((stream s).take n).length = n := List.length_take_of_le h
  have hstream : stream s = (stream s).take n ++ (stream s).drop n :=
    (List.take_append_drop n _).symm
  obtain ⟨t, ht, hadv⟩ := Accepts.read hlen s _ hstream
  obtain ⟨⟨u, o'⟩, hu, hadv'⟩ := Accepts.transfer (τ := τ) hlen (s, o) _ hstream
  obtain rfl : t = u := MemoryInput.eq_of_advances hadv hadv'
  unfold ShadowsAt
  rw [ht]
  exact ⟨o', (bind_apply (transfer n) (fun _ => y) (s, o)).trans (by rw [hu])⟩

/-- A chunk is moved where it is read; only invalid text and want of memory are failures of the
reader alone. -/
theorem shadows_readChunk (options : Options) (major : Major) (length : Nat)
    (before : Array UInt8) {s : MemoryInput} {o : τ} (htext : excused .invalidUtf8)
    (hmemory : allocationLimit ≤ before.size + (stream s).length → excused .notEnoughMemory) :
    ShadowsAt excused (readChunk options major length before) (fun _ => y)
      (transferChunk options length before.size >>= fun _ => y) s o := by
  have htransfer : (transferChunk options length before.size >>= fun _ => y) =
      checkChunk options length before.size >>= fun _ => transfer length >>= fun _ => y :=
    bind_assoc _ _ _
  rw [htransfer]
  refine .both (onFirst_checkChunk _ _ _) ?_
  intro _ t ht
  obtain ⟨hlen, -, rfl⟩ := checkChunk_eq_ok.1 ht
  have hlen' : length ≤ (stream s).length := hlen.trans s.rest.size_eq.le
  -- The checks of memory and of UTF-8 are the reader's alone.
  refine .guard (fun hm => hmemory (hm.trans (by omega))) ?_
  intro _
  refine (shadows_read hlen').bind ?_
  intro chunk u o' _
  refine .guard (fun _ => htext) ?_
  intro _
  exact .pure (y := fun _ => y) _

theorem shadows_readChunkHead (options : Options) (major : Major)
    {y : Option Nat → EStateM Error (MemoryInput × τ) β} {s : MemoryInput} {o : τ} :
    ShadowsAt excused (readChunkHead options major) y (takeChunkHead options major >>= y) s o := by
  rw [readChunkHead_eq, takeChunkHead_eq, bind_assoc]
  refine (shadows_readHead excused options.mode _ s o).bind ?_
  intro head t o' _
  unfold chunkLength
  cases hb : head.isBreak with
  | true => exact .pure none
  | false =>
    simp only [Bool.false_eq_true, if_false, bind_assoc, pure_bind]
    exact .both (onFirst_failIf _ _) fun _ u _ => .pure _

/-- The chunks of a string are transferred as they are put together. -/
theorem shadows_readChunks (options : Options) (major : Major) (before : Array UInt8)
    {s : MemoryInput} {o : τ} (htext : excused .invalidUtf8)
    (hmemory : allocationLimit ≤ before.size + (stream s).length → excused .notEnoughMemory) :
    ShadowsAt excused (readChunks options major before) (fun _ => y)
      (transferChunks options major before.size >>= fun _ => y) s o := by
  -- The induction is on what is left, which every chunk head makes less.
  induction hn : (stream s).length using Nat.strong_induction_on generalizing s o before with
  | _ n ih =>
    rw [readChunks_eq, transferChunks_eq, bind_assoc]
    refine (shadows_readChunkHead options major).bind ?_
    intro r t o' ht
    have hhead := (Consumes.readChunkHead options major).le_of_ok ht
    cases r with
    | none => exact .pure (y := fun _ => y) before
    | some length =>
      have hassoc : ((transferChunk options length before.size >>= fun _ =>
          transferChunks options major (before.size + length)) >>= fun _ => y) =
          transferChunk options length before.size >>= fun _ =>
            transferChunks options major (before.size + length) >>= fun _ => y := bind_assoc _ _ _
      dsimp only
      rw [hassoc]
      refine (shadows_readChunk options major length before htext fun h => hmemory ?_).bind
        fun after u o'' hu => ?_
      · omega
      · have hchunk := (Consumes.readChunk options major length before).le_of_ok hu
        obtain ⟨chunk, -, hafter, hlen, -⟩ :=
          Reads.readChunk options major length before t after u hu
        have hsize : after.size = before.size + length := by
          rw [← Array.length_toList, hafter, List.length_append, hlen, Array.length_toList]
        rw [← hsize]
        exact ih _ (by omega) after (fun h => hmemory (by omega)) rfl

end Strings

section Containers

variable {ε : Type} [Output τ] [Endless τ] {excused : Error → Prop} {options : Options}
  {item : EStateM Error σ ε} {n : Nat} {s : σ} {o : τ}

def ItemShadows (τ : Type) [Output τ] (excused : Error → Prop) (options : Options) (n : Nat)
    (item : EStateM Error σ ε) : Prop :=
  ∀ (below : List Frame) (s : σ) (o : τ), (stream s).length ≤ n →
    ShadowsAt excused item (fun _ => resume options below) (walkItem options below) s o

omit [Output τ] [Endless τ] in
/-- Elements whose number is known are walked over one after another. -/
theorem shadows_repeatItem {z : Nat → EStateM Error (σ × τ) β} (hc : Consumes 0 item)
    (hitem : ∀ k s o, (stream s).length ≤ n → ShadowsAt excused item (fun _ => z k) (z (k + 1)) s o)
    (k : Nat) (done : List ε) (hs : (stream s).length ≤ n) :
    ShadowsAt excused (repeatItem (collect item) k done) (fun _ => z 0) (z k) s o := by
  induction k generalizing done s o with
  | zero => exact .pure (y := fun _ => z 0) done
  | succ k ih =>
    refine ((hitem k s o hs).map (· :: done)).bind fun done' t o' ht => ih done' ?_
    obtain ⟨a, u, hu, hcollect⟩ := bind_eq_ok.1 ht
    obtain ⟨rfl, rfl⟩ := pure_eq_ok.1 hcollect
    have hle := hc.le_of_ok hu
    omega

/-- Both end a container at a break. -/
theorem shadows_break {frame : Frame} {a : α} {y : EStateM Error (σ × τ) β}
    (howed : frame.owed = false) :
    ShadowsAt excused (do Input.skip 1; return a : EStateM Error σ α) (fun _ => y)
      (do closeContainer frame; y) s o := by
  obtain ⟨⟨t, o'⟩, hu⟩ := onSecond_ok (s := (s, o)) (Endless.putHead_ok [breakByte] o)
  obtain rfl : t = s := fst_of_onSecond hu
  have hclose : closeContainer frame (t, o) = .ok () (Cursor.discard 1 t, o') :=
    bind_eq_ok.2 ⟨(), (t, o), failIf_eq_ok.2 ⟨by simp [howed], rfl⟩,
      bind_eq_ok.2 ⟨(), (t, o'), hu, rfl⟩⟩
  refine ⟨o', ?_⟩
  rw [bind_apply, hclose]

/-- Elements up to a break are walked over one after another, unless the decoder stops earlier at
its limit on them. -/
theorem shadows_untilBreak {frame : Frame} {below : List Frame} (hc : Consumes 1 item)
    (hm : frame.major = .array ∨ frame.major = .map) (hi : frame.indefinite = true)
    (howed : frame.owed = false)
    (hitem : ∀ s o, (stream s).length ≤ n → ShadowsAt excused item
      (fun _ => resume options (frame :: below)) (walkItem options (frame.advance :: below)) s
      (o : τ))
    {allowance count : Nat} {done : List ε} (hs : (stream s).length ≤ n)
    (hlimit : allowance < (stream s).length → excused .itemValueOutOfRange) :
    ShadowsAt excused (untilBreak (collect item) allowance count done)
      (fun _ => resume options below) (resume options (frame :: below)) s o := by
  induction allowance generalizing count done s o with
  | zero =>
    rw [resume_indefinite hm hi]
    refine .both onFirst_atBreak ?_
    intro ended t ht
    obtain ⟨hadv, hsize, -⟩ := atBreak_eq_ok ht
    have hlen := hadv.length_eq
    have hpos := Cursor.size_le_length t
    cases ended with
    | true => exact shadows_break howed
    | false =>
      -- There is a byte that is no break, so the limit was below what is left.
      exact .excuse (hlimit (by omega))
  | succ allowance ih =>
    rw [resume_indefinite hm hi]
    refine .both onFirst_atBreak ?_
    intro ended t ht
    have hlen := (atBreak_eq_ok ht).1.length_eq
    rw [List.length_nil, Nat.zero_add] at hlen
    cases ended with
    | true => exact shadows_break howed
    | false =>
      refine ((hitem t o (by omega)).map (· :: done)).bind ?_
      intro done' u o' hu
      obtain ⟨a, v, hv, hcollect⟩ := bind_eq_ok.1 hu
      obtain ⟨rfl, rfl⟩ := pure_eq_ok.1 hcollect
      have hle := hc.le_of_ok hv
      exact ih (by omega) fun h => hlimit (by omega)

def Frame.left (head : Head) (remaining : Nat) (owed : Bool) : Frame :=
  ⟨head.major, head.indefinite, remaining, owed⟩

omit [Output τ] [Endless τ] in
theorem checkDeclared_indefinite {head : Head} (hi : head.indefinite = true) :
    (checkDeclared options head : EStateM Error (σ × τ) Unit) = pure () :=
  if_neg (by simp [hi])

omit [Output τ] [Endless τ] in
theorem checkDeclared_definite {head : Head} (hm : head.major = .array ∨ head.major = .map)
    (hi : head.indefinite = false) :
    (checkDeclared options head : EStateM Error (σ × τ) Unit) = (do
      checkAvailable head.major head.value.toNat
      checkItems options head.value.toNat) :=
  if_pos ⟨hm, by simp [hi]⟩

omit [Endless τ] in
theorem resume_left {head : Head} (hm : head.major = .array ∨ head.major = .map)
    (hi : head.indefinite = false) (below : List Frame) (k : Nat) (owed : Bool) :
    (resume options (Frame.left head (k + 1) owed :: below) : EStateM Error (σ × τ) Unit) =
      walkItem options
        (Frame.left head k (if head.major = .map then !owed else owed) :: below) := by
  rw [resume_definite hm hi]
  exact if_neg (Nat.succ_ne_zero k)

omit [Output τ] [Endless τ] in
theorem consumes_pairOf (hc : Consumes 1 item) : Consumes 0 (pairOf item) :=
  .mono (.bind hc fun _ => .bind (k := 0) hc fun _ => .pure _) (Nat.zero_le _)

omit [Output τ] [Endless τ] in
theorem consumes_owedPairOf (hc : Consumes 1 item) : Consumes 1 (owedPairOf item) :=
  .mono (.bind hc fun _ => .bind .atBreak fun _ => .seq (.failIf _ _)
    (.bind (k := 0) hc fun _ => .pure _)) (Nat.le_add_right _ _)

/-- A container of indefinite length, whose elements leave its frame as it was. -/
theorem shadows_elements_indefinite {head : Head} {below : List Frame}
    {definite : EStateM Error σ ε}
    (hc : Consumes 1 item) (hm : head.major = .array ∨ head.major = .map)
    (hi : head.indefinite = true)
    (hitem : ∀ s o, (stream s).length ≤ n → ShadowsAt excused item
      (fun _ => resume options (Frame.ofHead head :: below))
      (walkItem options ((Frame.ofHead head).advance :: below)) s (o : τ))
    (hs : (stream s).length ≤ n)
    (hlimit : options.maxItems.toNat < (stream s).length → excused .itemValueOutOfRange) :
    ShadowsAt excused (elements options head.major head definite item)
      (fun _ => resume options below)
      (checkDeclared options head >>= fun _ => resume options (Frame.ofHead head :: below))
      s o := by
  have helements : elements options head.major head definite item =
      untilBreak (collect item) options.maxItems.toNat 0 [] := if_pos hi
  rw [helements, checkDeclared_indefinite hi, pure_bind]
  exact shadows_untilBreak hc hm hi rfl hitem hs hlimit

omit [Endless τ] in
/-- A container of definite length, whose elements count down what remains of it. -/
theorem shadows_elements_definite {head : Head} {below : List Frame}
    {indefinite : EStateM Error σ ε}
    {z : Nat → EStateM Error (σ × τ) Unit} (hc : Consumes 0 item)
    (hm : head.major = .array ∨ head.major = .map) (hi : head.indefinite = false)
    (hitem : ∀ k s o, (stream s).length ≤ n →
      ShadowsAt excused item (fun _ => z k) (z (k + 1)) s o)
    (hfirst : z head.value.toNat = resume options (Frame.ofHead head :: below))
    (hlast : z 0 = resume options below) (hs : (stream s).length ≤ n) :
    ShadowsAt excused (elements options head.major head item indefinite)
      (fun _ => resume options below)
      (checkDeclared options head >>= fun _ => resume options (Frame.ofHead head :: below))
      s o := by
  have helements : elements options head.major head item indefinite = (do
      checkAvailable head.major head.value.toNat
      checkItems options head.value.toNat
      let items ← repeatItem (collect item) head.value.toNat []
      return (head.value.toNat, items)) := if_neg (by simp [hi])
  rw [helements, checkDeclared_definite hm hi, bind_assoc]
  refine .both (onFirst_checkAvailable _ _) ?_
  intro _ t ht
  obtain ⟨-, rfl⟩ := checkAvailable_eq_ok.1 ht
  refine .both (onFirst_checkItems _ _) ?_
  intro _ t ht
  obtain ⟨-, rfl⟩ := checkItems_eq_ok.1 ht
  rw [← hfirst, ← hlast]
  exact (shadows_repeatItem hc hitem _ [] hs).map _

/-- The elements of an array. -/
theorem shadows_array {head : Head} {below : List Frame} (hc : Consumes 1 item)
    (hitem : ItemShadows τ excused options n item) (hm : head.major = .array)
    (hv : head.indefinite = true → head.value = 0) (hs : (stream s).length ≤ n)
    (hlimit : options.maxItems.toNat < (stream s).length → excused .itemValueOutOfRange) :
    ShadowsAt excused (elements options .array head item item) (fun _ => resume options below)
      (checkDeclared options head >>= fun _ => resume options (Frame.ofHead head :: below))
      s o := by
  rw [← hm]
  cases hi : head.indefinite with
  | true =>
    refine shadows_elements_indefinite hc (Or.inl hm) hi (fun s o hs => ?_) hs hlimit
    have hframe : (Frame.ofHead head).advance = Frame.ofHead head := by
      simp [Frame.ofHead, Frame.advance, hm, hv hi]
    rw [hframe]
    exact hitem _ s o hs
  | false =>
    refine shadows_elements_definite (hc.mono (Nat.zero_le 1)) (Or.inl hm) hi
      (z := fun k => resume options (Frame.left head k false :: below))
      (fun k s o hs => ?_) ?_ ?_ hs
    · rw [resume_left (Or.inl hm) hi, if_neg (by simp [hm])]
      exact hitem _ s o hs
    · simp [Frame.left, Frame.ofHead, hm]
    · exact (resume_definite (Or.inl hm) hi).trans (if_pos rfl)

/-- The pairs of a map: a value is owed between the key and the value. -/
theorem shadows_map {head : Head} {below : List Frame} (hc : Consumes 1 item)
    (hitem : ItemShadows τ excused options n item) (hm : head.major = .map)
    (hv : head.indefinite = true → head.value = 0) (hs : (stream s).length ≤ n)
    (hlimit : options.maxItems.toNat < (stream s).length → excused .itemValueOutOfRange) :
    ShadowsAt excused (elements options .map head (pairOf item) (owedPairOf item))
      (fun _ => resume options below)
      (checkDeclared options head >>= fun _ => resume options (Frame.ofHead head :: below))
      s o := by
  rw [← hm]
  cases hi : head.indefinite with
  | true =>
    refine shadows_elements_indefinite (consumes_owedPairOf hc) (Or.inr hm) hi (fun s o hs => ?_)
      hs hlimit
    have htwice : (Frame.ofHead head).advance.advance = Frame.ofHead head := by
      simp [Frame.ofHead, Frame.advance, hm, hv hi]
    refine (hitem _ s o hs).bind ?_
    intro key t o' ht
    have hle := hc.le_of_ok ht
    have hmap : (Frame.ofHead head).advance.major = .map := hm
    have hopen : (Frame.ofHead head).advance.indefinite = true := hi
    rw [resume_indefinite (Or.inr hmap) hopen, htwice]
    refine .both onFirst_atBreak ?_
    intro ended u hu
    have hlen := (atBreak_eq_ok hu).1.length_eq
    rw [List.length_nil, Nat.zero_add] at hlen
    cases ended with
    | true =>
      have howed : (Frame.ofHead head).advance.owed = true := by
        simp [Frame.ofHead, Frame.advance, hm]
      refine Or.inr ⟨(u, o'), ?_⟩
      simp [closeContainer, failIf, howed, bind_apply, throw_apply]
    | false => exact (hitem _ u o' (by omega)).map _
  | false =>
    refine shadows_elements_definite (consumes_pairOf hc) (Or.inr hm) hi
      (z := fun k => resume options (Frame.left head (2 * k) false :: below))
      (fun k s o hs => ?_) ?_ ?_ hs
    · rw [Nat.mul_succ, resume_left (Or.inr hm) hi, if_pos hm]
      refine (hitem _ s o hs).bind ?_
      intro key t o' ht
      have hle := hc.le_of_ok ht
      rw [resume_left (Or.inr hm) hi, if_pos hm]
      exact (hitem _ t o' (by omega)).map _
    · simp [Frame.left, Frame.ofHead, hm]
    · exact (resume_definite (Or.inr hm) hi).trans (if_pos rfl)

end Containers

section Values

variable [Output τ] [Endless τ] {options : Options} {depth : Nat}

/-- The failures of the decoder that the walk does not share, where `length` bytes are left. -/
def Excused (options : Options) (depth length : Nat) : Error → Prop
  | .invalidUtf8 => True
  | .maxNestingDepth => depth < length
  | .itemValueOutOfRange => options.maxItems.toNat < length
  | .notEnoughMemory => allocationLimit < length
  | _ => False

theorem Excused.mono {depth' length length' : Nat} {e : Error} (h : Excused options depth length e)
    (hl : length ≤ length') (hd : depth' + length ≤ depth + length') :
    Excused options depth' length' e := by
  cases e <;> simp only [Excused] at h ⊢ <;> omega

omit [Endless τ] in
theorem walkItem_eq (options : Options) (below : List Frame) :
    (walkItem options below : EStateM Error (σ × τ) Unit) =
      takeHead options.mode >>= fun head =>
        checkDeclared options head >>= fun _ => resume options (Frame.ofHead head :: below) := by
  simp only [walkItem, takeFrame, bind_assoc, pure_bind]

omit [Output τ] [Endless τ] in
theorem checkDeclared_other {head : Head} (hm : ¬(head.major = .array ∨ head.major = .map)) :
    (checkDeclared options head : EStateM Error (σ × τ) Unit) = pure () :=
  if_neg fun h => hm h.1

theorem Head.Spelled.value_eq_zero {head : Head} {lead : Bytes} (hs : head.Spelled lead)
    (hi : head.indefinite = true) : head.value = 0 := by
  cases hs with
  | definite => cases hi
  | opening => rfl

variable {head : Head} {lead : Bytes} {below : List Frame} {excused : Error → Prop}
  {s : MemoryInput} {o : τ}

/-- A string on top of the stack is moved where its payload is read. -/
theorem shadows_payload (hm : head.major = .bytes ∨ head.major = .text)
    (htext : excused .invalidUtf8)
    (hmemory : allocationLimit ≤ (stream s).length → excused .notEnoughMemory) :
    ShadowsAt excused (readPayload options head) (fun _ => resume options below)
      (resume options (Frame.ofHead head :: below)) s o := by
  rw [resume_string hm]
  unfold readPayload
  refine .map _ ?_
  have hmemory' : allocationLimit ≤ (#[] : Array UInt8).size + (stream s).length →
      excused .notEnoughMemory := fun h => hmemory (by simpa using h)
  cases hi : head.indefinite with
  | true =>
    have hpieces : (readPieces options head : EStateM Error MemoryInput (Array UInt8)) =
        readChunks options head.major #[] := if_pos hi
    rw [hpieces, transferString_indefinite hi]
    exact shadows_readChunks options head.major #[] htext hmemory'
  | false =>
    have hpieces : (readPieces options head : EStateM Error MemoryInput (Array UInt8)) =
        readChunk options head.major head.value.toNat #[] := if_neg (by simp [hi])
    have hremaining : (Frame.ofHead head).remaining = head.value.toNat := by
      rcases hm with hm | hm <;> simp [Frame.ofHead, hm]
    rw [hpieces, transferString_definite hi, hremaining]
    exact shadows_readChunk options head.major _ #[] htext hmemory'

/-- Contents that the decoder reads, the walk resumes over. -/
theorem shadows_decodeContents {inner : Option (EStateM Error MemoryInput Value)} {length : Nat}
    (hs : head.Spelled lead) (hlength : (stream s).length < length)
    (hnone : inner = none → depth = 0)
    (hsome : ∀ item, inner = some item → Consumes 1 item ∧
      ItemShadows τ (Excused options depth length) options (stream s).length item) :
    ShadowsAt (Excused options depth length) (Value.decodeContents options inner head)
      (fun _ => resume options below)
      (checkDeclared options head >>= fun _ => resume options (Frame.ofHead head :: below))
      s o := by
  have htext : Excused options depth length .invalidUtf8 := trivial
  have hmemory (h : allocationLimit ≤ (stream s).length) :
      Excused options depth length .notEnoughMemory := h.trans_lt hlength
  have hlimit (h : options.maxItems.toNat < (stream s).length) :
      Excused options depth length .itemValueOutOfRange := h.trans hlength
  have hstop {f : EStateM Error MemoryInput Value → EStateM Error MemoryInput Value}
      {z : EStateM Error (MemoryInput × τ) Unit} (h : inner = none) :
      ShadowsAt (Excused options depth length) (Value.descend inner >>= f)
        (fun _ => resume options below) z s o := by
    rw [h]
    have hdepth : Excused options depth length .maxNestingDepth := by
      rw [hnone h]
      exact (Nat.zero_le _).trans_lt hlength
    exact Or.inl hdepth
  cases hm : head.major <;> simp only [Value.decodeContents, hm]
  case unsigned | negative =>
    rw [checkDeclared_other (by simp [hm]), pure_bind, resume_integer (by simp [Frame.ofHead, hm])]
    exact .pure (y := fun _ => resume options below) _
  case bytes =>
    rw [checkDeclared_other (by simp [hm]), pure_bind]
    exact (shadows_payload (Or.inl hm) htext hmemory).map _
  case text =>
    rw [checkDeclared_other (by simp [hm]), pure_bind]
    refine (shadows_payload (Or.inr hm) htext hmemory).bind ?_
    intro bytes t o' _
    cases htextOf : textOf bytes with
    | ok text => exact .pure (y := fun _ => resume options below) _
    | error e =>
      have he : e = .invalidUtf8 := by
        unfold textOf at htextOf
        split at htextOf <;> cases htextOf
        rfl
      exact Or.inl (he ▸ htext)
  case special =>
    rw [checkDeclared_other (by simp [hm]), pure_bind, resume_special (by simp [Frame.ofHead, hm])]
    cases hi : head.indefinite with
    | true =>
      have hbreak : Value.ofSpecial head = .error .itemTypeMismatch := by
        simp [Value.ofSpecial, Head.float?, Head.simple?, hi]
      have hframe : (Frame.ofHead head).indefinite = true := hi
      rw [hbreak, failIf, if_pos hframe]
      exact .fail .itemTypeMismatch
    | false =>
      obtain ⟨w, hhead, -⟩ := hs.exists_spell hi
      have hframe : ¬(Frame.ofHead head).indefinite = true := by simp [Frame.ofHead, hi]
      rw [hm] at hhead
      rw [failIf, if_neg hframe, pure_bind, hhead, ofSpecial_definite]
      exact .pure (y := fun _ => resume options below) _
  case array =>
    cases hinner : inner with
    | none => exact hinner ▸ hstop hinner
    | some item =>
      obtain ⟨hc, hitem⟩ := hsome item hinner
      simp only [Value.descend, pure_bind]
      rw [arrayItems_eq]
      exact (shadows_array hc hitem hm hs.value_eq_zero (Nat.le_refl _) hlimit).map _
  case map =>
    cases hinner : inner with
    | none => exact hinner ▸ hstop hinner
    | some item =>
      obtain ⟨hc, hitem⟩ := hsome item hinner
      simp only [Value.descend, pure_bind]
      rw [mapItems_eq]
      exact (shadows_map hc hitem hm hs.value_eq_zero (Nat.le_refl _) hlimit).map _
  case tag =>
    cases hinner : inner with
    | none => exact hinner ▸ hstop hinner
    | some item =>
      obtain ⟨hc, hitem⟩ := hsome item hinner
      rw [checkDeclared_other (by simp [hm]), pure_bind, resume_tag (by simp [Frame.ofHead, hm])]
      exact (hitem below s o (Nat.le_refl _)).map _

/-- A head and its contents, where the items inside are read with fewer bytes left. -/
theorem shadows_headed {inner : Option (EStateM Error MemoryInput Value)}
    (hnone : inner = none → depth = 0)
    (hsome : ∀ item, inner = some item → Consumes 1 item ∧ ∀ n < (stream s).length,
      ItemShadows τ (Excused options depth (stream s).length) options n item) :
    ShadowsAt (Excused options depth (stream s).length)
      (readHead options.mode >>= Value.decodeContents options inner)
      (fun _ => resume options below) (walkItem options below) s o := by
  rw [walkItem_eq]
  refine (shadows_readHead _ options.mode _ s o).bind ?_
  intro head t o' ht
  obtain ⟨lead, -, hs, -⟩ := Reads.readHead options.mode s head t ht
  have hlength := (Consumes.readHead options.mode).lt_of_ok ht
  refine shadows_decodeContents hs hlength hnone ?_
  intro item hitem
  obtain ⟨hc, hshadows⟩ := hsome item hitem
  exact ⟨hc, hshadows _ hlength⟩

/-- Where the decoder reads a value, the walk goes over the bytes of it. -/
theorem shadows_decodeWithin (options : Options) (depth : Nat) (below : List Frame)
    (s : MemoryInput) (o : τ) :
    ShadowsAt (Excused options depth (stream s).length) (Value.decodeWithin options depth)
      (fun _ => resume options below) (walkItem options below) s o := by
  induction depth generalizing below s o with
  | zero => exact shadows_headed (fun _ => rfl) (by simp)
  | succ depth ih =>
    refine shadows_headed (by simp) ?_
    rintro item ⟨⟩
    refine ⟨Value.consumes_decodeWithin options depth, ?_⟩
    intro n hn below' u o' hu
    apply (ih below' u o').mono
    intro e he
    exact he.mono (by omega) (by omega)

end Values

theorem itemLength_of_walk {options : Options} {data : Bytes} {t : MemoryInput} {o : Nowhere}
    (h : walkItem options [] (MemoryInput.ofBytes data, {}) = .ok () (t, o)) :
    itemLength options data = .ok t.offset := by
  rw [← copyItem_eq] at h
  simp only [itemLength, skipItem, h]

theorem itemLength_of_walk_error {options : Options} {data : Bytes} {e : Error}
    {t : MemoryInput × Nowhere}
    (h : walkItem options [] (MemoryInput.ofBytes data, {}) = .error e t) :
    itemLength options data = .error e := by
  rw [← copyItem_eq] at h
  simp only [itemLength, skipItem, h]

/-- Both walkers give the same length or fail alike, but for texts that are no UTF-8 and for limits
below the length of the data; whatever is decoded is spanned identically. -/
theorem decode_agrees_itemLength (options : Options) (data : Bytes)
    (hdata : data.length ≤ allocationLimit) :
    let spanned := itemLength options data
    let decoded := (decodeBytes (Value.decode options) data).map (·.2)
    (decoded = spanned ∨ decoded = .error .invalidUtf8 ∨
      (decoded = .error .maxNestingDepth ∧ options.maxDepth.toNat < data.length) ∨
      (decoded = .error .itemValueOutOfRange ∧ options.maxItems.toNat < data.length)) ∧
    (data.length ≤ options.maxDepth.toNat → data.length ≤ options.maxItems.toNat →
      decoded = spanned ∨ decoded = .error .invalidUtf8) ∧
    ∀ n, decoded = .ok n → spanned = .ok n := by
  intro spanned decoded
  have hmain : decoded = spanned ∨ decoded = .error .invalidUtf8 ∨
      (decoded = .error .maxNestingDepth ∧ options.maxDepth.toNat < data.length) ∨
      (decoded = .error .itemValueOutOfRange ∧ options.maxItems.toNat < data.length) := by
    have hshadows := shadows_decodeWithin options options.maxDepth.toNat []
      (MemoryInput.ofBytes data) ({} : Nowhere)
    unfold ShadowsAt at hshadows
    cases hrun : Value.decodeWithin options options.maxDepth.toNat (MemoryInput.ofBytes data) with
    | ok v t =>
      have hdecoded : decoded = .ok t.offset := by
        simp only [decoded, decodeBytes, Value.decode, hrun, Except.map]
      simp only [hrun] at hshadows
      obtain ⟨o, ho⟩ := hshadows
      rw [resume_nil] at ho
      exact Or.inl (hdecoded.trans (itemLength_of_walk ho).symm)
    | error e t =>
      have hdecoded : decoded = .error e := by
        simp only [decoded, decodeBytes, Value.decode, hrun, Except.map]
      simp only [hrun] at hshadows
      rw [hdecoded]
      rcases hshadows with hexcused | ⟨u, hu⟩
      · -- Of the excused failures, want of memory needs more data than there can be.
        have hlength : (stream (MemoryInput.ofBytes data)).length = data.length := rfl
        rw [hlength] at hexcused
        cases e <;> simp only [Excused] at hexcused
        case invalidUtf8 => exact Or.inr (Or.inl rfl)
        case maxNestingDepth => exact Or.inr (Or.inr (Or.inl ⟨rfl, hexcused⟩))
        case itemValueOutOfRange => exact Or.inr (Or.inr (Or.inr ⟨rfl, hexcused⟩))
        case notEnoughMemory => omega
      · exact Or.inl (itemLength_of_walk_error hu).symm
  refine ⟨hmain, fun hdepth hitems => ?_, fun n hn => ?_⟩
  · rcases hmain with h | h | ⟨-, h⟩ | ⟨-, h⟩
    · exact Or.inl h
    · exact Or.inr h
    · omega
    · omega
  · rcases hmain with h | h | ⟨h, -⟩ | ⟨h, -⟩
    · rw [← h, hn]
    all_goals
      rw [hn] at h
      cases h

theorem itemLength_array_of_two : itemLength {} [0x82, 0xF5, 0x61, 0x61] = .ok 4 :=
  (decode_agrees_itemLength {} [0x82, 0xF5, 0x61, 0x61] (by decide)).2.2 4 rfl

end CborCodec
