import CborCodec.Proofs.Containment
import CborCodec.Proofs.Copying
/-!
What the walk refuses. The walk over an item and over what is open below it is the walk over the
item by itself and then the other; so an item that is refused is refused wherever it stands, behind
any items that are accepted. A map whose break comes after a key is refused for its type.
-/

namespace CborCodec

section Stack

variable {σ τ : Type} [Input σ] [Output τ] (options : Options)

/-- A step does not look at what is open below the frame on top. -/
theorem step_append (frame : Frame) (frames below : List Frame) :
    (step options frame (frames ++ below) : EStateM Error (σ × τ) (List Frame)) =
      step options frame frames >>= fun fs => pure (fs ++ below) := by
  have hcontainer : (stepContainer options frame (frames ++ below) :
      EStateM Error (σ × τ) (List Frame)) =
      stepContainer options frame frames >>= fun fs => pure (fs ++ below) := by
    unfold stepContainer openElement
    split
    · rw [bind_assoc]
      congr 1
      funext ended
      cases ended <;> simp
    · split <;> simp
  cases hm : frame.major <;> simp only [step, hm]
  case array | map => exact hcontainer
  case unsigned | negative => rfl
  all_goals simp only [bind_assoc, pure_bind, List.cons_append]

/-- The frames further down wait until those above them are done. -/
theorem resume_append (frames below : List Frame) :
    (resume options (frames ++ below) : EStateM Error (σ × τ) Unit) = (do
      resume options frames
      resume options below) := by
  funext s
  rw [bind_apply]
  unfold resume
  -- The two walks take the same steps while there are frames above the others.
  fun_induction walk options frames s with
  | case1 s => rfl
  | case2 s frame rest e t h =>
    have hstep := congrFun (step_append (σ := σ) (τ := τ) options frame rest below) s
    rw [bind_apply, h] at hstep
    rw [List.cons_append, walk]
    split
    · next h' => rw [hstep] at h'; cases h'; rfl
    · next h' => rw [hstep] at h'; cases h'
  | case3 s frame rest frames t h ih =>
    have hstep := congrFun (step_append (σ := σ) (τ := τ) options frame rest below) s
    rw [bind_apply, h] at hstep
    rw [List.cons_append, walk]
    split
    · next h' => rw [hstep] at h'; cases h'
    · next h' =>
      rw [hstep] at h'
      cases h'
      exact ih

theorem walkItem_append (below : List Frame) :
    (walkItem options below : EStateM Error (σ × τ) Unit) = (do
      walkItem options []
      resume options below) := by
  simp only [walkItem, bind_assoc]
  congr 1
  funext frame
  exact resume_append options [frame] below

end Stack

/-- In front of the bytes the action fails, whatever is behind them. -/
def Rejects {σ α : Type} [Input σ] (x : EStateM Error σ α) (e : Error) (bs : Bytes) : Prop :=
  ∀ s rest, stream s = bs ++ rest → ∃ t, x s = .error e t

section Rejects

variable {σ τ α β : Type} [Input σ] [Output τ] [Reliable σ] [Endless τ] {options : Options}
  {e : Error} {frame : Frame} {bs : Bytes}

omit [Reliable σ] in
theorem Rejects.append {x : EStateM Error σ α} (h : Rejects x e bs) (more : Bytes) :
    Rejects x e (bs ++ more) := by
  intro s rest hs
  exact h s (more ++ rest) (by rw [hs, List.append_assoc])

omit [Reliable σ] in
theorem Rejects.failIf {c : Prop} [Decidable c] (h : c) :
    Rejects (failIf c e : EStateM Error σ Unit) e [] :=
  fun s _ _ => ⟨s, by rw [CborCodec.failIf, if_pos h]; rfl⟩

omit [Reliable σ] in
theorem Rejects.bind {x : EStateM Error σ α} {f : α → EStateM Error σ β} (h : Rejects x e bs) :
    Rejects (x >>= f) e bs := by
  intro s rest hs
  obtain ⟨t, ht⟩ := h s rest hs
  exact ⟨t, by rw [bind_apply, ht]⟩

omit [Reliable σ] in
/-- What is accepted comes before what is rejected. -/
theorem Accepts.rejects {x : EStateM Error σ α} {f : α → EStateM Error σ β} {a : α} {l r : Bytes}
    (hx : Accepts x a l) (hf : Rejects (f a) e r) : Rejects (x >>= f) e (l ++ r) := by
  intro s rest hs
  obtain ⟨t, ht, hl⟩ := hx s (r ++ rest) (by rw [hs, List.append_assoc])
  obtain ⟨u, hu⟩ := hf t rest (stream_of_advances hl (by rw [hs, List.append_assoc]))
  exact ⟨u, by rw [bind_apply, ht]; exact hu⟩

/-- A frame is taken in front of as many bytes as its head declares items. -/
theorem takeFrame_ok {h : Head} {lead more : Bytes} {s : σ × τ} (hs : h.Spelled lead)
    (hc : h.check options.mode = .ok ())
    (hd : h.Declares → h.value.toNat ≤ options.maxItems.toNat ∧
      h.value.toNat ≤ capacityFor h.major more.length) (hstream : stream s = lead ++ more) :
    ∃ t, takeFrame options s = .ok (Frame.ofHead h) t ∧ Advances s lead t := by
  obtain ⟨t, ht, hadv⟩ := Accepts.takeHead (σ := σ) (τ := τ) hs hc s more hstream
  refine ⟨t, bind_eq_ok.mpr ⟨h, t, ht, bind_eq_ok.mpr ⟨(), t, ?_, rfl⟩⟩, hadv⟩
  unfold checkDeclared
  split
  · next hdecl =>
    obtain ⟨hitems, hcapacity⟩ := hd ⟨hdecl.1, by simpa using hdecl.2⟩
    have hmore : more.length ≤ available t := by
      rw [← stream_of_advances hadv hstream]
      exact Reliable.length_le_available t
    have hle : h.value.toNat ≤ capacityFor h.major (available t) := by
      refine hcapacity.trans ?_
      unfold capacityFor
      split <;> omega
    rw [bind_apply, checkAvailable_apply, if_neg (Nat.not_lt.mpr hle)]
    exact failIf_eq_ok.mpr ⟨Nat.not_lt.mpr hitems, rfl⟩
  · rfl

/-- An item is rejected behind its head. -/
theorem Rejects.headed {h : Head} {lead : Bytes} {below : List Frame} (hs : h.Spelled lead)
    (hc : h.check options.mode = .ok ())
    (hd : h.Declares → h.value.toNat ≤ options.maxItems.toNat ∧
      h.value.toNat ≤ capacityFor h.major bs.length)
    (hf : Rejects (resume options (Frame.ofHead h :: below) : EStateM Error (σ × τ) Unit) e bs) :
    Rejects (walkItem options below : EStateM Error (σ × τ) Unit) e (lead ++ bs) := by
  intro s rest hstream
  rw [List.append_assoc] at hstream
  obtain ⟨t, ht, hadv⟩ := takeFrame_ok hs hc
    (fun hdecl => ⟨(hd hdecl).1, (hd hdecl).2.trans (by
      unfold capacityFor
      split <;> rw [List.length_append] <;> omega)⟩) hstream
  obtain ⟨u, hu⟩ := hf t rest (stream_of_advances hadv hstream)
  exact ⟨u, by rw [walkItem, bind_apply, ht]; exact hu⟩

omit [Endless τ] in
/-- Where a container has an element to come, what is no break is taken for it. -/
theorem Rejects.element {below : List Frame} (hm : frame.major = .array ∨ frame.major = .map)
    (hopen : frame.indefinite = true ∨ 0 < frame.remaining) (hbs : NoBreak bs)
    (h : Rejects (walkItem options (frame.advance :: below) : EStateM Error (σ × τ) Unit) e bs) :
    Rejects (resume options (frame :: below) : EStateM Error (σ × τ) Unit) e bs := by
  by_cases hi : frame.indefinite = true
  · rw [resume_indefinite hm hi]
    intro s rest hs
    obtain ⟨b, bs, rfl, hb⟩ := hbs
    have hstream : stream s = b :: (bs ++ rest) := hs
    obtain ⟨t, ht, hnone⟩ := atBreak_ok hstream
    rw [beq_false_of_ne hb] at ht
    obtain ⟨u, hu⟩ := h t rest (hnone.of_nil.trans hs)
    exact ⟨u, by rw [bind_apply, ht]; exact hu⟩
  · have hcount := hopen.resolve_left hi
    rw [resume_definite hm (by simpa using hi), if_neg (by omega)]
    exact h

/-- What is rejected as an item is rejected inside a container, behind items that are accepted. -/
theorem Rejects.inside {below : List Frame} {before : List Bytes}
    (hm : frame.major = .array ∨ frame.major = .map)
    (hopen : frame.indefinite = true ∨ before.length < frame.remaining)
    (hbefore : ∀ i ∈ before, WellFormed options i) (hbs : NoBreak bs)
    (h : ∀ below, Rejects (walkItem options below : EStateM Error (σ × τ) Unit) e bs) :
    Rejects (resume options (frame :: below) : EStateM Error (σ × τ) Unit) e
      (before.flatten ++ bs) := by
  induction before generalizing frame with
  | nil => exact .element hm hopen hbs (h _)
  | cons i before ih =>
    rw [List.forall_mem_cons] at hbefore
    rw [List.length_cons] at hopen
    rw [List.flatten_cons, List.append_assoc]
    refine .element hm (hopen.imp_right (Nat.zero_lt_of_lt ·)) (hbefore.1.noBreak.append _) ?_
    rw [walkItem_append]
    apply (Accepts.copyItem hbefore.1).rejects
    exact ih hm (hopen.imp_right fun hlt => by simp only [Frame.advance]; omega) hbefore.2

/-- A break is refused where a value is owed. -/
theorem Rejects.owed {below : List Frame} {items : List Bytes} (hm : frame.major = .map)
    (hi : frame.indefinite = true) (howed : frame.owed = true ↔ items.length % 2 = 0)
    (hitems : ∀ i ∈ items, WellFormed options i) :
    Rejects (resume options (frame :: below) : EStateM Error (σ × τ) Unit) .itemTypeMismatch
      (items.flatten ++ [breakByte]) := by
  induction items generalizing frame with
  | nil =>
    have hvalue : frame.owed = true := howed.mpr rfl
    intro s rest hs
    obtain ⟨t, ht, -⟩ := atBreak_ok (s := s) (b := breakByte) hs
    rw [beq_self_eq_true] at ht
    have hclose : closeContainer frame t = .error .itemTypeMismatch t := by
      simp only [closeContainer, CborCodec.failIf, if_pos hvalue]
      rfl
    refine ⟨t, ?_⟩
    rw [resume_indefinite (Or.inr hm) hi, bind_apply, ht]
    simp only [if_true]
    rw [bind_apply, hclose]
  | cons i items ih =>
    rw [List.forall_mem_cons] at hitems
    rw [List.flatten_cons, List.append_assoc]
    refine .element (Or.inr hm) (Or.inl hi) (hitems.1.noBreak.append _) ?_
    rw [walkItem_append]
    apply (Accepts.copyItem hitems.1).rejects
    refine ih hm hi ?_ hitems.2
    rw [List.length_cons] at howed
    cases ho : frame.owed <;> simp [Frame.advance, hm, ho] at howed ⊢ <;> omega

end Rejects

theorem itemLength_of_rejects {options : Options} {e : Error} {bs : Bytes}
    (h : Rejects (walkItem options [] : EStateM Error (MemoryInput × Nowhere) Unit) e bs)
    (rest : Bytes) : itemLength options (bs ++ rest) = .error e := by
  obtain ⟨t, ht⟩ := h (MemoryInput.ofBytes (bs ++ rest), {}) rest rfl
  simp only [itemLength, skipItem, copyItem_eq, ht]

end CborCodec
