import CborCodec.Program
/-!
Emission as a list of writes. What writes values does nothing but put bytes into the output, piece
after piece, and it is known beforehand whether it comes to its end or is refused on the way. So
it has one description, of which its behaviour on every output is a consequence.
-/

namespace CborCodec

section Emits

variable {S α β : Type} {put : Bytes → EStateM Error S Unit}

def putAll (put : Bytes → EStateM Error S Unit) : List Bytes → EStateM Error S Unit
  | [] => pure ()
  | bs :: rest => do
    put bs
    putAll put rest

theorem putAll_append (put : Bytes → EStateM Error S Unit) (xs ys : List Bytes) :
    putAll put (xs ++ ys) = putAll put xs >>= fun _ => putAll put ys := by
  induction xs with
  | nil => rw [List.nil_append, putAll, pure_bind]
  | cons x xs ih => simp only [List.cons_append, putAll, ih, bind_assoc]

/-- The action puts the bytes in pieces and answers `a`, if it is valid. Otherwise it fails for a
value out of range after some of them. -/
def Emits (put : Bytes → EStateM Error S Unit) (x : EStateM Error S α) (valid : Prop)
    (bs : Bytes) (a : α) : Prop :=
  (valid → ∃ pieces, x = (putAll put pieces >>= fun _ => pure a) ∧ pieces.flatten = bs) ∧
    (¬valid → ∃ pieces,
      x = (putAll put pieces >>= fun _ => throw .itemValueOutOfRange) ∧ pieces.flatten <+: bs)

theorem throw_bind (e : Error) (f : α → EStateM Error S β) : (throw e >>= f) = throw e := rfl

namespace Emits

variable {x : EStateM Error S α} {f : α → EStateM Error S β} {P Q : Prop} {bs cs : Bytes} {a : α}
  {b : β}

theorem pure (a : α) : Emits put (Pure.pure a) True [] a :=
  ⟨fun _ => ⟨[], rfl, rfl⟩, fun h => absurd trivial h⟩

theorem piece (bs : Bytes) : Emits put (put bs) True bs () := by
  refine ⟨fun _ => ⟨[bs], ?_, ?_⟩, fun h => absurd trivial h⟩
  · simp only [putAll, bind_pure_unit]
  · rw [List.flatten_singleton]

theorem failIf (c : Prop) [Decidable c] :
    Emits put (CborCodec.failIf c .itemValueOutOfRange) (¬c) [] () := by
  refine ⟨fun h => ⟨[], ?_, rfl⟩, fun h => ⟨[], ?_, List.prefix_rfl⟩⟩
  · rw [CborCodec.failIf, if_neg h, putAll, pure_bind]
  · rw [CborCodec.failIf, if_pos (Decidable.not_not.mp h), putAll, pure_bind]

theorem congr (h : Emits put x P bs a) (hPQ : P ↔ Q) : Emits put x Q bs a := by
  rw [propext hPQ] at h
  exact h

/-- What two actions emit is emitted in order, if both are valid. -/
theorem bind (hx : Emits put x P bs a) (hf : Emits put (f a) Q cs b) :
    Emits put (x >>= f) (P ∧ Q) (bs ++ cs) b := by
  by_cases hP : P
  · obtain ⟨xs, rfl, rfl⟩ := hx.1 hP
    constructor
    · rintro ⟨-, hQ⟩
      obtain ⟨ys, hys, rfl⟩ := hf.1 hQ
      refine ⟨xs ++ ys, ?_, List.flatten_append⟩
      simp only [putAll_append, bind_assoc, pure_bind, hys]
    · intro hPQ
      obtain ⟨ys, hys, hfront⟩ := hf.2 fun hQ => hPQ ⟨hP, hQ⟩
      refine ⟨xs ++ ys, ?_, ?_⟩
      · simp only [putAll_append, bind_assoc, pure_bind, hys]
      · rw [List.flatten_append, List.prefix_append_right_inj]
        exact hfront
  · obtain ⟨xs, rfl, hfront⟩ := hx.2 hP
    refine ⟨fun hPQ => absurd hPQ.1 hP, fun _ => ⟨xs, ?_, hfront.trans (List.prefix_append _ _)⟩⟩
    simp only [bind_assoc, throw_bind]

/-- Each of a list of actions follows the one before. -/
theorem each {ι : Type} {x : ι → EStateM Error S Unit} {P : ι → Prop} {w : ι → Bytes}
    {l : List ι} {g : List ι → EStateM Error S Unit} (hnil : g [] = Pure.pure ())
    (hcons : ∀ i is, g (i :: is) = x i >>= fun _ => g is)
    (h : ∀ i ∈ l, Emits put (x i) (P i) (w i) ()) :
    Emits put (g l) (∀ i ∈ l, P i) (l.flatMap w) () := by
  induction l with
  | nil =>
    rw [hnil]
    exact (Emits.pure ()).congr (by simp)
  | cons i is ih =>
    rw [List.forall_mem_cons] at h
    rw [hcons, List.flatMap_cons]
    exact (h.1.bind (ih h.2)).congr List.forall_mem_cons.symm

/-- An action that has succeeded was valid, and has put its pieces. -/
theorem ok {s t : S} {c : α} (h : Emits put x P bs a) (hx : x s = .ok c t) :
    P ∧ c = a ∧ ∃ pieces, putAll put pieces s = .ok () t ∧ pieces.flatten = bs := by
  by_cases hP : P
  · obtain ⟨pieces, rfl, hpieces⟩ := h.1 hP
    obtain ⟨_, u, hu, hpure⟩ := bind_eq_ok.mp hx
    obtain ⟨rfl, rfl⟩ := pure_eq_ok.mp hpure
    exact ⟨hP, rfl, pieces, hu, hpieces⟩
  · obtain ⟨pieces, rfl, -⟩ := h.2 hP
    obtain ⟨_, u, -, hthrow⟩ := bind_eq_ok.mp hx
    cases hthrow

end Emits

variable {σ τ : Type} {x : EStateM Error τ α} {P : Prop} {bs : Bytes} {a : α}

theorem onSecond_bind (x : EStateM Error τ α) (f : α → EStateM Error τ β) :
    (onSecond (x >>= f) : EStateM Error (σ × τ) β) = onSecond x >>= fun a => onSecond (f a) := by
  funext ⟨s, o⟩
  simp only [onSecond, bind_apply]
  cases x o <;> rfl

theorem putAll_onSecond (put : Bytes → EStateM Error τ Unit) (pieces : List Bytes) :
    (putAll (fun bs => onSecond (put bs)) pieces : EStateM Error (σ × τ) Unit) =
      onSecond (putAll put pieces) := by
  induction pieces with
  | nil => rfl
  | cons bs pieces ih => simp only [putAll, ih, onSecond_bind]

theorem Emits.onSecond {put : Bytes → EStateM Error τ Unit} (h : Emits put x P bs a) :
    Emits (fun bs => CborCodec.onSecond (put bs))
      (CborCodec.onSecond x : EStateM Error (σ × τ) α) P bs a := by
  constructor
  · intro hP
    obtain ⟨pieces, rfl, hpieces⟩ := h.1 hP
    exact ⟨pieces, by rw [putAll_onSecond, onSecond_bind]; rfl, hpieces⟩
  · intro hP
    obtain ⟨pieces, rfl, hpieces⟩ := h.2 hP
    exact ⟨pieces, by rw [putAll_onSecond, onSecond_bind]; rfl, hpieces⟩

/-- What emits into the second half of a state leaves the first alone. -/
theorem Emits.exists_onSecond {put : Bytes → EStateM Error τ Unit} {x : EStateM Error (σ × τ) α}
    (h : Emits (fun bs => CborCodec.onSecond (put bs)) x P bs a) :
    ∃ y : EStateM Error τ α, x = CborCodec.onSecond y ∧ Emits put y P bs a := by
  by_cases hP : P
  · obtain ⟨pieces, rfl, hpieces⟩ := h.1 hP
    refine ⟨putAll put pieces >>= fun _ => Pure.pure a, ?_,
      fun _ => ⟨pieces, rfl, hpieces⟩, fun hn => absurd hP hn⟩
    rw [putAll_onSecond, onSecond_bind]
    rfl
  · obtain ⟨pieces, rfl, hpieces⟩ := h.2 hP
    refine ⟨putAll put pieces >>= fun _ => throw .itemValueOutOfRange, ?_,
      fun hn => absurd hn hP, fun _ => ⟨pieces, rfl, hpieces⟩⟩
    rw [putAll_onSecond, onSecond_bind]
    rfl

end Emits

section Strings

variable {τ : Type} [Output τ]

theorem emits_checked {head : Except Error Bytes} {bs : Bytes} (h : head = .ok bs) :
    Emits (Output.putHead (τ := τ)) (emitChecked head) True bs () := by
  subst h
  exact .piece bs

theorem emits_put (hput : ∀ bs, (Output.put bs : EStateM Error τ Unit) = Output.putHead bs)
    (bs : Bytes) : Emits (Output.putHead (τ := τ)) (Output.put bs) True bs () := by
  rw [hput]
  exact .piece bs

theorem emits_string (hput : ∀ bs, (Output.put bs : EStateM Error τ Unit) = Output.putHead bs)
    (m : Major) (bs : Bytes) :
    Emits (Output.putHead (τ := τ)) (emitString m bs) True
      (Head.encode m (UInt64.ofNat bs.length) ++ bs) () :=
  ((Emits.piece _).bind (emits_put hput bs)).congr and_self_iff

end Strings

section Containers

variable {τ : Type} [Output τ] {kind : Container} {count declared taken : Nat}
  {calls : List (EStateM Error τ Unit)}

omit [Output τ] in
/-- Calls that keep to the declared number are made as if nothing counted them. -/
theorem emitCalls_eq (h : taken + calls.length ≤ declared) :
    emitCalls (some declared) taken calls =
      forM calls id >>= fun _ => pure (taken + calls.length) := by
  induction calls generalizing taken with
  | nil => rfl
  | cons call calls ih =>
    rw [List.length_cons] at h
    have hplace : ¬declared < taken + 1 := by omega
    have htaken : taken + 1 + calls.length = taken + (call :: calls).length := by
      rw [List.length_cons]
      omega
    rw [emitCalls, ih (by omega), htaken, takePlace, failIf, if_neg hplace, pure_bind,
      List.forM_cons, bind_assoc]
    rfl

/-- A container is never refused for its count if that is the number of its elements. -/
theorem emitContainer_eq (h : calls.length = count * kind.slots) :
    emitContainer kind count calls =
      emitArgument kind.major (UInt64.ofNat count) >>= fun _ => forM calls id := by
  have hlen : 0 + calls.length = count * kind.slots := (Nat.zero_add _).trans h
  have hend : (endContainer (some (count * kind.slots)) (0 + calls.length) :
      EStateM Error τ Unit) = pure () := if_neg fun hne => hne hlen
  rw [emitContainer, emitCalls_eq (Nat.le_of_eq hlen)]
  simp only [bind_assoc, pure_bind, hend, bind_pure_unit]

/-- A container writes its head and then its elements, or is refused where one of them is. -/
theorem Emits.container {ι : Type} {x : ι → EStateM Error τ Unit} {P : ι → Prop} {w : ι → Bytes}
    {l : List ι} (hlen : l.length = count * kind.slots)
    (h : ∀ i ∈ l, Emits Output.putHead (x i) (P i) (w i) ()) :
    Emits Output.putHead (emitContainer kind count (l.map x)) (∀ i ∈ l, P i)
      (Head.encode kind.major (UInt64.ofNat count) ++ l.flatMap w) () := by
  have helements : Emits (Output.putHead (τ := τ)) (forM (l.map x) id) (∀ i ∈ l, P i)
      (l.flatMap w) () :=
    .each (g := fun l => forM (l.map x) id) rfl (fun _ _ => List.forM_cons ..) h
  rw [emitContainer_eq ((List.length_map x).trans hlen)]
  exact ((Emits.piece _).bind helements).congr (by rw [true_and])

end Containers

end CborCodec
