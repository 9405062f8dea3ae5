import CborCodec.Input
/-!
Actions on an input that move along its stream and do nothing else to it. `Consumes k x` says that
`x` is such an action and consumes at least `k` bytes when it succeeds; loops end by it.
-/

namespace CborCodec

variable {σ α β : Type} [Input σ]

/-- However the action ends it stands further on in the same stream, by at least `k` bytes if it
succeeds. -/
def Consumes (k : Nat) (x : EStateM Error σ α) : Prop :=
  ∀ s, ∃ bs, Advances s bs (final (x s)) ∧ ∀ a t, x s = .ok a t → k ≤ bs.length

namespace Consumes

theorem pure (a : α) : Consumes 0 (Pure.pure a : EStateM Error σ α) :=
  fun _ => ⟨[], Advances.rfl, fun _ _ _ => Nat.le_refl 0⟩

theorem throw (k : Nat) (e : Error) : Consumes k (MonadExcept.throw e : EStateM Error σ α) :=
  fun _ => ⟨[], Advances.rfl, fun _ _ h => by cases h⟩

theorem get : Consumes 0 (MonadState.get : EStateM Error σ σ) :=
  fun _ => ⟨[], Advances.rfl, fun _ _ _ => Nat.le_refl 0⟩

theorem known (e : Except Error α) : Consumes 0 (known e : EStateM Error σ α) := by
  cases e with
  | ok a => exact pure a
  | error e => exact throw 0 e

theorem failIf (c : Prop) [Decidable c] (e : Error) :
    Consumes 0 (failIf c e : EStateM Error σ Unit) := by
  unfold CborCodec.failIf
  split
  · exact throw 0 e
  · exact pure ()

theorem mono {j k : Nat} {x : EStateM Error σ α} (h : Consumes k x) (hj : j ≤ k) :
    Consumes j x := fun s =>
  let ⟨bs, hadv, hk⟩ := h s
  ⟨bs, hadv, fun a t ht => Nat.le_trans hj (hk a t ht)⟩

/-- What two actions consume adds up. -/
theorem bind {j k : Nat} {x : EStateM Error σ α} {f : α → EStateM Error σ β}
    (hx : Consumes j x) (hf : ∀ a, Consumes k (f a)) : Consumes (j + k) (x >>= f) := by
  intro s
  obtain ⟨bs, hbs, hj⟩ := hx s
  rw [bind_apply]
  cases h : x s with
  | error e t => exact ⟨bs, by simpa [h] using hbs, by simp⟩
  | ok a t =>
    -- What the second action consumes lies behind what the first one did.
    obtain ⟨cs, hcs, hk⟩ := hf a t
    rw [h, final_ok] at hbs
    refine ⟨bs ++ cs, hbs.trans hcs, fun b u hu => ?_⟩
    have h1 := hj a t h
    have h2 := hk b u hu
    rw [List.length_append]
    omega

theorem seq {j k : Nat} {x : EStateM Error σ α} {y : EStateM Error σ β}
    (hx : Consumes j x) (hy : Consumes k y) : Consumes (j + k) (x >>= fun _ => y) :=
  bind hx fun _ => hy

theorem ite {k : Nat} {c : Prop} [Decidable c] {x y : EStateM Error σ α}
    (hx : c → Consumes k x) (hy : ¬c → Consumes k y) : Consumes k (if c then x else y) := by
  split
  · exact hx ‹_›
  · exact hy ‹_›

/-- An action that consumes a byte leaves a shorter stream. -/
theorem lt_of_ok {x : EStateM Error σ α} (h : Consumes 1 x) {s t : σ} {a : α}
    (hx : x s = .ok a t) : (stream t).length < (stream s).length := by
  obtain ⟨bs, hadv, hk⟩ := h s
  rw [hx, final_ok] at hadv
  have := hk a t hx
  have := hadv.length_eq
  omega

/-- A success leaves so many bytes less in the stream. -/
theorem le_of_ok {k : Nat} {x : EStateM Error σ α} (h : Consumes k x) {s t : σ} {a : α}
    (hx : x s = .ok a t) : (stream t).length + k ≤ (stream s).length := by
  obtain ⟨bs, hadv, hk⟩ := h s
  rw [hx, final_ok] at hadv
  have := hk a t hx
  have := hadv.length_eq
  omega

theorem adaptExcept {k : Nat} {ε : Type} {x : EStateM ε σ α} {f : ε → Error}
    (h : ∀ s, ∃ bs, Advances s bs (final (x s)) ∧ ∀ a t, x s = .ok a t → k ≤ bs.length) :
    Consumes k (x.adaptExcept f) := by
  intro s
  obtain ⟨bs, hadv, hk⟩ := h s
  refine ⟨bs, ?_, ?_⟩
  · cases hx : x s <;> simpa [EStateM.adaptExcept, hx] using hadv
  · intro a t ht
    cases hx : x s with
    | error e u => simp [EStateM.adaptExcept, hx] at ht
    | ok b u =>
      simp only [EStateM.adaptExcept, hx, EStateM.Result.ok.injEq] at ht
      exact hk b u hx

theorem need (n : Nat) : Consumes 0 (Input.need n : EStateM Error σ Unit) :=
  adaptExcept fun s => ⟨[], Cursor.advances_require n s, fun _ _ _ => Nat.zero_le _⟩

theorem skip (n : Nat) : Consumes 0 (Input.skip n : EStateM Error σ Unit) :=
  fun s => ⟨_, Cursor.advances_discard n s, fun _ _ _ => Nat.zero_le _⟩

theorem read (n : Nat) : Consumes n (Input.read n : EStateM Error σ Bytes) :=
  adaptExcept fun s => by
    obtain ⟨bs, hadv, hk⟩ := Input.advances_bulkRead n s
    exact ⟨bs, hadv, fun a t ht => by obtain ⟨rfl, hl⟩ := hk a t ht; omega⟩

end Consumes

end CborCodec
