/-!
Actions on a state that outlives their failures, and how an action on one half of a pair acts on
the whole.
-/

namespace CborCodec

/-- The state an action has left behind, whether it succeeded or failed. -/
def final {ε σ α : Type} : EStateM.Result ε σ α → σ
  | .ok _ s => s
  | .error _ s => s

@[simp] theorem final_ok {ε σ α : Type} (a : α) (s : σ) :
    final (.ok a s : EStateM.Result ε σ α) = s := rfl

@[simp] theorem final_error {ε σ α : Type} (e : ε) (s : σ) :
    final (.error e s : EStateM.Result ε σ α) = s := rfl

@[inline] def onFirst {ε σ τ α : Type} (x : EStateM ε σ α) : EStateM ε (σ × τ) α :=
  fun (s, t) =>
    match x s with
    | .ok a s' => .ok a (s', t)
    | .error e s' => .error e (s', t)

@[inline] def onSecond {ε σ τ α : Type} (x : EStateM ε τ α) : EStateM ε (σ × τ) α :=
  fun (s, t) =>
    match x t with
    | .ok a t' => .ok a (s, t')
    | .error e t' => .error e (s, t')

@[inline] def known {ε σ α : Type} : Except ε α → EStateM ε σ α
  | .ok a => pure a
  | .error e => throw e

@[inline] def failIf {ε σ : Type} (c : Prop) [Decidable c] (e : ε) : EStateM ε σ Unit :=
  if c then throw e else pure ()

theorem pure_apply {ε σ α : Type} (a : α) (s : σ) :
    (pure a : EStateM ε σ α) s = .ok a s := rfl

theorem throw_apply {ε σ α : Type} (e : ε) (s : σ) :
    (throw e : EStateM ε σ α) s = .error e s := rfl

theorem get_apply {ε σ : Type} (s : σ) : (get : EStateM ε σ σ) s = .ok s s := rfl

theorem bind_apply {ε σ α β : Type} (x : EStateM ε σ α) (f : α → EStateM ε σ β) (s : σ) :
    (x >>= f) s = match x s with
      | .ok a t => f a t
      | .error e t => .error e t := by
  cases h : x s <;> simp [bind, EStateM.bind, h]

/-- A sequence succeeds through a success of its first action. -/
theorem bind_eq_ok {ε σ α β : Type} {x : EStateM ε σ α} {f : α → EStateM ε σ β} {s u : σ}
    {b : β} : (x >>= f) s = .ok b u ↔ ∃ a t, x s = .ok a t ∧ f a t = .ok b u := by
  rw [bind_apply]
  constructor
  · intro h
    cases hx : x s with
    | ok a t => exact ⟨a, t, rfl, by simpa [hx] using h⟩
    | error e t => simp [hx] at h
  · rintro ⟨a, t, hx, hf⟩
    simpa [hx] using hf

theorem pure_eq_ok {ε σ α : Type} {a b : α} {s t : σ} :
    (pure a : EStateM ε σ α) s = .ok b t ↔ a = b ∧ s = t := by
  simp [pure_apply]

theorem known_eq_ok {ε σ α : Type} {e : Except ε α} {a : α} {s t : σ} :
    known e s = .ok a t ↔ e = .ok a ∧ s = t := by
  cases e <;> simp [known, pure_apply, throw_apply]

theorem failIf_eq_ok {ε σ : Type} {c : Prop} [Decidable c] {e : ε} {u : Unit} {s t : σ} :
    failIf c e s = .ok u t ↔ ¬c ∧ s = t := by
  by_cases h : c <;> simp [failIf, h, pure_apply, throw_apply]

theorem get_eq_ok {ε σ : Type} {a s t : σ} :
    (get : EStateM ε σ σ) s = .ok a t ↔ s = a ∧ s = t := by
  simp [get_apply]

theorem adaptExcept_eq_ok {ε ε' σ α : Type} {x : EStateM ε σ α} {f : ε → ε'} {a : α} {s t : σ} :
    x.adaptExcept f s = .ok a t ↔ x s = .ok a t := by
  cases h : x s <;> simp [EStateM.adaptExcept, h]

@[simp] theorem final_onFirst {ε σ τ α : Type} (x : EStateM ε σ α) (s : σ × τ) :
    final (onFirst x s) = (final (x s.1), s.2) := by
  obtain ⟨s, t⟩ := s
  cases h : x s <;> simp [onFirst, h]

theorem onFirst_eq_ok {ε σ τ α : Type} {x : EStateM ε σ α} {s s' : σ × τ} {a : α} :
    onFirst x s = .ok a s' ↔ x s.1 = .ok a s'.1 ∧ s.2 = s'.2 := by
  obtain ⟨s, t⟩ := s
  obtain ⟨s', t'⟩ := s'
  cases h : x s <;> simp [onFirst, h, and_assoc]

theorem onSecond_eq_ok {ε σ τ α : Type} {x : EStateM ε τ α} {s s' : σ × τ} {a : α} :
    onSecond x s = .ok a s' ↔ x s.2 = .ok a s'.2 ∧ s.1 = s'.1 := by
  obtain ⟨s, t⟩ := s
  obtain ⟨s', t'⟩ := s'
  cases h : x t <;> simp [onSecond, h, and_assoc, and_comm]

end CborCodec
