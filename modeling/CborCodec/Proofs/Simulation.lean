import CborCodec.Proofs.Walking
/-!
Two runs side by side. A comparison relates states of two kinds of inputs, with what travels with
them; an action follows another if from related states it gives the same answer or the same
failure, and leaves related states behind. Some failures of the first run may be excused, and it
may be assumed where the first run ends. A walk follows another if four of its pieces do: taking a
head, the check of what is available, closing a container and moving a payload.
-/

namespace CborCodec

def outcome {ε σ α : Type} : EStateM.Result ε σ α → Except ε α
  | .ok a _ => .ok a
  | .error e _ => .error e

theorem eq_ok_of_outcome {ε σ α : Type} {r : EStateM.Result ε σ α} {a : α}
    (h : outcome r = .ok a) : r = .ok a (final r) := by
  cases r with
  | ok b s =>
    cases h
    rfl
  | error e s => cases h

theorem outcome_known {ε σ α : Type} (answer : Except ε α) (s : σ) :
    outcome (known answer s) = answer := by
  cases answer <;> rfl

theorem final_known {ε σ α : Type} (answer : Except ε α) (s : σ) :
    final (known answer s) = s := by
  cases answer <;> rfl

/-- How the states of two runs correspond, and what is asked of the first run. -/
structure Comparison (S S' : Type) [Input S] where
  rel : S → S' → Prop
  /-- Failures of the first run after which nothing is said about the second. -/
  excused : Error → Prop
  /-- Where the first run may end. -/
  live : S → Prop
  live_of_advances : ∀ {s bs t}, Advances s bs t → live t → live s

section Calculus

variable {S S' α β : Type} [Input S] {C : Comparison S S'} {x : EStateM Error S α}
  {y : EStateM Error S' α} {f : α → EStateM Error S β} {g : α → EStateM Error S' β} {s : S} {r : S'}

/-- From these two states the second action ends as the first does. -/
def FollowsAt (C : Comparison S S') (x : EStateM Error S α) (y : EStateM Error S' α) (s : S)
    (r : S') : Prop :=
  C.live (final (x s)) →
    match x s with
    | .ok a t => ∃ u, y r = .ok a u ∧ C.rel t u
    | .error e t => C.excused e ∨ ∃ u, y r = .error e u ∧ C.rel t u

/-- From related states the second action ends as the first does, which only moves forward. -/
structure Follows (C : Comparison S S') (x : EStateM Error S α) (y : EStateM Error S' α) :
    Prop where
  consumes : Consumes 0 x
  at_rel : ∀ s r, C.rel s r → FollowsAt C x y s r

namespace FollowsAt

theorem ok {a : α} {t : S} (h : FollowsAt C x y s r) (hx : x s = .ok a t) (hl : C.live t) :
    ∃ u, y r = .ok a u ∧ C.rel t u := by
  rw [FollowsAt, hx] at h
  exact h hl

theorem error {e : Error} {t : S} (h : FollowsAt C x y s r) (hx : x s = .error e t)
    (hl : C.live t) : C.excused e ∨ ∃ u, y r = .error e u ∧ C.rel t u := by
  rw [FollowsAt, hx] at h
  exact h hl

theorem of_ok {a : α} {t : S} (hx : x s = .ok a t)
    (hy : C.live t → ∃ u, y r = .ok a u ∧ C.rel t u) : FollowsAt C x y s r := by
  rw [FollowsAt, hx]
  exact hy

theorem of_error {e : Error} {t : S} (hx : x s = .error e t)
    (hy : C.live t → ∃ u, y r = .error e u ∧ C.rel t u) : FollowsAt C x y s r := by
  rw [FollowsAt, hx]
  exact fun hl => Or.inr (hy hl)

theorem excuse {e : Error} {t : S} (hx : x s = .error e t) (he : C.excused e) :
    FollowsAt C x y s r := by
  rw [FollowsAt, hx]
  exact fun _ => Or.inl he

/-- Where no failure is excused, both runs end alike and in related states. -/
theorem ends (h : FollowsAt C x y s r) (hl : C.live (final (x s))) (he : ∀ e, ¬C.excused e) :
    outcome (y r) = outcome (x s) ∧ C.rel (final (x s)) (final (y r)) := by
  cases hx : x s with
  | ok a t =>
    rw [hx] at hl
    obtain ⟨u, hu, hrel⟩ := h.ok hx hl
    rw [hu]
    exact ⟨rfl, hrel⟩
  | error e t =>
    rw [hx] at hl
    obtain ⟨u, hu, hrel⟩ := (h.error hx hl).resolve_left (he e)
    rw [hu]
    exact ⟨rfl, hrel⟩

/-- What follows two runs that follow each other may rely on the success of the first. -/
theorem bind (hx : FollowsAt C x y s r) (hc : ∀ a, Consumes 0 (f a))
    (hf : ∀ a t u, x s = .ok a t → C.rel t u → FollowsAt C (f a) (g a) t u) :
    FollowsAt C (x >>= f) (y >>= g) s r := by
  cases h : x s with
  | error e t =>
    intro hlive
    simp only [bind_apply, h] at hlive ⊢
    rcases hx.error h hlive with he | ⟨u, hu, hrel⟩
    · exact Or.inl he
    · exact Or.inr ⟨u, by rw [hu], hrel⟩
  | ok a t =>
    intro hlive
    simp only [bind_apply, h] at hlive ⊢
    obtain ⟨bs, hadv, -⟩ := hc a t
    obtain ⟨u, hu, hrel⟩ := hx.ok h (C.live_of_advances hadv hlive)
    rw [hu]
    exact hf a t u h hrel hlive

end FollowsAt

namespace Follows

theorem pure (a : α) : Follows C (Pure.pure a) (Pure.pure a) :=
  ⟨.pure a, fun _ _ hrel => .of_ok rfl fun _ => ⟨_, rfl, hrel⟩⟩

theorem throw (e : Error) : Follows C (α := α) (MonadExcept.throw e) (MonadExcept.throw e) :=
  ⟨.throw 0 e, fun _ _ hrel => .of_error rfl fun _ => ⟨_, rfl, hrel⟩⟩

theorem known (e : Except Error α) : Follows C (known e) (known e) := by
  cases e with
  | ok a => exact pure a
  | error e => exact throw e

theorem failIf (c : Prop) [Decidable c] (e : Error) : Follows C (failIf c e) (failIf c e) := by
  unfold CborCodec.failIf
  split
  · exact throw e
  · exact pure ()

theorem bind (hx : Follows C x y) (hf : ∀ a, Follows C (f a) (g a)) :
    Follows C (x >>= f) (y >>= g) :=
  ⟨Consumes.bind hx.consumes fun a => (hf a).consumes, fun s r hrel =>
    (hx.at_rel s r hrel).bind (fun a => (hf a).consumes) fun a t u _ => (hf a).at_rel t u⟩

theorem seq {y' : EStateM Error S' α} {z : EStateM Error S β} {z' : EStateM Error S' β}
    (hx : Follows C x y') (hz : Follows C z z') :
    Follows C (x >>= fun _ => z) (y' >>= fun _ => z') :=
  bind hx fun _ => hz

theorem ite {c : Prop} [Decidable c] {x' : EStateM Error S α} {y' : EStateM Error S' α}
    (h : c → Follows C x y) (h' : ¬c → Follows C x' y') :
    Follows C (if c then x else x') (if c then y else y') := by
  split
  · exact h ‹_›
  · exact h' ‹_›

end Follows

def Comparison.invariant (I : S → Prop) : Comparison S S where
  rel s r := s = r ∧ I s
  excused _ := False
  live _ := True
  live_of_advances _ h := h

/-- An action that keeps an invariant follows itself along it. -/
theorem Follows.of_invariant {I : S → Prop} (hc : Consumes 0 x)
    (hi : ∀ s, I s → I (final (x s))) : Follows (.invariant I) x x := by
  refine ⟨hc, ?_⟩
  rintro s _ ⟨rfl, hs⟩
  have hkept := hi s hs
  cases h : x s with
  | ok a t =>
    rw [h, final_ok] at hkept
    exact .of_ok h fun _ => ⟨t, h, rfl, hkept⟩
  | error e t =>
    rw [h, final_error] at hkept
    exact .of_error h fun _ => ⟨t, h, rfl, hkept⟩

theorem Follows.invariant {I : S → Prop} (h : Follows (.invariant I) x x) {s : S} (hs : I s) :
    I (final (x s)) :=
  ((h.at_rel s s ⟨rfl, hs⟩).ends trivial fun _ => id).2.2

end Calculus

section Walk

variable {σ τ σ' τ' : Type} [Input σ] [Output τ] [Input σ'] [Output τ']

def tryClose (frame : Frame) : EStateM Error (σ × τ) Bool := do
  if ← atBreak then
    closeContainer frame
    return true
  else
    return false

theorem Consumes.tryClose (frame : Frame) :
    Consumes 0 (tryClose frame : EStateM Error (σ × τ) Bool) :=
  .bind .atBreak fun _ => .ite (fun _ => .seq (.closeContainer _) (.pure _)) fun _ => .pure _

theorem stepContainer_eq (options : Options) (frame : Frame) (below : List Frame) :
    (stepContainer options frame below : EStateM Error (σ × τ) (List Frame)) =
      if frame.indefinite then do
        if ← tryClose frame then return below
        else openElement options frame below
      else if frame.remaining = 0 then pure below
      else openElement options frame below := by
  unfold stepContainer tryClose
  split
  · rw [bind_assoc]
    congr 1
    funext ended
    cases ended <;> simp
  · rfl

structure WalkFollows (C : Comparison (σ × τ) (σ' × τ')) (options : Options) : Prop where
  takeHead : Follows C (takeHead options.mode) (takeHead options.mode)
  checkAvailable : ∀ major count,
    Follows C (checkAvailable major count) (checkAvailable major count)
  tryClose : ∀ frame, Follows C (tryClose frame) (tryClose frame)
  transfer : ∀ n, Follows C (transfer n) (transfer n)

namespace WalkFollows

variable {C : Comparison (σ × τ) (σ' × τ')} {options : Options} (h : WalkFollows C options)

include h

theorem takeFrame : Follows C (takeFrame options) (takeFrame options) := by
  refine h.takeHead.bind fun head => .seq ?_ (.pure _)
  exact .ite (fun _ => (h.checkAvailable _ _).seq (.failIf _ _)) fun _ => .pure _

theorem takeChunkHead (major : Major) :
    Follows C (takeChunkHead options major) (takeChunkHead options major) :=
  h.takeHead.bind fun _ => .ite (fun _ => .pure _) fun _ => .seq (.failIf _ _) (.pure _)

theorem transferChunk (length total : Nat) :
    Follows C (transferChunk options length total) (transferChunk options length total) :=
  .seq ((h.checkAvailable _ _).seq (.failIf _ _)) (h.transfer length)

theorem transferChunks (major : Major) (total : Nat) :
    Follows C (transferChunks options major total) (transferChunks options major total) := by
  refine ⟨.transferChunks _ _ _, ?_⟩
  -- Each turn of the loop leaves less of the first stream.
  intro s
  induction hn : (stream s).length using Nat.strong_induction_on generalizing total s with
  | _ n ih =>
    intro r hrel
    rw [transferChunks_eq (σ := σ), transferChunks_eq (σ := σ')]
    refine ((h.takeChunkHead major).at_rel s r hrel).bind (fun chunk => ?_)
      fun chunk t u ht hrel => ?_
    · cases chunk with
      | none => exact .pure _
      | some length => exact .seq (.transferChunk _ _ _) (.transferChunks _ _ _)
    cases chunk with
    | none => exact (Follows.pure ()).at_rel t u hrel
    | some length =>
      refine ((h.transferChunk length total).at_rel t u hrel).bind
        (fun _ => .transferChunks _ _ _) fun _ t' u' ht' hrel => ?_
      have hlt := (Consumes.takeChunkHead options major).lt_of_ok ht
      have hle := (Consumes.transferChunk options length total).le_of_ok ht'
      exact ih _ (by omega) _ t' rfl u' hrel

theorem openElement (frame : Frame) (below : List Frame) :
    Follows C (openElement options frame below) (openElement options frame below) :=
  h.takeFrame.bind fun _ => .pure _

theorem stepContainer (frame : Frame) (below : List Frame) :
    Follows C (stepContainer options frame below) (stepContainer options frame below) := by
  rw [stepContainer_eq (σ := σ), stepContainer_eq (σ := σ')]
  exact .ite
    (fun _ => (h.tryClose frame).bind fun _ => .ite (fun _ => .pure _) fun _ => h.openElement _ _)
    fun _ => .ite (fun _ => .pure _) fun _ => h.openElement _ _

theorem step (frame : Frame) (below : List Frame) :
    Follows C (step options frame below) (step options frame below) := by
  cases hm : frame.major <;> simp only [CborCodec.step, hm]
  case unsigned | negative => exact .pure _
  case special => exact .seq (.failIf _ _) (.pure _)
  case bytes | text =>
    exact .seq (.ite (fun _ => h.transferChunks _ _) fun _ => h.transferChunk _ _) (.pure _)
  case array | map => exact h.stepContainer _ _
  case tag => exact h.takeFrame.bind fun _ => .pure _

/-- By induction on the potential, walks whose pieces follow each other follow each other. -/
theorem resume (frames : List Frame) :
    Follows C (resume options frames) (resume options frames) := by
  refine ⟨.walk _ _, ?_⟩
  -- Each step uses up some of the potential of the first walk.
  intro s
  induction hn : potential frames s using Nat.strong_induction_on generalizing frames s with
  | _ n ih =>
    intro r hrel
    cases frames with
    | nil =>
      rw [resume_nil (σ := σ), resume_nil (σ := σ')]
      exact (Follows.pure ()).at_rel s r hrel
    | cons frame below =>
      rw [resume_cons (σ := σ), resume_cons (σ := σ')]
      refine ((h.step frame below).at_rel s r hrel).bind (fun _ => .walk _ _)
        fun frames t u ht hrel => ?_
      have hlt := potential_step ht
      exact ih _ (by omega) frames t rfl u hrel

/-- The walk over an item follows if its pieces do. -/
theorem walkItem (below : List Frame) :
    Follows C (walkItem options below) (walkItem options below) :=
  h.takeFrame.bind fun _ => h.resume _

end WalkFollows

end Walk

end CborCodec
