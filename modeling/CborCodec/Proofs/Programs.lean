import CborCodec.Proofs.Containment
import CborCodec.Proofs.Leaves
/-!
Trees of calls. What is asked of a program is mostly asked of every call in it, whatever the depth.
A call that may write anything but an item of its own, or that ignores a failure, is singled out
this way.
-/

namespace CborCodec

namespace Program

/-- Induction over programs: the calls of a container come before it. -/
@[induction_eliminator]
theorem inductionOn {motive : Program → Prop} (p : Program) (leaf : ∀ l, motive (.leaf l))
    (raw : ∀ bs, motive (.raw bs)) (itemFrom : motive .itemFrom)
    (tagged : ∀ tags l, motive (.tagged tags l))
    (container : ∀ kind count calls, (∀ c ∈ calls, motive c) →
      motive (.container kind count calls))
    (byteCalls : ∀ calls, motive (.byteCalls calls))
    (textCalls : ∀ calls, motive (.textCalls calls))
    (attempt : ∀ call, motive call → motive (.attempt call)) (fail : motive .fail) : motive p := by
  refine Program.rec (motive_1 := motive) (motive_2 := fun calls => ∀ c ∈ calls, motive c)
    leaf raw itemFrom tagged container byteCalls textCalls attempt fail (by simp) ?_ p
  intro call calls hcall hcalls
  exact List.forall_mem_cons.mpr ⟨hcall, hcalls⟩

mutual

def parts : Program → List Program
  | container kind count calls => container kind count calls :: partsAll calls
  | attempt call => attempt call :: parts call
  | p => [p]

def partsAll : List Program → List Program
  | [] => []
  | call :: calls => parts call ++ partsAll calls

end

def Throughout (P : Program → Prop) (p : Program) : Prop := ∀ q ∈ p.parts, P q

section Throughout

variable {P Q : Program → Prop} {p : Program} {kind : Container} {count : Option UInt64}
  {calls : List Program}

theorem mem_partsAll {calls : List Program} {q : Program} :
    q ∈ partsAll calls ↔ ∃ c ∈ calls, q ∈ c.parts := by
  induction calls with
  | nil => simp [partsAll]
  | cons c cs ih => simp only [partsAll, List.mem_append, ih, List.mem_cons, exists_eq_or_imp]

theorem throughout_container :
    (container kind count calls).Throughout P ↔
      P (container kind count calls) ∧ ∀ c ∈ calls, c.Throughout P := by
  rw [Throughout, parts, List.forall_mem_cons]
  refine and_congr_right fun _ => ⟨fun h c hc q hq => ?_, fun h q hq => ?_⟩
  · exact h q (mem_partsAll.mpr ⟨c, hc, hq⟩)
  · obtain ⟨c, hc, hq⟩ := mem_partsAll.mp hq
    exact h c hc q hq

theorem throughout_attempt : (attempt p).Throughout P ↔ P (attempt p) ∧ p.Throughout P :=
  List.forall_mem_cons

theorem throughout_of_parts (h : p.parts = [p]) : p.Throughout P ↔ P p := by
  rw [Throughout, h, List.forall_mem_singleton]

theorem Throughout.self (h : p.Throughout P) : P p := by
  apply h
  cases p <;> exact List.mem_cons_self ..

end Throughout

/-- A map that declares no count has as many calls for values as for keys. -/
def Even : Program → Prop
  | container .map none calls => (calls.map places).sum % 2 = 0
  | _ => True

def pairUp {α : Type} : List α → List (α × α)
  | a :: b :: rest => (a, b) :: pairUp rest
  | _ => []

/-- A sequence of even length is one of pairs. -/
theorem exists_pairUp {α : Type} {l : List α} (h : l.length % 2 = 0) :
    ∃ pairs : List (α × α), l = pairs.flatMap fun p => [p.1, p.2] := by
  induction l using pairUp.induct with
  | case1 a b rest ih =>
    simp only [List.length_cons] at h
    obtain ⟨pairs, rfl⟩ := ih (by omega)
    exact ⟨(a, b) :: pairs, rfl⟩
  | case2 l hl =>
    cases l with
    | nil => exact ⟨[], rfl⟩
    | cons a rest =>
      cases rest with
      | nil => simp at h
      | cons b rest => exact absurd rfl (hl a b rest)

theorem pairUp_flatMap {α : Type} (pairs : List (α × α)) :
    pairUp (pairs.flatMap fun p => [p.1, p.2]) = pairs := by
  induction pairs with
  | nil => rfl
  | cons p pairs ih => exact congrArg (p :: ·) ih

section Frames

def lead (kind : Container) : Option UInt64 → Bytes
  | none => kind.major.opening
  | some count => Head.encode kind.major count

def trail : Option UInt64 → Bytes
  | none => [breakByte]
  | some _ => []

def declares (kind : Container) (count : Option UInt64) : Option Nat :=
  count.map fun n => n.toNat * kind.slots

/-- A container that declares so many calls has places for `n` more. -/
def HasPlaces (declared : Option Nat) (taken n : Nat) : Prop :=
  ∀ k, declared = some k → n = 0 ∨ taken + n ≤ k

variable {σ τ : Type} [Output τ]

abbrev putBeside (bs : Bytes) : EStateM Error (σ × τ) Unit := onSecond (Output.putHead bs)

theorem emits_takePlace (declared : Option Nat) (taken : Nat) :
    Emits (putBeside (σ := σ) (τ := τ)) (takePlace declared taken) (HasPlaces declared taken 1) []
      () := by
  cases declared with
  | none => exact (Emits.pure ()).congr (by simp [HasPlaces])
  | some n => exact (Emits.failIf _).congr (by simp [HasPlaces])

theorem emits_openContainer (kind : Container) (count : Option UInt64) :
    Emits (Output.putHead (τ := τ)) (openContainer kind count)
      (∀ n, declares kind count = some n → n < UInt64.size) (lead kind count)
      (declares kind count) := by
  cases count with
  | none =>
    have hopening := encodeIndefinite_eq (m := kind.major)
      (by cases kind <;> simp [Container.major])
    have h : Emits (Output.putHead (τ := τ)) (openContainer kind none) (True ∧ True)
        (kind.major.opening ++ []) none := (emits_checked hopening).bind (Emits.pure none)
    rw [List.append_nil] at h
    exact h.congr (by simp [declares])
  | some count =>
    have h : Emits (Output.putHead (τ := τ)) (openContainer kind (some count)) _
        (Head.encode kind.major count ++ []) (some (count.toNat * kind.slots)) :=
      (Emits.piece _).bind ((Emits.failIf (UInt64.size ≤ count.toNat * kind.slots)).bind
        (Emits.pure (some (count.toNat * kind.slots))))
    rw [List.append_nil] at h
    exact h.congr (by simp [declares])

/-- A container that declares a count is valid at its end only with all places taken. -/
theorem emits_endContainer (kind : Container) (count : Option UInt64) (taken : Nat) :
    Emits (Output.putHead (τ := τ)) (endContainer (declares kind count) taken)
      (∀ n, declares kind count = some n → taken = n) (trail count) () := by
  cases count with
  | none => exact (Emits.piece _).congr (by simp [declares])
  | some count => exact (Emits.failIf _).congr (by simp [declares])

end Frames

end Program

end CborCodec
