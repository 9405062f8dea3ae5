import CborCodec.Walk
/-!
A walker kept for several items. It has options of its own, and its stack of frames outlives a
walk: the stack is emptied before a walk begins and after it ends, in whatever way it ends.
-/

namespace CborCodec

variable {σ τ : Type} [Input σ] [Output τ]

structure Transcriber where
  options : Options
  /-- What is open, the innermost first. -/
  frames : List Frame := []
  deriving Repr, Inhabited

namespace Transcriber

def clear (w : Transcriber) : Transcriber := { w with frames := [] }

/-- Walks over the next item, and then over what the stack holds. -/
def walk (w : Transcriber) : EStateM Error (σ × τ) Unit := do
  let frame ← takeFrame w.options
  CborCodec.walk w.options (frame :: w.frames)

def copyItem : EStateM Error (Transcriber × σ × τ) Unit := fun (w, s) =>
  onSecond w.clear.walk (w.clear, s)

def skipItem : EStateM Error (Transcriber × σ) Unit := fun (w, s) =>
  match copyItem (w, s, ({} : Nowhere)) with
  | .ok () (w, s, _) => .ok () (w, s)
  | .error e (w, s, _) => .error e (w, s)

/-- What the kept walker was left with does not matter, and nothing is left in it. -/
theorem copyItem_apply (w : Transcriber) (s : σ × τ) :
    copyItem (w, s) = onSecond (CborCodec.copyItem w.options) (w.clear, s) := rfl

omit [Output τ] in
theorem skipItem_apply (w : Transcriber) (s : σ) :
    skipItem (w, s) = onSecond (CborCodec.skipItem w.options) (w.clear, s) := by
  simp only [skipItem, copyItem_apply, CborCodec.skipItem, onSecond]
  cases CborCodec.copyItem w.options (s, ({} : Nowhere)) <;> rfl

end Transcriber

end CborCodec
