import CborCodec.Chunks
import CborCodec.Containers
import CborCodec.Value
/-!
Decoding items to values. The recursion is bounded by the depth that the options allow.
-/

namespace CborCodec

variable {σ : Type} [Input σ]

namespace Value

def ofSpecial (head : Head) : Except Error Value :=
  match head.float?, head.simple? with
  | some d, _ => .ok (.float d)
  | none, some n =>
    .ok <|
      if n = simpleFalse then .false
      else if n = simpleTrue then .true
      else if n = simpleNull then .null
      else if n = simpleUndefined then .undefined
      else .simple n
  | none, none => .error .itemTypeMismatch

/-- The reader of the items inside another, or the failure that there may be none. -/
def descend (inner : Option (EStateM Error σ Value)) :
    EStateM Error σ (EStateM Error σ Value) :=
  match inner with
  | some item => pure item
  | none => throw .maxNestingDepth

def decodeContents (options : Options) (inner : Option (EStateM Error σ Value)) (head : Head) :
    EStateM Error σ Value :=
  match head.major with
  | .unsigned => pure (.unsigned head.value)
  | .negative => pure (.negative head.value)
  | .bytes => do return .bytes (← readPayload options head)
  | .text => do
    let bytes ← readPayload options head
    return .text (← known (textOf bytes))
  | .array => do
    let item ← descend inner
    let (_, items) ← arrayItems options head (fun items => do return (← item) :: items) []
    return .array items.reverse
  | .map => do
    let item ← descend inner
    let (_, pairs) ←
      mapItems options head item (fun key pairs => do return (key, ← item) :: pairs) []
    return .map pairs.reverse
  | .tag => do
    let item ← descend inner
    return .tag head.value (← item)
  | .special => known (ofSpecial head)

/-- Decodes an item whose contents are nested at most `depth` deep. -/
def decodeWithin (options : Options) : Nat → EStateM Error σ Value
  | 0 => do decodeContents options none (← readHead options.mode)
  | depth + 1 => do
    decodeContents options (some (decodeWithin options depth)) (← readHead options.mode)

def decode (options : Options) : EStateM Error σ Value :=
  decodeWithin options options.maxDepth.toNat

theorem consumes_decodeContents (options : Options) {inner : Option (EStateM Error σ Value)}
    (h : ∀ item, inner = some item → Consumes 0 item) (head : Head) :
    Consumes 0 (decodeContents options inner head) := by
  have hd : ∀ {α : Type} {f : EStateM Error σ Value → EStateM Error σ α},
      (∀ item, Consumes 0 item → Consumes 0 (f item)) → Consumes 0 (descend inner >>= f) := by
    intro α f hf
    cases inner with
    | none => exact Consumes.throw 0 _
    | some item => exact hf item (h item rfl)
  unfold decodeContents
  split
  · exact .pure _
  · exact .pure _
  · exact .bind (.readPayload _ _) fun _ => .pure _
  · exact .bind (.readPayload _ _) fun _ => .bind (.known _) fun _ => .pure _
  · exact hd fun item hi =>
      .bind (.arrayItems (fun _ => .bind hi fun _ => .pure _) _ _ _) fun _ => .pure _
  · exact hd fun item hi =>
      .bind (.mapItems hi (fun _ _ => .bind hi fun _ => .pure _) _ _ _) fun _ => .pure _
  · exact hd fun item hi => .bind hi fun _ => .pure _
  · exact .known _

/-- A value takes a byte at least, so every loop over values ends. -/
theorem consumes_decodeWithin (options : Options) (depth : Nat) :
    Consumes 1 (decodeWithin options depth : EStateM Error σ Value) := by
  induction depth with
  | zero =>
    exact .bind (k := 0) (.readHead _) fun _ =>
      consumes_decodeContents options (by simp) _
  | succ depth ih =>
    refine .bind (k := 0) (.readHead _) fun _ => consumes_decodeContents options ?_ _
    rintro item ⟨⟩
    exact ih.mono (Nat.zero_le 1)

theorem consumes_decode (options : Options) :
    Consumes 1 (decode options : EStateM Error σ Value) :=
  consumes_decodeWithin options _

end Value

end CborCodec
