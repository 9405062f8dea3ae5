import CborCodec.Head.Read
import CborCodec.Limits
/-!
Arrays and maps, driven by the actions that read their elements. The number of calls is fixed by
the head, or bounded by the limit on items where a break ends the container, so reading ends
whatever the actions do.
-/

namespace CborCodec

variable {σ κ β : Type} [Input σ]

def repeatItem (item : β → EStateM Error σ β) : Nat → β → EStateM Error σ β
  | 0, b => pure b
  | n + 1, b => do repeatItem item n (← item b)

/-- Runs an action for each element up to a break, at most `allowance` times more. -/
def untilBreak (item : β → EStateM Error σ β) : Nat → Nat → β → EStateM Error σ (Nat × β)
  | allowance, count, b => do
    if ← atBreak then
      Input.skip 1
      return (count, b)
    else
      match allowance with
      | 0 => throw .itemValueOutOfRange
      | allowance + 1 => untilBreak item allowance (count + 1) (← item b)

def arrayItems (options : Options) (head : Head) (item : β → EStateM Error σ β) (init : β) :
    EStateM Error σ (Nat × β) := do
  if head.indefinite then
    untilBreak item options.maxItems.toNat 0 init
  else
    checkAvailable .array head.value.toNat
    checkItems options head.value.toNat
    let b ← repeatItem item head.value.toNat init
    return (head.value.toNat, b)

/-- Reads the value that belongs to a key, which a break must not take the place of. -/
def owedValue (value : κ → β → EStateM Error σ β) (k : κ) (b : β) : EStateM Error σ β := do
  let ended ← atBreak
  failIf (ended = true) .itemTypeMismatch
  value k b

def mapItems (options : Options) (head : Head) (key : EStateM Error σ κ)
    (value : κ → β → EStateM Error σ β) (init : β) : EStateM Error σ (Nat × β) := do
  if head.indefinite then
    untilBreak (fun b => do owedValue value (← key) b) options.maxItems.toNat 0 init
  else
    checkAvailable .map head.value.toNat
    checkItems options head.value.toNat
    let b ← repeatItem (fun b => do value (← key) b) head.value.toNat init
    return (head.value.toNat, b)

def readArray (options : Options) (item : β → EStateM Error σ β) (init : β) :
    EStateM Error σ (Nat × β) := do
  let head ← readHead options.mode
  failIf (head.major ≠ .array) .itemTypeMismatch
  arrayItems options head item init

def readMap (options : Options) (key : EStateM Error σ κ) (value : κ → β → EStateM Error σ β)
    (init : β) : EStateM Error σ (Nat × β) := do
  let head ← readHead options.mode
  failIf (head.major ≠ .map) .itemTypeMismatch
  mapItems options head key value init

theorem Consumes.repeatItem {item : β → EStateM Error σ β} (h : ∀ b, Consumes 0 (item b))
    (n : Nat) (b : β) : Consumes 0 (repeatItem item n b) := by
  induction n generalizing b with
  | zero => exact .pure b
  | succ n ih => exact .bind (h b) ih

theorem Consumes.untilBreak {item : β → EStateM Error σ β} (h : ∀ b, Consumes 0 (item b))
    (allowance count : Nat) (b : β) : Consumes 0 (untilBreak item allowance count b) := by
  induction allowance generalizing count b with
  | zero =>
    exact .bind .atBreak fun _ =>
      .ite (fun _ => .seq (.skip 1) (.pure _)) fun _ => .throw 0 _
  | succ n ih =>
    exact .bind .atBreak fun _ =>
      .ite (fun _ => .seq (.skip 1) (.pure _)) fun _ => .bind (h b) fun _ => ih _ _

theorem Consumes.arrayItems {item : β → EStateM Error σ β} (h : ∀ b, Consumes 0 (item b))
    (options : Options) (head : Head) (init : β) :
    Consumes 0 (arrayItems options head item init) :=
  .ite (fun _ => .untilBreak h _ _ _) fun _ =>
    .seq (.checkAvailable _ _) (.seq (.checkItems _ _) (.bind (.repeatItem h _ _) fun _ => .pure _))

theorem Consumes.mapItems {key : EStateM Error σ κ} {value : κ → β → EStateM Error σ β}
    (hk : Consumes 0 key) (hv : ∀ k b, Consumes 0 (value k b)) (options : Options) (head : Head)
    (init : β) : Consumes 0 (mapItems options head key value init) :=
  .ite
    (fun _ => .untilBreak
      (fun b => .bind hk fun k => .bind .atBreak fun _ => .seq (.failIf _ _) (hv k b)) _ _ _)
    fun _ => .seq (.checkAvailable _ _) (.seq (.checkItems _ _)
      (.bind (.repeatItem (fun b => .bind hk fun k => hv k b) _ _) fun _ => .pure _))

end CborCodec
