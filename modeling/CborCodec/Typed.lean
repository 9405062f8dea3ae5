import CborCodec.Input.Memory
import CborCodec.Power
import CborCodec.Value.Decode
/-!
Decoding items to values of a chosen type. Integers must fit their type, floats of single
precision must be exact, and an optional item may be null or undefined.
-/

namespace CborCodec

/-- Widths of machine integers; `word` is that of addresses. -/
inductive Width where
  | w8
  | w16
  | w32
  | w64
  | word
  deriving DecidableEq, Repr

def Width.bits : Width → Nat
  | w8 => 8
  | w16 => 16
  | w32 => 32
  | w64 => 64
  | word => 64

inductive IntType where
  | unsigned (width : Width)
  | signed (width : Width)
  deriving DecidableEq, Repr

namespace IntType

def least : IntType → Int
  | unsigned _ => 0
  | signed w => -(twoPow (w.bits - 1))

def greatest : IntType → Int
  | unsigned w => twoPow w.bits - 1
  | signed w => twoPow (w.bits - 1) - 1

abbrev Carrier (t : IntType) : Type := { n : Int // t.least ≤ n ∧ n ≤ t.greatest }

def ofInt? (t : IntType) (n : Int) : Option t.Carrier :=
  if h : t.least ≤ n ∧ n ≤ t.greatest then some ⟨n, h⟩ else none

end IntType

structure Single where
  bits : UInt32
  deriving DecidableEq, Repr, Inhabited

inductive Target where
  | integer (type : IntType)
  | bool
  | single
  | double
  | text
  | bytes
  | value
  | option (target : Target)
  deriving DecidableEq, Repr

def Target.Carrier : Target → Type
  | integer t => t.Carrier
  | bool => Bool
  | single => Single
  | double => Double
  | text => String
  | bytes => Bytes
  | value => Value
  | option t => Option t.Carrier

variable {σ : Type} [Input σ]

/-- The integer of a head for a target type, in whose range it need not be. To an unsigned type
a negative integer is of another type, and to a signed one it must fit a signed word. -/
def IntType.ofHead (t : IntType) (head : Head) : Except Error Int :=
  match t with
  | unsigned _ =>
    if head.major = .unsigned ∧ !head.indefinite then .ok head.value.toNat
    else .error .itemTypeMismatch
  | signed _ => head.signed

def orFail {α : Type} (a : Option α) (e : Error) : Except Error α :=
  match a with
  | some a => .ok a
  | none => .error e

def decodeInteger (options : Options) (t : IntType) : EStateM Error σ t.Carrier := do
  let head ← readHead options.mode
  let n ← known (t.ofHead head)
  known (orFail (t.ofInt? n) .itemValueOutOfRange)

def boolOf (head : Head) : Except Error Bool :=
  if head.simple? = some simpleFalse then .ok false
  else if head.simple? = some simpleTrue then .ok true
  else .error .itemTypeMismatch

def decodeBool (options : Options) : EStateM Error σ Bool := do
  let head ← readHead options.mode
  known (boolOf head)

def decodeDouble (options : Options) : EStateM Error σ Double := do
  let head ← readHead options.mode
  known (orFail head.float? .itemTypeMismatch)

/-- The single-precision float that equals a double. Every NaN becomes the quiet one. -/
def Single.ofDouble (d : Double) : Except Error Single :=
  if d.isNaN then .ok ⟨0x7FC00000⟩
  else orFail (d.toSingle?.map Single.mk) .itemValueOutOfRange

def decodeSingle (options : Options) : EStateM Error σ Single := do
  let d ← decodeDouble options
  known (Single.ofDouble d)

def Head.isMissing (head : Head) : Prop :=
  head.simple? = some simpleNull ∨ head.simple? = some simpleUndefined

instance (head : Head) : Decidable head.isMissing := by
  unfold Head.isMissing; infer_instance

def decodeOption {α : Type} (options : Options) (inner : EStateM Error σ α) :
    EStateM Error σ (Option α) := do
  let head ← peekHead options.mode
  if head.isMissing then
    Input.skip head.encodedLength
    return none
  else
    return some (← inner)

def Target.decode (options : Options) : (t : Target) → EStateM Error σ t.Carrier
  | integer t => decodeInteger options t
  | bool => decodeBool options
  | single => decodeSingle options
  | double => decodeDouble options
  | text => readText options
  | bytes => readBytes options
  | value => Value.decode options
  | option t => decodeOption options (t.decode options)

theorem Target.consumes_decode (options : Options) (t : Target) :
    Consumes 1 (t.decode options : EStateM Error σ t.Carrier) := by
  induction t with
  | integer t =>
    exact .bind (k := 0) (.readHead _) fun _ => .bind (.known _) fun _ => .known _
  | bool => exact .bind (k := 0) (.readHead _) fun _ => .known _
  | single =>
    exact .bind (k := 0) (.bind (k := 0) (.readHead _) fun _ => .known _) fun _ => .known _
  | double => exact .bind (k := 0) (.readHead _) fun _ => .known _
  | text => exact .readText options
  | bytes => exact .readString options _
  | value => exact Value.consumes_decode options
  | option t ih =>
    refine .peekThen (fun head => .ite (fun _ => .seq (.skip _) (.pure _))
      fun _ => .bind (k := 0) (ih.mono (Nat.zero_le 1)) fun _ => .pure _) ?_
    intro head s a u hl hw h
    split at h
    · cases h
      exact length_skip_lt hl hw
    · obtain ⟨x, v, hv, h⟩ := bind_eq_ok.1 h
      cases h
      exact ih.lt_of_ok hv

/-- An action's result on bytes in memory, with the number of bytes it consumed. -/
def decodeBytes {α : Type} (action : EStateM Error MemoryInput α) (data : Bytes) :
    Except Error (α × Nat) :=
  match action (MemoryInput.ofBytes data) with
  | .ok a s => .ok (a, s.offset)
  | .error e _ => .error e

end CborCodec
