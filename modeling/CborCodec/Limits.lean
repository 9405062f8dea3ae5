import CborCodec.Consume
import CborCodec.Head
/-!
Limits on what a head may announce. Every length and count is held against what the input can
still supply before anything is fetched or stored for it.
-/

namespace CborCodec

variable {σ : Type} [Input σ]

/-- The most elements, or pairs of a map, that `left` bytes can hold. -/
def capacityFor (major : Major) (left : Nat) : Nat :=
  if major = .map then left / 2 else left

def checkAvailable (major : Major) (count : Nat) : EStateM Error σ Unit := do
  let s ← get
  failIf (capacityFor major (available s) < count) .missingData

def checkItems (options : Options) (count : Nat) : EStateM Error σ Unit :=
  failIf (options.maxItems.toNat < count) .itemValueOutOfRange

/-- Refuses a chunk of `length` bytes after `total` others, if the input cannot hold it or the
string grows too long. -/
def checkChunk (options : Options) (length total : Nat) : EStateM Error σ Unit := do
  checkAvailable .bytes length
  failIf (options.maxStringSize.toNat < total + length) .stringExceedsSizeLimit

theorem Consumes.checkAvailable (major : Major) (count : Nat) :
    Consumes 0 (checkAvailable major count : EStateM Error σ Unit) :=
  .bind .get fun _ => .failIf _ _

theorem Consumes.checkItems (options : Options) (count : Nat) :
    Consumes 0 (checkItems options count : EStateM Error σ Unit) :=
  .failIf _ _

theorem Consumes.checkChunk (options : Options) (length total : Nat) :
    Consumes 0 (checkChunk options length total : EStateM Error σ Unit) :=
  .seq (.checkAvailable _ _) (.failIf _ _)

end CborCodec
