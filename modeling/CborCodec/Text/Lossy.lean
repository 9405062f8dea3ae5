import CborCodec.Bytes
/-!
Text from bytes that may not be UTF-8.
-/

namespace CborCodec.Bytes

def firstChar? (bs : Bytes) (length : Nat) : Option Char :=
  match (toText? (bs.take length)).map String.toList with
  | some [c] => some c
  | _ => none

/-- The first character and the number of its bytes. A byte that begins none counts as one that
was lost. -/
def decodeChar (bs : Bytes) : Char × Nat :=
  match [1, 2, 3, 4].findSome? fun n => (firstChar? bs n).map fun c => (c, n - 1) with
  | some found => found
  | none => ('\uFFFD', 0)

/-- The characters that bytes spell, with a replacement for each byte that spells none. -/
def lossyChars : Bytes → List Char
  | [] => []
  | b :: bs =>
    let (c, more) := decodeChar (b :: bs)
    c :: lossyChars (bs.drop more)
termination_by bs => bs.length
decreasing_by
  simp only [List.length_drop, List.length_cons]
  omega

def toTextLossy (bs : Bytes) : String :=
  match toText? bs with
  | some s => s
  | none => String.ofList (lossyChars bs)

end CborCodec.Bytes
