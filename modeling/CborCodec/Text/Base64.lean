import CborCodec.Bytes
/-!
Bytes as text in base 64, in the alphabet that is safe in addresses and file names. The last digits
are not padded.
-/

namespace CborCodec.Base64

def digit (n : Nat) : Char :=
  if n < 26 then Char.ofNat (65 + n)
  else if n < 52 then Char.ofNat (71 + n)
  else if n < 62 then Char.ofNat (n - 4)
  else if n = 62 then '-'
  else '_'

def digits (count group : Nat) : List Char :=
  [digit (group / 262144), digit (group / 4096 % 64), digit (group / 64 % 64),
    digit (group % 64)].take count

/-- Writes bytes. What is missing of the last group counts as zero and is left out. -/
def write : Bytes → List Char
  | [] => []
  | [a] => digits 2 (Bytes.toWord [a, 0, 0])
  | [a, b] => digits 3 (Bytes.toWord [a, b, 0])
  | a :: b :: c :: rest => digits 4 (Bytes.toWord [a, b, c]) ++ write rest

def ofBytes (bs : Bytes) : String := String.ofList (write bs)

end CborCodec.Base64
