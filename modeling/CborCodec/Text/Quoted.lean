import CborCodec.Bytes
/-!
Text in double quotes. The quote, the backslash and the control characters below the space are
written as escapes, everything else as itself.
-/

namespace CborCodec.Quoted

def quote : Char := '"'

def backslash : Char := '\\'

def escape (c : Char) : List Char :=
  if c = quote then [backslash, quote]
  else if c = backslash then [backslash, backslash]
  else if c = '\n' then [backslash, 'n']
  else if c = '\r' then [backslash, 'r']
  else if c = '\t' then [backslash, 't']
  else if c.toNat = 8 then [backslash, 'b']
  else if c.toNat = 12 then [backslash, 'f']
  else if c.toNat < 32 then
    [backslash, 'u', '0', '0', Bytes.hexDigit (c.toNat / 16), Bytes.hexDigit (c.toNat % 16)]
  else [c]

def bodyOnto (rest : List Char) : List Char → List Char
  | [] => quote :: rest
  | c :: cs => escape c ++ bodyOnto rest cs

def onto (s : String) (rest : List Char) : List Char :=
  quote :: bodyOnto rest s.toList

end CborCodec.Quoted
