/-!
How strictly items are read, and within which limits.
-/

namespace CborCodec

inductive Mode where
  /-- Any well-formed encoding. -/
  | lenient
  /-- Neither wide arguments nor indefinite lengths. -/
  | canonical
  /-- As canonical, and every float in its narrowest lossless width. -/
  | strict
  deriving DecidableEq, Repr, Inhabited

namespace Mode

def name : Mode → String
  | lenient => "lenient"
  | canonical => "canonical"
  | strict => "strict"

def title : Mode → String
  | lenient => "Lenient"
  | canonical => "Canonical"
  | strict => "Strict"

def ofName? : String → Option Mode
  | "lenient" => some lenient
  | "canonical" => some canonical
  | "strict" => some strict
  | _ => none

end Mode

/-- The mode and limits that hold for every item read. Lengths of strings count over all chunks,
items count elements of arrays and pairs of maps, and depth bounds only the value decoder. -/
structure Options where
  mode : Mode := .lenient
  maxStringSize : UInt64 := 67108864
  maxItems : UInt64 := 16777216
  maxDepth : UInt64 := 256
  deriving DecidableEq, Repr, Inhabited

end CborCodec
