/-!
Reading text from the front. A scanner takes what it reads off a list of characters, or fails.
-/

namespace CborCodec

abbrev Scanner := StateT (List Char) Option

namespace Scanner

variable {α β γ : Type}

def peek : Scanner (Option Char) := do return (← get).head?

def next : Scanner Char := fun
  | [] => none
  | c :: cs => some (c, cs)

def accept (c : Char) : Scanner Bool := fun
  | [] => some (false, [])
  | d :: ds => if c = d then some (true, ds) else some (false, d :: ds)

def expect (c : Char) : Scanner Unit := do
  if ← accept c then pure () else failure

def acceptAll (cs : List Char) : Scanner Bool := fun text =>
  if cs.isPrefixOf text then some (true, text.drop cs.length) else some (false, text)

def expectAll (cs : List Char) : Scanner Unit := do
  if ← acceptAll cs then pure () else failure

def takeWhile (p : Char → Bool) : Scanner (List Char) := fun text => some (text.span p)

def takeSome (p : Char → Bool) : Scanner (List Char) := do
  let cs ← takeWhile p
  if cs.isEmpty then failure else return cs

def repeatUpTo (step : β → Scanner (β ⊕ γ)) : Nat → β → Scanner γ
  | 0, _ => failure
  | fuel + 1, b => do
    match ← step b with
    | .inl b => repeatUpTo step fuel b
    | .inr c => return c

/-- Repeats a step until it answers with a result. Each step has to take a character, so the text
bounds their number. -/
def repeatUntil (step : β → Scanner (β ⊕ γ)) (b : β) : Scanner γ := do
  repeatUpTo step ((← get).length + 1) b

def parse? (scanner : Scanner α) (text : List Char) : Option α :=
  match scanner.run text with
  | some (a, []) => some a
  | _ => none

end Scanner

end CborCodec
