import CborCodec.Proofs.Denotation
import CborCodec.Value.Diagnostic
/-!
Diagnostic notation read back. No value's text goes on where that of another one ends: numbers end
at the first character that is no digit, quoted text at the first quote that is not escaped, and a
container behind the last of its elements. What is written in front of any continuation that can
follow a value is therefore the text of that value alone, and the continuation is what is left.
-/

namespace CborCodec

namespace Bytes

theorem hexValue?_hexDigit : ∀ n < 16, hexValue? (hexDigit n) = some n := by
  decide

theorem hexDigit_inj {m n : Nat} (hm : m < 16) (hn : n < 16) (h : hexDigit m = hexDigit n) :
    m = n := by
  have hvalue := congrArg hexValue? h
  rw [hexValue?_hexDigit m hm, hexValue?_hexDigit n hn] at hvalue
  exact Option.some.inj hvalue

def hexPair (b : UInt8) : List Char :=
  [hexDigit (b.toNat / 16), hexDigit (b.toNat % 16)]

theorem toList_toHex (bs : Bytes) : (toHex bs).toList = bs.flatMap hexPair := by
  suffices h : ∀ s : String, (bs.foldl (fun s b =>
      (s.push (hexDigit (b.toNat / 16))).push (hexDigit (b.toNat % 16))) s).toList =
      s.toList ++ bs.flatMap hexPair from h ""
  induction bs with
  | nil => intro s; simp
  | cons b bs ih =>
    intro s
    rw [List.foldl_cons, ih, List.flatMap_cons, String.toList_push, String.toList_push]
    simp [hexPair]

/-- A byte is known by its two digits. -/
theorem hexPair_inj {b c : UInt8} (h : hexPair b = hexPair c) : b = c := by
  have hb := b.toNat_lt
  have hc := c.toNat_lt
  injection h with hhigh htail
  injection htail with hlow
  have hhigh' := hexDigit_inj (by omega) (by omega) hhigh
  have hlow' := hexDigit_inj (by omega) (by omega) hlow
  apply UInt8.toNat_inj.mp
  omega

end Bytes

namespace Quoted

open Bytes

def escaped? : List Char → Option (Char × List Char)
  | 'n' :: r => some ('\n', r)
  | 'r' :: r => some ('\r', r)
  | 't' :: r => some ('\t', r)
  | 'b' :: r => some (Char.ofNat 8, r)
  | 'f' :: r => some (Char.ofNat 12, r)
  | 'u' :: _ :: _ :: high :: low :: r =>
    match hexValue? high, hexValue? low with
    | some m, some n => some (Char.ofNat (16 * m + n), r)
    | _, _ => none
  | c :: r => some (c, r)
  | [] => none

def front? : List Char → Option (Char × List Char)
  | [] => none
  | c :: r => if c = quote then none else if c = backslash then escaped? r else some (c, r)

/-- An escaped character is read back, whatever is behind it. -/
theorem front?_escape (c : Char) (r : List Char) : front? (escape c ++ r) = some (c, r) := by
  have hnamed {n : Nat} (hc : c.toNat = n) : Char.ofNat n = c := by
    rw [← hc, Char.ofNat_toNat]
  unfold escape
  split
  · next h => rw [h]; rfl
  split
  · next h => rw [h]; rfl
  split
  · next h => rw [h]; rfl
  split
  · next h => rw [h]; rfl
  split
  · next h => rw [h]; rfl
  split
  · next h => exact congrArg (fun d => some (d, r)) (hnamed h)
  split
  · next h => exact congrArg (fun d => some (d, r)) (hnamed h)
  split
  · next hlow =>
    have hhigh := hexValue?_hexDigit (c.toNat / 16) (by omega)
    have hlast := hexValue?_hexDigit (c.toNat % 16) (Nat.mod_lt _ (by decide))
    have hread : front? ([backslash, 'u', '0', '0', hexDigit (c.toNat / 16),
        hexDigit (c.toNat % 16)] ++ r) =
        some (Char.ofNat (16 * (c.toNat / 16) + c.toNat % 16), r) := by
      change escaped? ('u' :: '0' :: '0' :: hexDigit (c.toNat / 16) ::
        hexDigit (c.toNat % 16) :: r) = _
      simp only [escaped?, hhigh, hlast]
    rw [hread, Nat.div_add_mod, Char.ofNat_toNat]
  · next hquote hbackslash _ _ _ _ _ _ =>
    change front? (c :: r) = _
    rw [front?, if_neg hquote, if_neg hbackslash]

/-- Quoted text ends at its closing quote. -/
theorem bodyOnto_inj {cs ds r r' : List Char} (h : bodyOnto r cs = bodyOnto r' ds) :
    cs = ds ∧ r = r' := by
  have hend (r : List Char) : front? (quote :: r) = none := by
    rw [front?, if_pos rfl]
  induction cs generalizing ds with
  | nil =>
    cases ds with
    | nil => exact ⟨rfl, List.tail_eq_of_cons_eq h⟩
    | cons d ds =>
      have hfront := congrArg front? h
      rw [bodyOnto, bodyOnto, front?_escape, hend] at hfront
      cases hfront
  | cons c cs ih =>
    have hfront := congrArg front? h
    cases ds with
    | nil =>
      rw [bodyOnto, bodyOnto, front?_escape, hend] at hfront
      cases hfront
    | cons d ds =>
      rw [bodyOnto, bodyOnto, front?_escape, front?_escape] at hfront
      obtain ⟨rfl, hrest⟩ := Prod.mk.inj (Option.some.inj hfront)
      obtain ⟨rfl, rfl⟩ := ih hrest
      exact ⟨rfl, rfl⟩

theorem onto_inj {s t : String} {r r' : List Char} (h : onto s r = onto t r') :
    s = t ∧ r = r' := by
  obtain ⟨hchars, hrest⟩ := bodyOnto_inj (List.tail_eq_of_cons_eq h)
  exact ⟨String.toList_inj.mp hchars, hrest⟩

end Quoted

namespace Value

section Numbers

variable {m n : Nat} {r r' : List Char}

/-- A number in front of the text would end there. -/
def EndsNumber (r : List Char) : Prop := ∀ c ∈ r.head?, c.isDigit = Bool.false

theorem EndsNumber.cons {c : Char} (hc : c.isDigit = Bool.false) : EndsNumber (c :: r) := by
  rintro _ ⟨⟩
  exact hc

theorem EndsNumber.dropWhile_eq (h : EndsNumber r) : r.dropWhile Char.isDigit = r := by
  cases r with
  | nil => rfl
  | cons c r => rw [List.dropWhile_cons, h c rfl]; rfl

theorem dropWhile_digitsOnto (h : EndsNumber r) :
    (digitsOnto n r).dropWhile Char.isDigit = r := by
  rw [digitsOnto, List.dropWhile_append_of_pos, h.dropWhile_eq]
  exact fun c hc => Nat.isDigit_of_mem_toDigits (by decide) (by decide) hc

/-- A number ends at the first character that is no digit. -/
theorem digitsOnto_inj (hr : EndsNumber r) (hr' : EndsNumber r')
    (h : digitsOnto m r = digitsOnto n r') : m = n ∧ r = r' := by
  have hrest : r = r' := by
    rw [← dropWhile_digitsOnto (n := m) hr, h, dropWhile_digitsOnto hr']
  rw [hrest] at h
  have hdigits : Nat.toDigits 10 m = Nat.toDigits 10 n := List.append_cancel_right h
  refine ⟨?_, hrest⟩
  calc m = Nat.ofDigitChars 10 (Nat.toDigits 10 m) 0 := Nat.ofDigitChars_ten_toDigits.symm
    _ = Nat.ofDigitChars 10 (Nat.toDigits 10 n) 0 := by rw [hdigits]
    _ = n := Nat.ofDigitChars_ten_toDigits

end Numbers

/-- Hexadecimal digits end at the first apostrophe. -/
theorem hexPairs_inj {b c : Bytes} {r r' : List Char}
    (h : b.flatMap Bytes.hexPair ++ apostrophe :: r = c.flatMap Bytes.hexPair ++ apostrophe :: r') :
    b = c ∧ r = r' := by
  have hend (x : UInt8) (s t : List Char) : apostrophe :: s ≠ Bytes.hexPair x ++ t := by
    intro heq
    have hvalue := congrArg Bytes.hexValue? (List.head_eq_of_cons_eq heq)
    rw [Bytes.hexValue?_hexDigit _ (by have := x.toNat_lt; omega)] at hvalue
    cases hvalue
  -- The apostrophe is no digit, so neither side ends before the other.
  induction b generalizing c with
  | nil =>
    cases c with
    | nil => exact ⟨rfl, List.tail_eq_of_cons_eq h⟩
    | cons y c =>
      rw [List.flatMap_nil, List.nil_append, List.flatMap_cons, List.append_assoc] at h
      exact absurd h (hend y _ _)
  | cons x b ih =>
    cases c with
    | nil =>
      rw [List.flatMap_nil, List.nil_append, List.flatMap_cons, List.append_assoc] at h
      exact absurd h.symm (hend x _ _)
    | cons y c =>
      rw [List.flatMap_cons, List.flatMap_cons, List.append_assoc, List.append_assoc] at h
      obtain ⟨hpair, hpairs⟩ := List.append_inj h rfl
      obtain ⟨rfl, rfl⟩ := ih hpairs
      exact ⟨congrArg (· :: b) (Bytes.hexPair_inj hpair), rfl⟩

theorem bytesOnto_inj {b c : Bytes} {r r' : List Char} (h : bytesOnto b r = bytesOnto c r') :
    b = c ∧ r = r' := by
  unfold bytesOnto at h
  rw [Bytes.toList_toHex, Bytes.toList_toHex] at h
  exact hexPairs_inj (List.tail_eq_of_cons_eq (List.tail_eq_of_cons_eq h))

def Floatless (v : Value) : Prop := ∀ d, float d ∉ v.parts

section Floatless

variable {items : List Value} {pairs : List (Value × Value)} {number : UInt64} {item : Value}

theorem floatless_array : (array items).Floatless ↔ ∀ i ∈ items, i.Floatless := by
  unfold Floatless
  simp only [parts, List.mem_cons, mem_partsItems, reduceCtorEq, false_or, not_exists, not_and]
  exact ⟨fun h i hi d => h d i hi, fun h d i hi => h i hi d⟩

theorem floatless_map :
    (map pairs).Floatless ↔ ∀ p ∈ pairs, p.1.Floatless ∧ p.2.Floatless := by
  unfold Floatless
  simp only [parts, List.mem_cons, mem_partsPairs, reduceCtorEq, false_or, not_exists, not_and,
    not_or]
  exact ⟨fun h p hp => ⟨fun d => (h d p hp).1, fun d => (h d p hp).2⟩,
    fun h d p hp => ⟨(h p hp).1 d, (h p hp).2 d⟩⟩

theorem floatless_tag : (tag number item).Floatless ↔ item.Floatless := by
  unfold Floatless
  simp only [parts, List.mem_cons, reduceCtorEq, false_or]

theorem not_floatless_float (d : Double) : ¬ (float d).Floatless :=
  fun h => h d (List.mem_singleton_self _)

end Floatless

section Texts

variable {α : Type} {v : Value} {r r' : List Char}

def closers : List Char := [',', ':', ']', '}', ')']

/-- What may follow a value: nothing, or such a character. -/
def Follows (r : List Char) : Prop := ∀ c ∈ r.head?, c ∈ closers

theorem Follows.cons {c : Char} (hc : c ∈ closers) : Follows (c :: r) := by
  rintro _ ⟨⟩
  exact hc

theorem isDigit_of_mem_closers {c : Char} (hc : c ∈ closers) : c.isDigit = Bool.false := by
  have hall : closers.all (fun c => !c.isDigit) = Bool.true := by decide
  simpa using List.all_eq_true.mp hall c hc

theorem Follows.endsNumber (h : Follows r) : EndsNumber r :=
  fun c hc => isDigit_of_mem_closers (h c hc)

/-- The character by which a kind of value is known: a number by a digit, a tag by the parenthesis
behind its number, any other by its first one. -/
def mark : Value → Char
  | unsigned _ => '0'
  | negative _ => '-'
  | bytes _ => 'h'
  | text _ => Quoted.quote
  | array _ => '['
  | map _ => '{'
  | tag .. => '('
  | false => 'f'
  | true => 't'
  | null => 'n'
  | undefined => 'u'
  | simple _ => 's'
  | float _ => '.'

def mark? (cs : List Char) : Option Char :=
  match cs.head? with
  | none => none
  | some c =>
    if c.isDigit then if (cs.dropWhile Char.isDigit).head? = some '(' then some '(' else some '0'
    else some c

theorem mark_not_mem_closers (v : Value) : v.mark ∉ closers := by
  cases v <;> simp [mark, closers, Quoted.quote]

theorem mark?_cons {c : Char} (hc : c.isDigit = Bool.false) (cs : List Char) :
    mark? (c :: cs) = some c := by
  rw [mark?, List.head?_cons]
  exact if_neg (by rw [hc]; exact Bool.false_ne_true)

/-- Digits mark a number, unless a parenthesis behind them marks a tag. -/
theorem mark?_digitsOnto (n : Nat) (hr : EndsNumber r) :
    mark? (digitsOnto n r) = if r.head? = some '(' then some '(' else some '0' := by
  have hrest := dropWhile_digitsOnto (n := n) hr
  obtain ⟨c, cs, hdigits⟩ := List.exists_cons_of_ne_nil (Nat.toDigits_ne_nil (n := n) (b := 10))
  have hdigit : c.isDigit = Bool.true := by
    apply Nat.isDigit_of_mem_toDigits (b := 10) (n := n) (by decide) (by decide)
    rw [hdigits]
    exact List.mem_cons_self
  have hhead : (digitsOnto n r).head? = some c := by
    rw [digitsOnto, hdigits]
    rfl
  rw [mark?, hhead, hrest]
  exact if_pos hdigit

/-- The text of a value begins with its mark. -/
theorem mark?_diagnosticOnto (hv : v.Floatless) (hr : Follows r) :
    mark? (v.diagnosticOnto r) = some v.mark := by
  cases v with
  | unsigned n =>
    have hopen : r.head? ≠ some '(' := fun h => absurd (hr _ h) (by decide)
    change mark? (digitsOnto n.toNat r) = some '0'
    rw [mark?_digitsOnto _ hr.endsNumber, if_neg hopen]
  | tag number item =>
    change mark? (digitsOnto number.toNat ('(' :: item.diagnosticOnto (')' :: r))) = some '('
    rw [mark?_digitsOnto _ (.cons rfl)]
    rfl
  | negative n => exact mark?_cons (c := '-') rfl _
  | bytes b => exact mark?_cons (c := 'h') rfl _
  | text s => exact mark?_cons (c := Quoted.quote) rfl _
  | array items => cases items <;> exact mark?_cons (c := '[') rfl _
  | map pairs => cases pairs <;> exact mark?_cons (c := '{') rfl _
  | false => exact mark?_cons (c := 'f') rfl _
  | true => exact mark?_cons (c := 't') rfl _
  | null => exact mark?_cons (c := 'n') rfl _
  | undefined => exact mark?_cons (c := 'u') rfl _
  | simple n => exact mark?_cons (c := 's') rfl _
  | float d => exact absurd hv (not_floatless_float d)

def behindOnto (close : Char) (f : α → List Char → List Char) : List α → List Char → List Char
  | [], r => close :: r
  | x :: xs, r => ',' :: ' ' :: f x (behindOnto close f xs r)

def elementsOnto (close : Char) (f : α → List Char → List Char) : List α → List Char → List Char
  | [], r => close :: r
  | x :: xs, r => f x (behindOnto close f xs r)

def pairOnto (p : Value × Value) (r : List Char) : List Char :=
  p.1.diagnosticOnto (':' :: ' ' :: p.2.diagnosticOnto r)

theorem itemsOnto_eq (items : List Value) (r : List Char) :
    itemsOnto items r = behindOnto ']' diagnosticOnto items r := by
  induction items with
  | nil => rfl
  | cons item items ih =>
    rw [behindOnto, ← ih]
    rfl

theorem pairsOnto_eq (pairs : List (Value × Value)) (r : List Char) :
    pairsOnto pairs r = behindOnto '}' pairOnto pairs r := by
  induction pairs with
  | nil => rfl
  | cons pair pairs ih =>
    rw [behindOnto, ← ih]
    rfl

theorem diagnosticOnto_array (items : List Value) (r : List Char) :
    (array items).diagnosticOnto r = '[' :: elementsOnto ']' diagnosticOnto items r := by
  cases items with
  | nil => rfl
  | cons item items =>
    rw [elementsOnto, ← itemsOnto_eq]
    rfl

theorem diagnosticOnto_map (pairs : List (Value × Value)) (r : List Char) :
    (map pairs).diagnosticOnto r = '{' :: elementsOnto '}' pairOnto pairs r := by
  cases pairs with
  | nil => rfl
  | cons pair pairs =>
    rw [elementsOnto, ← pairsOnto_eq]
    rfl

end Texts

section Elements

variable {α : Type} {f : α → List Char → List Char} {Q : α → Prop} {close : Char} {xs ys : List α}
  {r r' : List Char}

/-- In front of what may follow it, the text of `x` is that of no other element of the kind. -/
def Legible (f : α → List Char → List Char) (Q : α → Prop) (x : α) : Prop :=
  ∀ y r r', Q y → Follows r → Follows r' → f x r = f y r' → x = y ∧ r = r'

theorem follows_behindOnto (hclose : close ∈ closers) : Follows (behindOnto close f xs r) := by
  cases xs with
  | nil => exact .cons hclose
  | cons x xs => exact .cons (by decide)

/-- Elements that are legible one by one are legible up to their closing character. -/
theorem behindOnto_inj (hclose : close ∈ closers) (hcomma : close ≠ ',')
    (hxs : ∀ x ∈ xs, Legible f Q x) (hys : ∀ y ∈ ys, Q y)
    (h : behindOnto close f xs r = behindOnto close f ys r') : xs = ys ∧ r = r' := by
  induction xs generalizing ys with
  | nil =>
    cases ys with
    | nil => exact ⟨rfl, List.tail_eq_of_cons_eq h⟩
    | cons y ys => exact absurd (List.head_eq_of_cons_eq h) hcomma
  | cons x xs ih =>
    cases ys with
    | nil => exact absurd (List.head_eq_of_cons_eq h).symm hcomma
    | cons y ys =>
      rw [List.forall_mem_cons] at hxs hys
      have hbehind : f x (behindOnto close f xs r) = f y (behindOnto close f ys r') :=
        List.tail_eq_of_cons_eq (List.tail_eq_of_cons_eq h)
      obtain ⟨rfl, hrest⟩ := hxs.1 y _ _ hys.1 (follows_behindOnto hclose)
        (follows_behindOnto hclose) hbehind
      obtain ⟨rfl, rfl⟩ := ih hxs.2 hys.2 hrest
      exact ⟨rfl, rfl⟩

/-- The elements of a container are those that its text shows, if no element begins with the
character that closes it. -/
theorem elementsOnto_inj (hclose : close ∈ closers) (hcomma : close ≠ ',')
    (hopens : ∀ x s s', Q x → Follows s → f x s ≠ close :: s')
    (hxs : ∀ x ∈ xs, Q x ∧ Legible f Q x) (hys : ∀ y ∈ ys, Q y)
    (h : elementsOnto close f xs r = elementsOnto close f ys r') : xs = ys ∧ r = r' := by
  cases xs with
  | nil =>
    cases ys with
    | nil => exact ⟨rfl, List.tail_eq_of_cons_eq h⟩
    | cons y ys =>
      rw [List.forall_mem_cons] at hys
      exact absurd h.symm (hopens y _ _ hys.1 (follows_behindOnto hclose))
  | cons x xs =>
    rw [List.forall_mem_cons] at hxs
    cases ys with
    | nil => exact absurd h (hopens x _ _ hxs.1.1 (follows_behindOnto hclose))
    | cons y ys =>
      rw [List.forall_mem_cons] at hys
      obtain ⟨rfl, hrest⟩ := hxs.1.2 y _ _ hys.1 (follows_behindOnto hclose)
        (follows_behindOnto hclose) h
      obtain ⟨rfl, rfl⟩ := behindOnto_inj hclose hcomma (fun x hx => (hxs.2 x hx).2) hys.2 hrest
      exact ⟨rfl, rfl⟩

end Elements

section Values

variable {v : Value} {s s' : List Char}

/-- No value begins with a character that ends or separates. -/
theorem diagnosticOnto_ne_cons (hv : v.Floatless) (hs : Follows s) {c : Char} (hc : c ∈ closers) :
    v.diagnosticOnto s ≠ c :: s' := by
  intro h
  have hmark := mark?_diagnosticOnto hv hs
  rw [h, mark?_cons (isDigit_of_mem_closers hc)] at hmark
  exact mark_not_mem_closers v (Option.some.inj hmark ▸ hc)

/-- A pair is legible if its key and its value are. -/
theorem Legible.pair {p : Value × Value} (hkey : Legible diagnosticOnto Floatless p.1)
    (hvalue : Legible diagnosticOnto Floatless p.2) :
    Legible pairOnto (fun q => q.1.Floatless ∧ q.2.Floatless) p := by
  intro q r r' hq hr hr' h
  obtain ⟨hkeys, hbehind⟩ := hkey q.1 _ _ hq.1 (.cons (by decide)) (.cons (by decide)) h
  obtain ⟨hvalues, hrest⟩ := hvalue q.2 r r' hq.2 hr hr'
    (List.tail_eq_of_cons_eq (List.tail_eq_of_cons_eq hbehind))
  exact ⟨Prod.ext hkeys hvalues, hrest⟩

/-- What the second value is if it is of the kind of the first. -/
def KindOf : Value → Value → Prop
  | unsigned _, w => ∃ n, w = unsigned n
  | negative _, w => ∃ n, w = negative n
  | bytes _, w => ∃ b, w = bytes b
  | text _, w => ∃ s, w = text s
  | array _, w => ∃ items, w = array items
  | map _, w => ∃ pairs, w = map pairs
  | tag .., w => ∃ number item, w = tag number item
  | false, w => w = false
  | true, w => w = true
  | null, w => w = null
  | undefined, w => w = undefined
  | simple _, w => ∃ n, w = simple n
  | float _, w => ∃ d, w = float d

theorem kindOf_of_mark_eq {w : Value} (h : v.mark = w.mark) : v.KindOf w := by
  cases v <;> cases w <;> simp_all [mark, KindOf, Quoted.quote]

/-- Only values of one kind need to be told apart, for the mark tells the kind. -/
theorem Legible.of_kind (hv : v.Floatless)
    (h : ∀ w r r', w.Floatless → Follows r → Follows r' → v.KindOf w →
      v.diagnosticOnto r = w.diagnosticOnto r' → v = w ∧ r = r') :
    Legible diagnosticOnto Floatless v := by
  intro w r r' hw hr hr' heq
  have hmark := congrArg mark? heq
  rw [mark?_diagnosticOnto hv hr, mark?_diagnosticOnto hw hr'] at hmark
  exact h w r r' hw hr hr' (kindOf_of_mark_eq (Option.some.inj hmark)) heq

/-- A value that is the only one of its kind has one word for its text. -/
theorem Legible.of_word (word : List Char) (hv : v.Floatless) (honly : ∀ w, v.KindOf w → w = v)
    (htext : ∀ r, v.diagnosticOnto r = word ++ r) : Legible diagnosticOnto Floatless v := by
  refine .of_kind hv ?_
  intro w r r' _ _ _ hkind h
  obtain rfl := honly w hkind
  rw [htext, htext] at h
  exact ⟨rfl, List.append_cancel_left h⟩

/-- The text of a value shows which value it is of, and where it ends. -/
theorem legible_diagnosticOnto (v : Value) (hv : v.Floatless) :
    Legible diagnosticOnto Floatless v := by
  -- What is inside a container is legible in front of the character that comes behind it.
  induction v with
  | unsigned n =>
    refine .of_kind hv ?_
    rintro _ r r' - hr hr' ⟨m, rfl⟩ h
    obtain ⟨hn, hrest⟩ := digitsOnto_inj hr.endsNumber hr'.endsNumber h
    exact ⟨congrArg unsigned (UInt64.toNat_inj.mp hn), hrest⟩
  | negative n =>
    refine .of_kind hv ?_
    rintro _ r r' - hr hr' ⟨m, rfl⟩ h
    obtain ⟨hn, hrest⟩ :=
      digitsOnto_inj hr.endsNumber hr'.endsNumber (List.tail_eq_of_cons_eq h)
    exact ⟨congrArg negative (UInt64.toNat_inj.mp (Nat.succ.inj hn)), hrest⟩
  | bytes b =>
    refine .of_kind hv ?_
    rintro _ r r' - - - ⟨c, rfl⟩ h
    obtain ⟨rfl, hrest⟩ := bytesOnto_inj h
    exact ⟨rfl, hrest⟩
  | text s =>
    refine .of_kind hv ?_
    rintro _ r r' - - - ⟨t, rfl⟩ h
    obtain ⟨rfl, hrest⟩ := Quoted.onto_inj h
    exact ⟨rfl, hrest⟩
  | array items ih =>
    refine .of_kind hv ?_
    rintro _ r r' hw - - ⟨items', rfl⟩ h
    rw [floatless_array] at hv hw
    rw [diagnosticOnto_array, diagnosticOnto_array] at h
    obtain ⟨rfl, hrest⟩ := elementsOnto_inj (by decide) (by decide)
      (fun x s s' hx hs => diagnosticOnto_ne_cons hx hs (by decide))
      (fun i hi => ⟨hv i hi, ih i hi (hv i hi)⟩) hw (List.tail_eq_of_cons_eq h)
    exact ⟨rfl, hrest⟩
  | map pairs ih =>
    refine .of_kind hv ?_
    rintro _ r r' hw - - ⟨pairs', rfl⟩ h
    rw [floatless_map] at hv hw
    rw [diagnosticOnto_map, diagnosticOnto_map] at h
    obtain ⟨rfl, hrest⟩ := elementsOnto_inj (by decide) (by decide)
      (fun p s s' hp _ => diagnosticOnto_ne_cons hp.1 (.cons (by decide)) (by decide))
      (fun p hp => ⟨hv p hp, .pair ((ih p hp).1 (hv p hp).1) ((ih p hp).2 (hv p hp).2)⟩) hw
      (List.tail_eq_of_cons_eq h)
    exact ⟨rfl, hrest⟩
  | tag number item ih =>
    refine .of_kind hv ?_
    rintro _ r r' hw - - ⟨number', item', rfl⟩ h
    rw [floatless_tag] at hv hw
    obtain ⟨hnumber, hinside⟩ := digitsOnto_inj (.cons rfl) (.cons rfl) h
    obtain ⟨rfl, hbehind⟩ := ih hv item' _ _ hw (.cons (by decide)) (.cons (by decide))
      (List.tail_eq_of_cons_eq hinside)
    rw [UInt64.toNat_inj.mp hnumber]
    exact ⟨rfl, List.tail_eq_of_cons_eq hbehind⟩
  | false => exact .of_word "false".toList hv (fun _ h => h) fun _ => rfl
  | true => exact .of_word "true".toList hv (fun _ h => h) fun _ => rfl
  | null => exact .of_word "null".toList hv (fun _ h => h) fun _ => rfl
  | undefined => exact .of_word "undefined".toList hv (fun _ h => h) fun _ => rfl
  | simple n =>
    refine .of_kind hv ?_
    rintro _ r r' - - - ⟨m, rfl⟩ h
    have hnumber : digitsOnto n.toNat (')' :: r) = digitsOnto m.toNat (')' :: r') :=
      List.append_cancel_left (show "simple(".toList ++ _ = "simple(".toList ++ _ from h)
    obtain ⟨hn, hrest⟩ := digitsOnto_inj (.cons rfl) (.cons rfl) hnumber
    exact ⟨congrArg simple (UInt8.toNat_inj.mp hn), List.tail_eq_of_cons_eq hrest⟩
  | float d => exact absurd hv (not_floatless_float d)

end Values

/-- Diagnostic notation is unambiguous: two values in which there are no floats have the same text
only if they are the same, whatever text, numbers and nesting they are made of. -/
theorem diagnostic_is_unambiguous {a b : Value} (ha : a.Floatless) (hb : b.Floatless) :
    a.diagnostic = b.diagnostic ↔ a = b := by
  constructor
  · intro h
    have hend : Follows [] := nofun
    exact (legible_diagnosticOnto a ha b [] [] hb hend hend (String.ofList_injective h)).1
  · exact congrArg diagnostic

/-- A text in which the notation of two texts stands is not taken for them. -/
theorem diagnostic_tells_quotes_apart :
    (array [text "a\", \"b"]).diagnostic ≠ (array [text "a", text "b"]).diagnostic := by
  have hone : (array [text "a\", \"b"]).Floatless := by
    intro d
    simp [parts, partsItems]
  have htwo : (array [text "a", text "b"]).Floatless := by
    intro d
    simp [parts, partsItems]
  intro h
  have heq := (diagnostic_is_unambiguous hone htwo).mp h
  simp at heq

end Value

end CborCodec
