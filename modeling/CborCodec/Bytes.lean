/-!
Byte strings, big-endian words and hexadecimal text, and the resident window of a stream.
Main statements: a word survives the trip through its big-endian bytes, and bytes of a fixed
width survive the trip through the word.
-/

namespace CborCodec

abbrev Bytes := List UInt8

namespace Bytes

/-- The natural number whose big-endian digits in base 256 are the bytes. -/
def toWord (bs : Bytes) : Nat :=
  bs.foldl (fun n b => n * 256 + b.toNat) 0

/-- The `width` lowest base-256 digits of `n`, most significant first. -/
def ofWord : Nat → Nat → Bytes
  | 0, _ => []
  | width + 1, n => ofWord width (n / 256) ++ [UInt8.ofNat (n % 256)]

@[simp] theorem length_ofWord (width n : Nat) : (ofWord width n).length = width := by
  induction width generalizing n with
  | zero => rfl
  | succ w ih => simp [ofWord, ih]

theorem toWord_append_singleton (bs : Bytes) (b : UInt8) :
    toWord (bs ++ [b]) = toWord bs * 256 + b.toNat := by
  simp [toWord]

/-- Of a number too great for the width the lowest digits are left. -/
theorem toWord_ofWord (width n : Nat) : toWord (ofWord width n) = n % Nat.pow 256 width := by
  induction width generalizing n with
  | zero => simp [ofWord, toWord, Nat.mod_one]
  | succ w ih =>
    have hb : (UInt8.ofNat (n % 256)).toNat = n % 256 := by simp
    have hp : Nat.pow 256 (w + 1) = 256 * Nat.pow 256 w := Nat.mul_comm _ _
    rw [ofWord, toWord_append_singleton, ih, hb, hp, Nat.mod_mul]
    omega

theorem toWord_lt (bs : Bytes) : toWord bs < Nat.pow 256 bs.length := by
  -- The fold grows at the end of the list, so the induction runs over the reversed one.
  suffices h : ∀ rs : Bytes, toWord rs.reverse < Nat.pow 256 rs.length by
    simpa using h bs.reverse
  intro rs
  induction rs with
  | nil => simp [toWord]
  | cons b rs ih =>
    have hb := b.toNat_lt
    have hp : Nat.pow 256 (rs.length + 1) = Nat.pow 256 rs.length * 256 := rfl
    rw [List.reverse_cons, toWord_append_singleton, List.length_cons, hp]
    omega

/-- Bytes are had back from their number. -/
theorem ofWord_toWord (bs : Bytes) : ofWord bs.length (toWord bs) = bs := by
  suffices h : ∀ rs : Bytes, ofWord rs.length (toWord rs.reverse) = rs.reverse by
    simpa using h bs.reverse
  intro rs
  induction rs with
  | nil => rfl
  | cons b rs ih =>
    have hb := b.toNat_lt
    have hd : (toWord rs.reverse * 256 + b.toNat) / 256 = toWord rs.reverse := by omega
    have hm : (toWord rs.reverse * 256 + b.toNat) % 256 = b.toNat := by omega
    rw [List.reverse_cons, toWord_append_singleton, List.length_cons, ofWord, hd, hm, ih,
      UInt8.ofNat_toNat]

def hexDigit (n : Nat) : Char :=
  if n < 10 then Char.ofNat (48 + n) else Char.ofNat (87 + n)

def toHex (bs : Bytes) : String :=
  bs.foldl (fun s b => (s.push (hexDigit (b.toNat / 16))).push (hexDigit (b.toNat % 16))) ""

def hexValue? (c : Char) : Option Nat :=
  if '0' ≤ c ∧ c ≤ '9' then some (c.toNat - 48)
  else if 'a' ≤ c ∧ c ≤ 'f' then some (c.toNat - 87)
  else if 'A' ≤ c ∧ c ≤ 'F' then some (c.toNat - 55)
  else none

def ofText (s : String) : Bytes :=
  s.toByteArray.data.toList

def toText? (bs : Bytes) : Option String :=
  String.fromUTF8? ⟨bs.toArray⟩

end Bytes

/-- The bytes of a stream that are resident, with their number at hand. -/
structure Window where
  toList : Bytes
  size : Nat
  size_eq : size = toList.length

namespace Window

def ofList (bs : Bytes) : Window := ⟨bs, bs.length, rfl⟩

instance : Inhabited Window := ⟨ofList []⟩

def drop (w : Window) (n : Nat) : Window :=
  ⟨w.toList.drop n, w.size - n, by simp [w.size_eq]⟩

def append (w : Window) (bs : Bytes) : Window :=
  ⟨w.toList ++ bs, w.size + bs.length, by simp [w.size_eq]⟩

@[simp] theorem toList_ofList (bs : Bytes) : (ofList bs).toList = bs := rfl

@[simp] theorem size_ofList (bs : Bytes) : (ofList bs).size = bs.length := rfl

@[simp] theorem toList_drop (w : Window) (n : Nat) : (w.drop n).toList = w.toList.drop n := rfl

@[simp] theorem size_drop (w : Window) (n : Nat) : (w.drop n).size = w.size - n := rfl

@[simp] theorem toList_append (w : Window) (bs : Bytes) :
    (w.append bs).toList = w.toList ++ bs := rfl

@[simp] theorem size_append (w : Window) (bs : Bytes) :
    (w.append bs).size = w.size + bs.length := rfl

@[ext] theorem ext {w v : Window} (h : w.toList = v.toList) : w = v := by
  cases w; cases v; simp_all

end Window

end CborCodec
