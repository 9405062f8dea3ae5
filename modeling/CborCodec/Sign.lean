import CborCodec.Power
/-!
The sign of an integer as a mask. With it the bits of a word are flipped if the integer is
negative, so that `n` from zero on is its own magnitude and a negative one has that of `-1 - n`.
-/

namespace CborCodec

/-- The lowest bit of a number, in every bit of a word. -/
def signMask (w n : Nat) : BitVec w := -(BitVec.ofNat w n &&& 1#w)

def signBits (n : BitVec 64) : BitVec 64 := n.sshiftRight 63

theorem signMask_zero (w : Nat) : signMask w 0 = 0#w := by
  simp [signMask]

theorem signMask_one (w : Nat) : signMask w 1 = BitVec.allOnes w := by
  simp [signMask, BitVec.neg_one_eq_allOnes]

/-- A magnitude that leaves the highest bit clear is itself under the one mask, and the negative
integer that it stands for under the other. -/
theorem toInt_xor_signMask (w : Nat) {n : BitVec (w + 1)} (h : n.toNat < twoPow w) :
    (n ^^^ signMask (w + 1) 0).toInt = n.toNat ∧
      (n ^^^ signMask (w + 1) 1).toInt = -1 - n.toNat := by
  rw [twoPow, Nat.pow_eq] at h
  rw [signMask_zero, signMask_one, BitVec.xor_zero, BitVec.xor_allOnes,
    BitVec.toInt_eq_toNat_cond, BitVec.toInt_eq_toNat_cond, BitVec.toNat_not, Nat.pow_succ]
  -- The flipped word has its highest bit set, so it counts from the end of the words.
  constructor <;> split <;> omega

section Words

variable {n : Int} (hleast : -0x8000000000000000 ≤ n) (hgreatest : n < 0x8000000000000000)

include hleast hgreatest

theorem signBits_ofInt :
    signBits (BitVec.ofInt 64 n) = if n < 0 then BitVec.allOnes 64 else 0#64 := by
  apply BitVec.eq_of_toInt_eq
  rw [signBits, BitVec.toInt_sshiftRight, Int.shiftRight_eq_div_pow,
    BitVec.toInt_ofInt_eq_self (by decide) hleast hgreatest]
  split
  · rw [BitVec.toInt_allOnes, if_pos (by decide)]
    omega
  · rw [BitVec.toInt_zero]
    omega

/-- The bits of a word under its own sign are those of its magnitude. -/
theorem toNat_xor_signBits :
    (BitVec.ofInt 64 n ^^^ signBits (BitVec.ofInt 64 n)).toNat =
      if n < 0 then (-1 - n).toNat else n.toNat := by
  rw [signBits_ofInt hleast hgreatest]
  split
  · rw [BitVec.xor_allOnes, BitVec.toNat_not, BitVec.toNat_ofInt]
    omega
  · rw [BitVec.xor_zero, BitVec.toNat_ofInt]
    omega

end Words

end CborCodec
