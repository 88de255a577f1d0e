import Mathlib.Data.BitVec
import Mathlib.Tactic

/-!
# The bytes of a word

A word of 64 bits has 8 bytes, the lowest first.
-/

namespace Xv6.Word

def byte (w : BitVec 64) (k : Nat) : BitVec 8 := w.extractLsb' (8 * k) 8

def setByte (w : BitVec 64) (k : Nat) (b : BitVec 8) : BitVec 64 :=
  (w &&& ~~~((0xFF : BitVec 64) <<< (8 * k))) ||| (b.setWidth 64 <<< (8 * k))

theorem getLsbD_mask (i : Nat) : (0xFF : BitVec 64).getLsbD i = decide (i < 8) := by
  rw [show (0xFF : BitVec 64) = BitVec.ofNat 64 (2 ^ 8 - 1) from rfl, BitVec.getLsbD_ofNat,
    Nat.testBit_two_pow_sub_one]
  by_cases hi : i < 8
  · simp [hi, show i < 64 by omega]
  · simp [hi]

variable (w : BitVec 64) {i : Nat}

theorem getLsbD_setByte (k : Nat) (b : BitVec 8) (hi : i < 64) :
    (setByte w k b).getLsbD i =
      if 8 * k ≤ i ∧ i < 8 * k + 8 then b.getLsbD (i - 8 * k) else w.getLsbD i := by
  simp only [setByte, BitVec.getLsbD_or, BitVec.getLsbD_and, BitVec.getLsbD_not,
    BitVec.getLsbD_shiftLeft, BitVec.getLsbD_setWidth, getLsbD_mask, hi]
  by_cases hlow : i < 8 * k
  · simp [hlow, show ¬ 8 * k ≤ i by omega]
  by_cases hin : i < 8 * k + 8
  · simp [hlow, hin, show 8 * k ≤ i by omega, show i - 8 * k < 8 by omega,
      show i - 8 * k < 64 by omega]
  · have hb : b.getLsbD (i - 8 * k) = false := BitVec.getLsbD_of_ge _ _ (by omega)
    simp [hin, hb, show ¬ i - 8 * k < 8 by omega]

theorem getLsbD_byte (k : Nat) (hi : i < 8) :
    (byte w k).getLsbD i = w.getLsbD (8 * k + i) := by
  rw [byte, BitVec.getLsbD_extractLsb', decide_eq_true hi, Bool.true_and]

theorem byte_setByte_self {k : Nat} (hk : k < 8) (b : BitVec 8) :
    byte (setByte w k b) k = b := by
  apply BitVec.eq_of_getLsbD_eq
  intro i hi
  rw [getLsbD_byte _ _ hi, getLsbD_setByte _ _ _ (by omega), if_pos (by omega),
    Nat.add_sub_cancel_left]

theorem byte_setByte_ne {j k : Nat} (hj : j < 8) (hne : j ≠ k) (b : BitVec 8) :
    byte (setByte w k b) j = byte w j := by
  apply BitVec.eq_of_getLsbD_eq
  intro i hi
  rw [getLsbD_byte _ _ hi, getLsbD_byte _ _ hi, getLsbD_setByte _ _ _ (by omega), if_neg (by omega)]

theorem toNat_and_not_mask (a : BitVec 64) (k : Nat) :
    (a &&& ~~~(BitVec.ofNat 64 (2 ^ k - 1))).toNat = a.toNat / 2 ^ k * 2 ^ k := by
  have hshift : a &&& ~~~(BitVec.ofNat 64 (2 ^ k - 1)) = (a >>> k) <<< k := by
    apply BitVec.eq_of_getLsbD_eq
    intro i hi
    rw [BitVec.getLsbD_and, BitVec.getLsbD_not, BitVec.getLsbD_ofNat, Nat.testBit_two_pow_sub_one,
      BitVec.getLsbD_shiftLeft, BitVec.getLsbD_ushiftRight]
    by_cases h : i < k
    · simp [h, hi]
    · simp [h, hi, show k + (i - k) = i by omega]
  rw [hshift, BitVec.toNat_shiftLeft, BitVec.toNat_ushiftRight, Nat.shiftLeft_eq,
    Nat.shiftRight_eq_div_pow]
  exact Nat.mod_eq_of_lt (Nat.lt_of_le_of_lt (Nat.div_mul_le_self _ _) a.isLt)

end Xv6.Word
