import Mathlib.Algebra.Order.Ring.Nat
import Mathlib.Tactic.Common

/-!
# Masks below a power of two

In a word, one less than a power of two is the mask of the bits below it: `and` with it is a remainder, `and` with its
complement rounds down.
-/

namespace PowerMask

variable {w k : Nat}

/-- One shifted within the width is a power of two. -/
theorem toNat_one_shiftLeft (h : k < w) : (1#w <<< k).toNat = 2 ^ k := by
  have hone : 1 % 2 ^ w = 1 := Nat.mod_eq_of_lt (Nat.one_lt_two_pow (Nat.ne_of_gt (Nat.zero_lt_of_lt h)))
  rw [BitVec.toNat_shiftLeft, BitVec.toNat_ofNat, hone, Nat.shiftLeft_eq, Nat.one_mul,
    Nat.mod_eq_of_lt (Nat.pow_lt_pow_right (by decide) h)]

/-- A word that is a power of two is not zero. -/
theorem toNat_pos {a : BitVec w} (ha : ∃ k, a.toNat = 2 ^ k) : 0 < a.toNat := by
  obtain ⟨k, hk⟩ := ha
  rw [hk]
  exact Nat.two_pow_pos k

variable {a : BitVec w} (ha : a.toNat = 2 ^ k)
include ha

/-- A word that is a power of two has its bit within its width. -/
theorem exponent_lt : k < w := by
  have hlt := a.isLt
  rw [ha] at hlt
  exact (Nat.pow_lt_pow_iff_right (by decide)).1 hlt

theorem toNat_mask : (a - 1).toNat = 2 ^ k - 1 := by
  have hpos := Nat.two_pow_pos k
  have hone : (1 : BitVec w).toNat = 1 := Nat.mod_eq_of_lt (Nat.one_lt_two_pow (Nat.ne_of_gt (Nat.zero_lt_of_lt (exponent_lt ha))))
  rw [BitVec.toNat_sub_of_le (by rw [BitVec.le_def, hone, ha]; exact hpos), ha, hone]

theorem getLsbD_mask (i : Nat) : (a - 1).getLsbD i = decide (i < k) := by
  rw [BitVec.getLsbD, toNat_mask ha, Nat.testBit_two_pow_sub_one]

theorem toNat_and_mask (x : BitVec w) : (x &&& (a - 1)).toNat = x.toNat % 2 ^ k := by
  rw [BitVec.toNat_and, toNat_mask ha, Nat.and_two_pow_sub_one_eq_mod]

/-- Without the bits below a power of two, a word is rounded down. -/
theorem toNat_and_not_mask (x : BitVec w) : (x &&& ~~~(a - 1)).toNat = x.toNat / 2 ^ k * 2 ^ k := by
  have hbits : x &&& ~~~(a - 1) = (x >>> k) <<< k := by
    apply BitVec.eq_of_getLsbD_eq
    intro i hi
    simp only [BitVec.getLsbD_and, BitVec.getLsbD_not, BitVec.getLsbD_shiftLeft, BitVec.getLsbD_ushiftRight, getLsbD_mask ha, hi,
      decide_true, Bool.true_and]
    by_cases hik : i < k
    · simp [hik]
    · have hadd : k + (i - k) = i := by omega
      simp [hik, hadd]
  have hle : x.toNat / 2 ^ k * 2 ^ k < 2 ^ w := Nat.lt_of_le_of_lt (Nat.div_mul_le_self _ _) x.isLt
  rw [hbits, BitVec.toNat_shiftLeft, BitVec.toNat_ushiftRight, Nat.shiftRight_eq_div_pow, Nat.shiftLeft_eq,
    Nat.mod_eq_of_lt hle]

end PowerMask
