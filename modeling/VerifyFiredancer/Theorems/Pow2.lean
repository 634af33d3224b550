import VerifyFiredancer.Lemmas.BitsImpl

/-!
# Rounding to a power of two

Every one of these functions smears the highest bit of a word over the bits below it (`Smear`) and adds one: `pow2_up` of the
word less one, `pow2_dn` of its half. The shifts of each leave no gap and reach over all bits of its type, so that both are
exact; a power of two that the type does not have is zero in it.
-/

namespace VerifyFiredancer

open Smear IntWidth

/-- The two roundings of a type of `w` bits.
1. Up is the least power of two that is not below `x`, modulo `2^w`.
2. Down is the greatest that is not above it.
3. Zero gives zero and one. -/
structure Pow2Exact {w : Nat} (up dn : BitVec w → BitVec w) : Prop where
  up_least : ∀ x, 0 < x.toNat → ∃ p, IsLeast {p | (∃ k, p = 2 ^ k) ∧ x.toNat ≤ p} p ∧ (up x).toNat = p % 2 ^ w
  dn_greatest : ∀ x, 0 < x.toNat → IsGreatest {p | (∃ k, p = 2 ^ k) ∧ p ≤ x.toNat} (dn x).toNat
  up_zero : up 0 = 0
  dn_zero : dn 0 = 1

namespace BitsImplAux

variable {T : IntWidth} {shifts : List Nat}

/-- The last steps of both: the power of two, as a word of the type. -/
theorem cast_smear_toNat (hgap : Gapless 1 shifts) {y : T.Operand} (hy : y.toNat < 2 ^ (1 + shifts.sum)) :
    (T.cast (smear y shifts + 1)).toNat = 2 ^ y.toNat.size % 2 ^ T.bits := by
  rw [cast_toNat, toNat_smear_add_one hgap hy, Nat.mod_mod_of_dvd _ (Nat.pow_dvd_pow 2 T.bits_le)]

/-- The cascade reaches over every value of the type. -/
theorem lt_of_reach (hall : T.bits ≤ 1 + shifts.sum) (x : T.Word) : x.toNat < 2 ^ (1 + shifts.sum) :=
  Nat.lt_of_lt_of_le x.isLt (Nat.pow_le_pow_right (by decide) hall)

section Cascade

variable (hgap : Gapless 1 shifts) (hall : T.bits ≤ 1 + shifts.sum)
include hgap hall

theorem pow2Up_toNat {x : T.Word} (hx : 0 < x.toNat) :
    (fdTPow2Up T shifts x).toNat = 2 ^ (x.toNat - 1).size % 2 ^ T.bits := by
  have hle : 1 ≤ T.promote x := by
    rw [BitVec.le_def, one_toNat, promote_toNat]
    exact hx
  have hsub : (T.promote x - 1).toNat = x.toNat - 1 := by
    rw [BitVec.toNat_sub_of_le hle, promote_toNat, one_toNat]
  have hlt : (T.promote x - 1).toNat < 2 ^ (1 + shifts.sum) := by
    rw [hsub]
    exact Nat.lt_of_le_of_lt (Nat.sub_le _ _) (lt_of_reach hall x)
  rw [← hsub]
  exact cast_smear_toNat hgap hlt

theorem pow2Dn_toNat (x : T.Word) : (fdTPow2Dn T shifts x).toNat = 2 ^ (x.toNat / 2).size % 2 ^ T.bits := by
  have hhalf : (T.promote x >>> 1).toNat = x.toNat / 2 := by
    rw [BitVec.toNat_ushiftRight, promote_toNat, Nat.shiftRight_one]
  have hlt : (T.promote x >>> 1).toNat < 2 ^ (1 + shifts.sum) := by
    rw [hhalf]
    exact Nat.lt_of_le_of_lt (Nat.div_le_self _ _) (lt_of_reach hall x)
  rw [← hhalf]
  exact cast_smear_toNat hgap hlt

/-- The functions of the family for a type, with shifts that leave no gap and reach over all of its bits. -/
theorem pow2Exact : Pow2Exact (fdTPow2Up T shifts) (fdTPow2Dn T shifts) where
  up_least := fun x hx => ⟨_, isLeast_two_pow_size hx, pow2Up_toNat hgap hall hx⟩
  dn_greatest := by
    intro x hx
    have hgreatest := isGreatest_two_pow_size hx
    rw [pow2Dn_toNat hgap hall, Nat.mod_eq_of_lt (Nat.lt_of_le_of_lt hgreatest.1.2 x.isLt)]
    exact hgreatest
  up_zero := by
    -- zero less one has all bits, and so has what is smeared from it
    have hdec : (0 : T.Operand) - 1 = BitVec.allOnes _ := (BitVec.zero_sub _).trans BitVec.neg_one_eq_allOnes
    have hinc : BitVec.allOnes _ + 1 = (0 : T.Operand) := by
      rw [← BitVec.neg_one_eq_allOnes]
      exact BitVec.add_left_neg 1
    unfold fdTPow2Up
    dsimp only
    rw [promote_zero, hdec, smear_allOnes, hinc, cast_zero]
  dn_zero := by
    have hzero : (0 : T.Word).toNat = 0 := Nat.zero_mod _
    apply BitVec.eq_of_toNat_eq
    rw [pow2Dn_toNat hgap hall, hzero, Nat.zero_div, Nat.size_zero, Nat.pow_zero]
    rfl

end Cascade

end BitsImplAux

open BitsImplAux in
/-- Both roundings are exact at every width. -/
theorem pow2_rounds :
    Pow2Exact fdUcharPow2Up fdUcharPow2Dn ∧ Pow2Exact fdUshortPow2Up fdUshortPow2Dn ∧
      Pow2Exact fdUintPow2Up fdUintPow2Dn ∧ Pow2Exact fdUlongPow2Up fdUlongPow2Dn ∧
      Pow2Exact fdUint128Pow2Up fdUint128Pow2Dn := by
  refine ⟨?_, ?_, ?_, ?_, ?_⟩
  · exact pow2Exact (T := .w8) (by decide) (by decide)
  · exact pow2Exact (T := .w16) (by decide) (by decide)
  · exact pow2Exact (T := .w32) (by decide) (by decide)
  · exact pow2Exact (T := .w64) (by decide) (by decide)
  · exact pow2Exact (T := .w128) (by decide) (by decide)

/-- At the last power of two of a type and above it. -/
example : fdUcharPow2Up 128 = 128 ∧ fdUcharPow2Up 129 = 0 ∧ fdUcharPow2Dn 255 = 128 := by
  decide

end VerifyFiredancer
