import VerifyFiredancer.Lemmas.BitsImpl

/-!
# Signed words without a signed right shift

`fd_##T##_abs`, `fd_##T##_shift_right` and `fd_##T##_zz_enc` of the signed types shift the sign in. The comment before them has the
same for machines that do not: at every width they are the same functions, and exact (`signed_portable`).
-/

namespace VerifyFiredancer

open IntWidth BitsImplAux
open ZigZag (sshiftRight_sign)

variable {T : IntWidth}

namespace SignedWordsAux

/-! ## The sign of a word -/

section Sign

variable {w : Nat} {x : BitVec w}

/-- A word without a sign has nothing left after a shift by its width less one. -/
theorem ushiftRight_of_msb (h : x.msb = false) {n : Nat} (hn : w - 1 ≤ n) : x >>> n = 0#w := by
  have hlt : 2 * x.toNat < 2 ^ w := BitVec.msb_eq_false_iff_two_mul_lt.1 h
  have hpow : x.toNat < 2 ^ n := by
    have hle : 2 ^ (w - 1) ≤ 2 ^ n := Nat.pow_le_pow_right (by decide) hn
    cases w with
    | zero => exact Nat.lt_of_lt_of_le (by omega) hle
    | succ w =>
      rw [Nat.pow_succ'] at hlt
      exact Nat.lt_of_lt_of_le (Nat.lt_of_mul_lt_mul_left hlt) hle
  apply BitVec.eq_of_toNat_eq
  rw [BitVec.toNat_ushiftRight, Nat.shiftRight_eq_div_pow, Nat.div_eq_of_lt hpow]
  rfl

/-- The complement of a word with a sign has none. -/
theorem msb_not_of_msb (h : x.msb = true) : (~~~x).msb = false := by
  rw [BitVec.msb_not, h]
  exact Bool.and_false _

/-- To shift by more than the width less one shifts in nothing more. -/
theorem sshiftRight_min (x : BitVec w) (n : Nat) : x.sshiftRight (if w - 1 < n then w - 1 else n) = x.sshiftRight n := by
  split
  · next hn =>
    cases h : x.msb with
    | false =>
      rw [BitVec.sshiftRight_eq_of_msb_false h, BitVec.sshiftRight_eq_of_msb_false h, ushiftRight_of_msb h (Nat.le_refl _),
        ushiftRight_of_msb h (Nat.le_of_lt hn)]
    | true =>
      have hnot := msb_not_of_msb h
      rw [BitVec.sshiftRight_eq_of_msb_true h, BitVec.sshiftRight_eq_of_msb_true h, ushiftRight_of_msb hnot (Nat.le_refl _),
        ushiftRight_of_msb hnot (Nat.le_of_lt hn)]
  · rfl

/-- The sign shifted down to one bit, and negated. -/
theorem neg_ushiftRight_sign (x : BitVec w) : -(x >>> (w - 1)) = x.sshiftRight (w - 1) := by
  rw [sshiftRight_sign]
  cases h : x.msb with
  | false =>
    rw [ushiftRight_of_msb h (Nat.le_refl _)]
    exact BitVec.neg_zero w
  | true =>
    have hle : 2 ^ w ≤ 2 * x.toNat := BitVec.msb_eq_true_iff_two_mul_ge.1 h
    have hlt := x.isLt
    have hone : x >>> (w - 1) = 1 := by
      cases w with
      | zero => omega
      | succ w =>
        rw [Nat.pow_succ'] at hle hlt
        apply BitVec.eq_of_toNat_eq
        have hbit : (1 : BitVec (w + 1)).toNat = 1 := BitVec.toNat_one (Nat.succ_pos w)
        rw [BitVec.toNat_ushiftRight, Nat.shiftRight_eq_div_pow, Nat.add_sub_cancel, hbit]
        exact Nat.div_eq_of_lt_le (by omega) (by omega)
    rw [hone]
    exact BitVec.neg_one_eq_allOnes

/-- Words that agree with the sign shifted over them are complemented, or not, together. -/
theorem ushiftRight_xor_sign (x : BitVec w) (n : Nat) :
    (x ^^^ x.sshiftRight (w - 1)) >>> n ^^^ x.sshiftRight (w - 1) = x.sshiftRight n := by
  rw [sshiftRight_sign]
  cases h : x.msb with
  | false =>
    rw [if_neg Bool.false_ne_true, BitVec.xor_zero, BitVec.xor_zero, BitVec.sshiftRight_eq_of_msb_false h]
  | true =>
    rw [if_pos rfl, BitVec.xor_allOnes, BitVec.xor_allOnes, BitVec.sshiftRight_eq_of_msb_true h]

/-- A word with the sign shifted over it added, and then complemented as the sign says, has the absolute value. -/
theorem abs_sign (x : BitVec w) :
    ((x + x.sshiftRight (w - 1)) ^^^ x.sshiftRight (w - 1)).toNat = x.toInt.natAbs := by
  rw [sshiftRight_sign, BitVec.toInt_eq_msb_cond]
  cases h : x.msb with
  | false =>
    rw [if_neg Bool.false_ne_true, if_neg Bool.false_ne_true, BitVec.xor_zero, BitVec.add_zero]
    rfl
  | true =>
    have hneg : x + BitVec.allOnes w = ~~~(-x) := by
      rw [← BitVec.neg_one_eq_allOnes, BitVec.not_neg, BitVec.sub_eq_add_neg]
    have habs : (-x).toNat = 2 ^ w - x.toNat := by
      have hcond := @BitVec.toNat_abs w x
      rw [if_pos h, BitVec.abs_eq, if_pos h] at hcond
      exact hcond
    have hlt := x.isLt
    rw [if_pos rfl, if_pos rfl, BitVec.xor_allOnes, hneg, BitVec.not_not, habs]
    omega

end Sign

/-! ## The functions -/

/-- The unsigned shift. -/
theorem shiftRight_eq (x : T.Word) (n : Nat) : fdTShiftRight T x n = x >>> n := by
  have heq : fdTShiftRight T x n = (if T.bits - 1 < n then 0 else x) >>> (n % T.bits) := by
    simp [fdTShiftRight, and_bits_sub_one]
  rw [heq]
  have hpos := T.bits_pos
  split
  · next h =>
    exact BitVec.zero_ushiftRight.trans (BitVec.ushiftRight_eq_zero (by omega)).symm
  · next h => rw [Nat.mod_eq_of_lt (by omega)]

theorem shiftRightSigned_eq (x : T.Word) (n : Nat) : fdTShiftRightSigned T x n = x.sshiftRight n := by
  rw [fdTShiftRightSigned, cast_promoteSigned_sshiftRight, sshiftRight_min]

theorem abs_eq (x : T.Word) : fdTAbs T x = (x + x.sshiftRight (T.bits - 1)) ^^^ x.sshiftRight (T.bits - 1) := by
  simp [fdTAbs]

theorem absPortable_eq (x : T.Word) : fdTAbsPortable T x = fdTAbs T x := by
  rw [abs_eq, ← neg_ushiftRight_sign]
  simp [fdTAbsPortable]

theorem shiftRightPortable_eq (x : T.Word) (n : Nat) : fdTShiftRightPortable T x n = fdTShiftRightSigned T x n := by
  rw [shiftRightSigned_eq, ← ushiftRight_xor_sign, ← neg_ushiftRight_sign]
  simp [fdTShiftRightPortable, shiftRight_eq]

theorem zzEncPortable_eq (x : T.Word) : fdTZzEncPortable T x = fdTZzEnc T x := by
  have heq : fdTZzEncPortable T x = -(x >>> (T.bits - 1)) ^^^ x <<< 1 := by
    simp [fdTZzEncPortable]
  rw [heq, zzEnc_eq, fdZzEnc, neg_ushiftRight_sign]

end SignedWordsAux

open SignedWordsAux

/-- At every width: the absolute value is exact, that of the least word too; the right shift rounds down, by any count; and these and
the zig-zag code are what the comment has for machines without a right shift that extends the sign. -/
theorem signed_portable (T : IntWidth) (x : T.Word) :
    (fdTAbs T x).toNat = x.toInt.natAbs ∧ fdTAbsPortable T x = fdTAbs T x ∧
      (∀ n, (fdTShiftRightSigned T x n).toInt = x.toInt / 2 ^ n ∧ fdTShiftRightPortable T x n = fdTShiftRightSigned T x n) ∧
      fdTZzEncPortable T x = fdTZzEnc T x := by
  refine ⟨?_, absPortable_eq x, fun n => ⟨?_, shiftRightPortable_eq x n⟩, zzEncPortable_eq x⟩
  · rw [abs_eq, abs_sign]
  · rw [shiftRightSigned_eq, BitVec.toInt_sshiftRight, Int.shiftRight_eq_div_pow]
    norm_cast

end VerifyFiredancer
