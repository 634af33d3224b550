import VerifyFiredancer.BitsImpl
import VerifyFiredancer.Lib.BitField
import VerifyFiredancer.Lib.PowerMask
import VerifyFiredancer.Lib.ZigZag
import Mathlib.Tactic.SplitIfs

/-!
# Promotion

What a function computes on promoted operands and casts back is what it computes on the words themselves: the cast goes through
every operation on single bits or on low bits, and through a right shift when the bits that come in are those of the extension.
So each function of the families has a normal form without promotion. In it, an extraction reads a field of bits and an
insertion writes one (`BitField`).
-/

namespace VerifyFiredancer

namespace IntWidth

variable (T : IntWidth)

theorem bits_pos : 0 < T.bits := by
  cases T <;> decide

/-- An operand has all bits of the word. -/
theorem bits_le : T.bits ≤ max T.bits 32 := Nat.le_max_left _ _

theorem operand_pos : 0 < max T.bits 32 := Nat.lt_of_lt_of_le T.bits_pos T.bits_le

/-- The widths are powers of two, so that their masks are remainders. -/
theorem and_bits_sub_one (n : Nat) : n &&& (T.bits - 1) = n % T.bits := by
  have hpow : ∃ k, T.bits = 2 ^ k := by
    cases T with
    | w8 => exact ⟨3, rfl⟩
    | w16 => exact ⟨4, rfl⟩
    | w32 => exact ⟨5, rfl⟩
    | w64 => exact ⟨6, rfl⟩
    | w128 => exact ⟨7, rfl⟩
  obtain ⟨k, hk⟩ := hpow
  rw [hk, Nat.and_two_pow_sub_one_eq_mod]

variable {T} (x : T.Word) (a b : T.Operand) (n : Nat)

/-- A promoted word has the value of the word. -/
@[simp] theorem promote_toNat : (T.promote x).toNat = x.toNat := BitVec.toNat_setWidth_of_le T.bits_le

@[simp] theorem promote_zero : T.promote 0 = 0 := BitVec.setWidth_zero _ _

@[simp] theorem one_toNat : (1 : T.Operand).toNat = 1 := BitVec.toNat_one T.operand_pos

theorem cast_toNat : (T.cast a).toNat = a.toNat % 2 ^ T.bits := BitVec.toNat_setWidth _ _

@[simp] theorem cast_zero : T.cast 0 = 0 := BitVec.setWidth_zero _ _

@[simp] theorem cast_promote : T.cast (T.promote x) = x := by
  rw [cast, promote, BitVec.setWidth_setWidth_of_le _ T.bits_le, BitVec.setWidth_eq]

@[simp] theorem cast_and : T.cast (a &&& b) = T.cast a &&& T.cast b := BitVec.setWidth_and

@[simp] theorem cast_or : T.cast (a ||| b) = T.cast a ||| T.cast b := BitVec.setWidth_or

@[simp] theorem cast_xor : T.cast (a ^^^ b) = T.cast a ^^^ T.cast b := BitVec.setWidth_xor

@[simp] theorem cast_not : T.cast (~~~a) = ~~~T.cast a := BitVec.setWidth_not T.bits_le

@[simp] theorem cast_neg : T.cast (-a) = -T.cast a := BitVec.setWidth_neg_of_le T.bits_le

@[simp] theorem cast_add : T.cast (a + b) = T.cast a + T.cast b := BitVec.setWidth_add _ _ T.bits_le

@[simp] theorem cast_sub : T.cast (a - b) = T.cast a - T.cast b := by
  rw [BitVec.sub_eq_add_neg, BitVec.sub_eq_add_neg, cast_add, cast_neg]

@[simp] theorem cast_shiftLeft : T.cast (a <<< n) = T.cast a <<< n := BitVec.setWidth_shiftLeft_of_le T.bits_le

/-- A promoted word has nothing above it to shift in. -/
@[simp] theorem cast_promote_ushiftRight : T.cast (T.promote x >>> n) = x >>> n := by
  rw [promote, ← BitVec.setWidth_ushiftRight T.bits_le]
  exact cast_promote (x >>> n)

theorem msb_promoteSigned : (T.promoteSigned x).msb = x.msb := by
  rw [promoteSigned, BitVec.msb_signExtend, decide_eq_true T.operand_pos, Bool.true_and]
  split_ifs with h
  · rw [Nat.sub_eq_zero_of_le T.bits_le]
    rfl
  · rfl

/-- A promoted signed word has its sign above it to shift in. -/
@[simp] theorem cast_promoteSigned_sshiftRight : T.cast ((T.promoteSigned x).sshiftRight n) = x.sshiftRight n := by
  have hle := T.bits_le
  apply BitVec.eq_of_getLsbD_eq
  intro i hi
  have hnot : ¬T.bits ≤ i := Nat.not_le.2 hi
  have hnot' : ¬max T.bits 32 ≤ i := Nat.not_le.2 (Nat.lt_of_lt_of_le hi hle)
  rw [cast, BitVec.getLsbD_setWidth, BitVec.getLsbD_sshiftRight, BitVec.getLsbD_sshiftRight, msb_promoteSigned, promoteSigned]
  simp only [BitVec.getLsbD_signExtend, hi, hnot, hnot', decide_true, decide_false, Bool.not_false, Bool.true_and]
  by_cases h1 : n + i < T.bits
  · have h2 : n + i < max T.bits 32 := Nat.lt_of_lt_of_le h1 hle
    simp only [if_pos h1, if_pos h2, decide_eq_true h2, Bool.true_and]
  · by_cases h2 : n + i < max T.bits 32
    · simp only [if_neg h1, if_pos h2, decide_eq_true h2, Bool.true_and]
    · simp only [if_neg h1, if_neg h2]

end IntWidth

namespace BitsImplAux

open IntWidth

variable {T : IntWidth}

/-! ## Bit fields -/

section Fields

variable {n l h : Nat}

theorem maskLsb_eq (n : Nat) : fdTMaskLsb T n = (if n < T.bits then 1 else 0 : T.Word) <<< (n % T.bits) - 1 := by
  simp [fdTMaskLsb, and_bits_sub_one]

/-- The mask has the bits below `n`; at the full width, where it is zero less one, these are all. -/
theorem getLsbD_maskLsb (hn : n ≤ T.bits) (i : Nat) : (fdTMaskLsb T n).getLsbD i = decide (i < n) := by
  rw [maskLsb_eq]
  rcases Nat.lt_or_eq_of_le hn with hlt | rfl
  · rw [if_pos hlt, Nat.mod_eq_of_lt hlt]
    exact PowerMask.getLsbD_mask (PowerMask.toNat_one_shiftLeft hlt) i
  · have hones : (0 : T.Word) <<< (T.bits % T.bits) - 1 = BitVec.allOnes T.bits := by
      rw [Nat.mod_self]
      exact (BitVec.zero_sub _).trans BitVec.neg_one_eq_allOnes
    rw [if_neg (Nat.lt_irrefl _), hones, BitVec.getLsbD_allOnes]

/-- A word below a power of two has no bit from there on. -/
theorem getLsbD_of_lt {y : T.Word} (hy : y.toNat < 2 ^ n) {i : Nat} (hi : n ≤ i) : y.getLsbD i = false :=
  Nat.testBit_lt_two_pow (Nat.lt_of_lt_of_le hy (Nat.pow_le_pow_right (by decide) hi))

/-- An extraction reads a field. -/
theorem getLsbD_extract (hlh : l ≤ h) (hh : h < T.bits) (x : T.Word) :
    (fdTExtract T x l h).getLsbD = BitField.get false l (h - l + 1) x.getLsbD := by
  funext i
  have heq : fdTExtract T x l h = x >>> l &&& fdTMaskLsb T (h - l + 1) := by
    simp [fdTExtract]
  rw [heq, BitVec.getLsbD_and, BitVec.getLsbD_ushiftRight, getLsbD_maskLsb (by omega), BitField.get]
  by_cases hi : i < h - l + 1 <;> simp [hi]

/-- An insertion writes a field. -/
theorem getLsbD_insert (hlh : l ≤ h) (hh : h < T.bits) (x : T.Word) {y : T.Word} (hy : y.toNat < 2 ^ (h - l + 1)) :
    (fdTInsert T x l h y).getLsbD = BitField.put l (h - l + 1) x.getLsbD y.getLsbD := by
  funext i
  have heq : fdTInsert T x l h y = x &&& ~~~(fdTMaskLsb T (h - l + 1) <<< l) ||| y <<< l := by
    simp [fdTInsert, fdTClear, fdTMask]
  rw [BitField.put]
  by_cases hi : i < T.bits
  · rw [heq]
    simp only [BitVec.getLsbD_or, BitVec.getLsbD_and, BitVec.getLsbD_not, BitVec.getLsbD_shiftLeft, hi, decide_true, Bool.true_and,
      getLsbD_maskLsb (T := T) (n := h - l + 1) (by omega)]
    split_ifs with hin
    · have h1 : ¬i < l := by omega
      have h2 : i - l < h - l + 1 := by omega
      simp [h1, h2]
    · by_cases h1 : i < l
      · simp [h1]
      · have h2 : ¬i - l < h - l + 1 := by omega
        have h3 := getLsbD_of_lt hy (i := i - l) (by omega)
        simp [h1, h2, h3]
  · have hout : ¬(l ≤ i ∧ i < l + (h - l + 1)) := by omega
    rw [if_neg hout, BitVec.getLsbD_of_ge _ _ (Nat.le_of_not_lt hi), BitVec.getLsbD_of_ge _ _ (Nat.le_of_not_lt hi)]

end Fields

/-! ## Zig-zag -/

theorem zzEnc_eq (x : T.Word) : fdTZzEnc T x = fdZzEnc x := by
  simp [fdTZzEnc, fdZzEnc]

theorem zzDec_eq (u : T.Word) : fdTZzDec T u = fdZzDec u := by
  simp [fdTZzDec, fdZzDec]

/-- The encoder computes the code. -/
theorem zzEnc_toNat (x : T.Word) : (fdTZzEnc T x).toNat = ZigZag.enc x.toInt := by
  have hword : ∀ {w : Nat} (_ : 0 < w) (x : BitVec w), (fdZzEnc x).toNat = ZigZag.enc x.toInt := by
    intro w hw x
    obtain ⟨k, rfl⟩ := Nat.exists_eq_succ_of_ne_zero (Nat.ne_of_gt hw)
    exact ZigZag.toNat_encWord x
  rw [zzEnc_eq, hword T.bits_pos]

/-- The decoder computes its inverse. -/
theorem zzDec_toInt (u : T.Word) : (fdTZzDec T u).toInt = ZigZag.dec u.toNat := by
  have hword : ∀ {w : Nat} (_ : 0 < w) (u : BitVec w), (fdZzDec u).toInt = ZigZag.dec u.toNat := by
    intro w hw u
    obtain ⟨k, rfl⟩ := Nat.exists_eq_succ_of_ne_zero (Nat.ne_of_gt hw)
    exact ZigZag.toInt_decWord u
  rw [zzDec_eq, hword T.bits_pos]

end BitsImplAux

end VerifyFiredancer
