import VerifyFiredancer.Mcache
import Mathlib.Data.Finset.Card
import Mathlib.Data.Nat.ModEq
import Mathlib.Order.Interval.Finset.Nat

/-!
# Interleaved lines

With an interleave the line of a sequence number is its index with the bits within a block rotated. The bits that the two shifts
of the source leave meet in every bit of the block (`McacheAux.getLsbD_interleaved`), so that the index can be read back and no
two sequence numbers of a window have one line.
-/

namespace VerifyFiredancer

/-- The index of a sequence number with the `lgBlock` bits within its block rotated left, and the others as they are. -/
def rotatedIdx (lgBlock lgInterleave : Nat) (seq depth : Ulong) : Ulong :=
  ((seq &&& (depth - 1)) >>> lgBlock) <<< lgBlock ||| ((seq.setWidth lgBlock).rotateLeft lgInterleave).setWidth 64

namespace McacheAux

variable {lgBlock lgInterleave k : Nat} {depth : Ulong} (hI : lgInterleave < lgBlock) (hB : lgBlock ≤ k)
  (hd : depth.toNat = 2 ^ k)
include hI hB hd

/-- The bits of a line index: those of the sequence number, rotated within the block. -/
theorem getLsbD_interleaved (seq : Ulong) (i : Nat) :
    (fdMcacheLineIdxInterleaved lgBlock lgInterleave seq depth).getLsbD i =
      if i < lgInterleave then seq.getLsbD (lgBlock - lgInterleave + i)
      else if i < lgBlock then seq.getLsbD (i - lgInterleave)
      else decide (i < k) && seq.getLsbD i := by
  have hk := PowerMask.exponent_lt hd
  have hblock : (1#64 <<< lgBlock : Ulong).toNat = 2 ^ lgBlock := PowerMask.toNat_one_shiftLeft (Nat.lt_of_le_of_lt hB hk)
  by_cases hi : i < 64
  · simp only [fdMcacheLineIdxInterleaved, BitVec.getLsbD_or, BitVec.getLsbD_and, BitVec.getLsbD_not, BitVec.getLsbD_shiftLeft,
      BitVec.getLsbD_ushiftRight, PowerMask.getLsbD_mask hd, PowerMask.getLsbD_mask hblock, hi, decide_true, Bool.true_and]
    by_cases h1 : i < lgInterleave
    · have hin : lgBlock - lgInterleave + i < lgBlock := by omega
      have hib : i < lgBlock := by omega
      simp [h1, hin, hib]
    · have hout : ¬lgBlock - lgInterleave + i < lgBlock := by omega
      by_cases h2 : i < lgBlock
      · simp [h1, h2, hout]
      · simp [h1, h2, hout, Bool.and_comm]
  · rw [BitVec.getLsbD_of_ge _ _ (Nat.not_lt.1 hi), if_neg (by omega), if_neg (by omega),
      BitVec.getLsbD_of_ge _ _ (Nat.not_lt.1 hi), Bool.and_false]

theorem getLsbD_rotatedIdx (seq : Ulong) (i : Nat) :
    (rotatedIdx lgBlock lgInterleave seq depth).getLsbD i =
      if i < lgInterleave then seq.getLsbD (lgBlock - lgInterleave + i)
      else if i < lgBlock then seq.getLsbD (i - lgInterleave)
      else decide (i < k) && seq.getLsbD i := by
  have hk := PowerMask.exponent_lt hd
  by_cases hi : i < 64
  · simp only [rotatedIdx, BitVec.getLsbD_or, BitVec.getLsbD_and, BitVec.getLsbD_shiftLeft, BitVec.getLsbD_ushiftRight,
      BitVec.getLsbD_setWidth, BitVec.getLsbD_rotateLeft, PowerMask.getLsbD_mask hd, Nat.mod_eq_of_lt hI, hi, decide_true,
      Bool.true_and]
    by_cases h1 : i < lgInterleave
    · have hin : lgBlock - lgInterleave + i < lgBlock := by omega
      have hib : i < lgBlock := by omega
      simp [h1, hin, hib]
    · by_cases h2 : i < lgBlock
      · have hsub : i - lgInterleave < lgBlock := by omega
        simp [h1, h2, hsub]
      · have hadd : lgBlock + (i - lgBlock) = i := by omega
        simp [h1, h2, hadd, Bool.and_comm]
  · rw [BitVec.getLsbD_of_ge _ _ (Nat.not_lt.1 hi), if_neg (by omega), if_neg (by omega),
      BitVec.getLsbD_of_ge _ _ (Nat.not_lt.1 hi), Bool.and_false]

/-- The index is one of the `depth` lines. -/
theorem interleaved_lt (seq : Ulong) :
    (fdMcacheLineIdxInterleaved lgBlock lgInterleave seq depth).toNat < depth.toNat := by
  rw [hd]
  refine Nat.lt_pow_two_of_testBit _ fun i hi => ?_
  have hbit := getLsbD_interleaved hI hB hd seq i
  rw [if_neg (by omega), if_neg (by omega), decide_eq_false (by omega), Bool.false_and] at hbit
  exact hbit

/-- Sequence numbers of one line agree modulo the depth: every bit below it is in the index. -/
theorem mod_eq_of_interleaved_eq {s t : Ulong}
    (h : fdMcacheLineIdxInterleaved lgBlock lgInterleave s depth = fdMcacheLineIdxInterleaved lgBlock lgInterleave t depth) :
    s.toNat % depth.toNat = t.toNat % depth.toNat := by
  have hbits : ∀ i, (fdMcacheLineIdxInterleaved lgBlock lgInterleave s depth).getLsbD i =
      (fdMcacheLineIdxInterleaved lgBlock lgInterleave t depth).getLsbD i := fun i => by rw [h]
  simp only [getLsbD_interleaved hI hB hd] at hbits
  have hlow : ∀ j, j < k → s.getLsbD j = t.getLsbD j := by
    intro j hj
    by_cases h1 : j < lgBlock - lgInterleave
    · have hnot : ¬j + lgInterleave < lgInterleave := by omega
      have hin : j + lgInterleave < lgBlock := by omega
      have hbit := hbits (j + lgInterleave)
      simp only [if_neg hnot, if_pos hin, Nat.add_sub_cancel] at hbit
      exact hbit
    · by_cases h2 : j < lgBlock
      · have hin : j - (lgBlock - lgInterleave) < lgInterleave := by omega
        have hbit := hbits (j - (lgBlock - lgInterleave))
        simp only [if_pos hin, Nat.add_sub_cancel' (Nat.not_lt.1 h1)] at hbit
        exact hbit
      · have hnot : ¬j < lgInterleave := by omega
        have hbit := hbits j
        simp only [if_neg hnot, if_neg h2, decide_eq_true hj, Bool.true_and] at hbit
        exact hbit
  rw [hd]
  refine Nat.eq_of_testBit_eq fun j => ?_
  rw [Nat.testBit_mod_two_pow, Nat.testBit_mod_two_pow]
  by_cases hj : j < k
  · rw [decide_eq_true hj, Bool.true_and, Bool.true_and]
    exact hlow j hj
  · rw [decide_eq_false hj, Bool.false_and, Bool.false_and]

omit hI in
/-- Without an interleave the index is that of the other branch. -/
theorem interleaved_zero (hpos : 0 < lgBlock) (seq : Ulong) :
    fdMcacheLineIdxInterleaved lgBlock 0 seq depth = fdMcacheLineIdx seq depth := by
  apply BitVec.eq_of_getLsbD_eq
  intro i _
  rw [getLsbD_interleaved hpos hB hd, fdMcacheLineIdx, BitVec.getLsbD_and, PowerMask.getLsbD_mask hd, if_neg (Nat.not_lt_zero i),
    Nat.sub_zero]
  by_cases hi : i < lgBlock
  · rw [if_pos hi, decide_eq_true (by omega), Bool.and_true]
  · rw [if_neg hi, Bool.and_comm]

end McacheAux

open McacheAux

/-- In every window of `depth` sequence numbers, wherever it starts, every line is that of exactly one. The index is the rotated
one, and without an interleave that of the other branch. -/
theorem mcache_line_permutes {lgBlock lgInterleave k : Nat} {depth : Ulong} (hI : lgInterleave < lgBlock) (hB : lgBlock ≤ k)
    (hd : depth.toNat = 2 ^ k) (s : Ulong) :
    Set.BijOn (fun j => (fdMcacheLineIdxInterleaved lgBlock lgInterleave (s + BitVec.ofNat 64 j) depth).toNat)
        (Set.Iio depth.toNat) (Set.Iio depth.toNat) ∧
      ∀ seq, fdMcacheLineIdxInterleaved lgBlock lgInterleave seq depth = rotatedIdx lgBlock lgInterleave seq depth ∧
        fdMcacheLineIdxInterleaved lgBlock 0 seq depth = fdMcacheLineIdx seq depth := by
  have hdvd : depth.toNat ∣ 2 ^ 64 := by
    rw [hd]
    exact Nat.pow_dvd_pow 2 (Nat.le_of_lt (PowerMask.exponent_lt hd))
  have hmod : ∀ j, (s + BitVec.ofNat 64 j).toNat % depth.toNat = (s.toNat + j) % depth.toNat := by
    intro j
    rw [BitVec.toNat_add, BitVec.toNat_ofNat, Nat.add_mod_mod, Nat.mod_mod_of_dvd _ hdvd]
  have hmaps : Set.MapsTo (fun j => (fdMcacheLineIdxInterleaved lgBlock lgInterleave (s + BitVec.ofNat 64 j) depth).toNat)
      (Finset.Iio depth.toNat) (Finset.Iio depth.toNat) := by
    intro j _
    rw [Finset.coe_Iio, Set.mem_Iio]
    exact interleaved_lt hI hB hd _
  have hinj : Set.InjOn (fun j => (fdMcacheLineIdxInterleaved lgBlock lgInterleave (s + BitVec.ofNat 64 j) depth).toNat)
      (Finset.Iio depth.toNat) := by
    intro i hi j hj heq
    rw [Finset.coe_Iio, Set.mem_Iio] at hi hj
    have hres := mod_eq_of_interleaved_eq hI hB hd (BitVec.eq_of_toNat_eq heq)
    rw [hmod, hmod] at hres
    exact Nat.ModEq.eq_of_lt_of_lt (Nat.ModEq.add_left_cancel' s.toNat hres) hi hj
  have hsurj := Finset.surjOn_of_injOn_of_card_le _ hmaps hinj (Nat.le_refl _)
  rw [Finset.coe_Iio] at hmaps hinj hsurj
  refine ⟨⟨hmaps, hinj, hsurj⟩, fun seq => ⟨?_, interleaved_zero hB hd (Nat.zero_lt_of_lt hI) seq⟩⟩
  apply BitVec.eq_of_getLsbD_eq
  intro i _
  rw [getLsbD_interleaved hI hB hd, getLsbD_rotatedIdx hI hB hd]

/-- Blocks of 128 with an interleave of 8, from 16 before the wrap on. -/
theorem mcache_line_permutes_wrap :
    Set.BijOn (fun j => (fdMcacheLineIdxInterleaved 7 3 (0xfffffffffffffff0 + BitVec.ofNat 64 j) 1024).toNat)
        (Set.Iio (1024 : Ulong).toNat) (Set.Iio (1024 : Ulong).toNat) ∧
      ∀ seq, fdMcacheLineIdxInterleaved 7 3 seq 1024 = rotatedIdx 7 3 seq 1024 ∧
        fdMcacheLineIdxInterleaved 7 0 seq 1024 = fdMcacheLineIdx seq 1024 :=
  mcache_line_permutes (k := 10) (by decide) (by decide) (by decide) _

end VerifyFiredancer
