import VerifyFiredancer.BitsImpl
import Mathlib.Tactic.Common

/-!
# Counting decimal digits

`fd_##T##_base10_dig_cnt` compares its argument to 10, 100 and so on, each threshold made from the last. No type has more than
`M` digits, so the count stops at `M` with no comparison to a threshold of `M` zeros: that threshold, the only one above the
range of the type, is made and not looked at. For `ulong` its product wraps.
-/

namespace VerifyFiredancer

/-- A product by ten that is exact where it is a value of `w` bits. What it is elsewhere is left open. -/
def ExactBelow (w : Nat) (times10 : Ulong → Ulong) : Prop :=
  ∀ thresh, thresh.toNat * 10 < 2 ^ w → (times10 thresh).toNat = thresh.toNat * 10

/-- A count of digits for a type of `w` bits.
1. It ends with the number of decimal digits of its argument.
2. It is the same with any product by ten that is exact in the range of the type. -/
structure DigCntExact {w : Nat} (M : Ulong) (digCnt : Nat → BitVec w → Option Ulong) : Prop where
  digits : ∀ fuel, M.toNat ≤ fuel → ∀ x, ∃ cnt, digCnt fuel x = some cnt ∧ cnt.toNat = (Nat.toDigits 10 x.toNat).length
  product : ∀ fuel, M.toNat ≤ fuel → ∀ x times10, ExactBelow w times10 →
    fdTBase10DigCnt times10 M fuel (x.setWidth 64) = digCnt fuel x

namespace Base10Aux

variable {w : Nat} {times10 : Ulong → Ulong} {M x : Ulong} (hexact : ExactBelow w times10)
  (hlow : 10 ^ (M.toNat - 1) < 2 ^ w) (hhigh : 2 ^ w ≤ 10 ^ M.toNat) (hx : x.toNat < 2 ^ w)
include hexact hlow hhigh hx

/-- The loop, when `cnt` is not above the number of digits and `thresh` is the power of ten for it. -/
theorem loop_spec :
    ∀ (fuel : Nat) (cnt thresh : Ulong), 0 < cnt.toNat → cnt.toNat < M.toNat → M.toNat ≤ cnt.toNat + fuel →
      thresh.toNat = 10 ^ cnt.toNat → cnt.toNat ≤ (Nat.toDigits 10 x.toNat).length →
      fdBase10DigCntLoop times10 M x fuel cnt thresh = some (BitVec.ofNat 64 (Nat.toDigits 10 x.toNat).length) := by
  intro fuel
  induction fuel with
  | zero => intro cnt thresh _ hlt hfuel; omega
  | succ fuel ih =>
    intro cnt thresh hpos hlt hfuel hthresh hle
    have hM := M.isLt
    have hsucc : (cnt + 1).toNat = cnt.toNat + 1 :=
      BitVec.toNat_add_of_lt (y := 1) (show cnt.toNat + 1 < 2 ^ 64 by omega)
    have hdigits : (Nat.toDigits 10 x.toNat).length ≤ cnt.toNat ↔ x < thresh := by
      rw [Nat.length_toDigits_le_iff (by decide) hpos, BitVec.lt_def, hthresh]
    rw [fdBase10DigCntLoop]
    by_cases hstop : x < thresh
    · rw [if_pos hstop, ← Nat.le_antisymm hle (hdigits.2 hstop), BitVec.ofNat_toNat, BitVec.setWidth_eq]
    · rw [← hdigits] at hstop
      rw [if_neg (by rwa [← hdigits])]
      by_cases hmore : cnt + 1 < M
      · rw [BitVec.lt_def, hsucc] at hmore
        have hpow : 10 ^ (cnt.toNat + 1) < 2 ^ w :=
          Nat.lt_of_le_of_lt (Nat.pow_le_pow_right (by decide) (by omega)) hlow
        have hnext : (times10 thresh).toNat = 10 ^ (cnt.toNat + 1) := by
          rw [hexact thresh (by rwa [hthresh, ← Nat.pow_succ]), hthresh, ← Nat.pow_succ]
        dsimp only
        rw [if_pos (by rwa [BitVec.lt_def, hsucc])]
        exact ih _ _ (by omega) (by omega) (by omega) (by rw [hnext, hsucc]) (by omega)
      · -- the last count is that of the largest values of the type
        rw [BitVec.lt_def, hsucc] at hmore
        have hmost : (Nat.toDigits 10 x.toNat).length ≤ cnt.toNat + 1 := by
          rw [Nat.length_toDigits_le_iff (by decide) (Nat.succ_pos _)]
          refine Nat.lt_of_lt_of_le hx (Nat.le_trans hhigh (Nat.pow_le_pow_right (by decide) ?_))
          omega
        have heq : (Nat.toDigits 10 x.toNat).length = (cnt + 1).toNat := by omega
        dsimp only
        rw [if_neg (by rwa [BitVec.lt_def, hsucc]), heq, BitVec.ofNat_toNat, BitVec.setWidth_eq]

end Base10Aux

namespace Base10Aux

/-- The product of the source is exact in the range of every type. -/
theorem exactBelow_ulongTimes10 {w : Nat} (hw : w ≤ 64) : ExactBelow w ulongTimes10 := by
  intro thresh hlt
  have hle : 2 ^ w ≤ 2 ^ 64 := Nat.pow_le_pow_right (by decide) hw
  have hten : (10 : Ulong).toNat = 10 := rfl
  rw [ulongTimes10, BitVec.toNat_mul, hten, Nat.mod_eq_of_lt (by omega)]

/-- The function of the family for a type of `w` bits with at most `M` digits. -/
theorem digCntExact {w : Nat} {M : Ulong} (hw : w ≤ 64) (hM : 1 < M.toNat) (hlow : 10 ^ (M.toNat - 1) < 2 ^ w)
    (hhigh : 2 ^ w ≤ 10 ^ M.toNat) :
    DigCntExact M fun fuel (x : BitVec w) => fdTBase10DigCnt ulongTimes10 M fuel (x.setWidth 64) := by
  have hrun : ∀ fuel, M.toNat ≤ fuel → ∀ (x : BitVec w) times10, ExactBelow w times10 →
      fdTBase10DigCnt times10 M fuel (x.setWidth 64) = some (BitVec.ofNat 64 (Nat.toDigits 10 x.toNat).length) := by
    intro fuel hfuel x times10 hexact
    have hx : (x.setWidth 64).toNat = x.toNat := BitVec.toNat_setWidth_of_le hw
    have hloop := loop_spec hexact hlow hhigh (by rw [hx]; exact x.isLt) fuel 1 10 (by decide) hM (by omega) rfl
      Nat.length_toDigits_pos
    rw [hx] at hloop
    exact hloop
  have hlength : ∀ x : BitVec w, (Nat.toDigits 10 x.toNat).length ≤ M.toNat := by
    intro x
    rw [Nat.length_toDigits_le_iff (by decide) (by omega)]
    exact Nat.lt_of_lt_of_le x.isLt hhigh
  constructor
  · intro fuel hfuel x
    refine ⟨_, hrun fuel hfuel x _ (exactBelow_ulongTimes10 hw), ?_⟩
    rw [BitVec.toNat_ofNat, Nat.mod_eq_of_lt (Nat.lt_of_le_of_lt (hlength x) M.isLt)]
  · intro fuel hfuel x times10 hexact
    rw [hrun fuel hfuel x times10 hexact, hrun fuel hfuel x _ (exactBelow_ulongTimes10 hw)]

end Base10Aux

open Base10Aux in
/-- Every function of the family ends with the number of decimal digits of its argument, up to the largest value of its type,
and no product above the range of the type is a part of that. -/
theorem base10_dig_cnt :
    DigCntExact 3 fdUcharBase10DigCnt ∧ DigCntExact 5 fdUshortBase10DigCnt ∧ DigCntExact 10 fdUintBase10DigCnt ∧
      DigCntExact 20 fdUlongBase10DigCnt := by
  have hulong : fdUlongBase10DigCnt = fun fuel x => fdTBase10DigCnt ulongTimes10 20 fuel (x.setWidth 64) := by
    funext fuel x
    rw [BitVec.setWidth_eq]
    rfl
  rw [hulong]
  refine ⟨digCntExact ?_ ?_ ?_ ?_, digCntExact ?_ ?_ ?_ ?_, digCntExact ?_ ?_ ?_ ?_, digCntExact ?_ ?_ ?_ ?_⟩ <;> decide

/-- The largest `ulong`, which is not compared to ten to the twentieth. -/
example : fdUlongBase10DigCnt 20 ulongMax = some 20 ∧ ulongTimes10 (10 ^ 19) < 10 ^ 19 := by
  decide

end VerifyFiredancer
