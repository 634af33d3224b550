import Mathlib.Algebra.Order.Ring.Nat
import Mathlib.Data.Nat.Size
import Mathlib.Order.Bounds.Basic
import Mathlib.Tactic.Common

/-!
# Smearing bits to the right

A word with itself shifted right by 1, 2, 4 and so on added by `or` has all bits below its highest one. Each step widens the
window of bits above it that a bit looks at (`Looks`), by its shift; it leaves none of them out when the shift is no wider than
the window was (`Looks.step`). So a cascade of shifts without a gap looks at as many bits as they sum up to, and one more
(`looks_smear`), and a word that has no more bits becomes one less than the least power of two above it (`toNat_smear`). From
this a number is rounded up or down to a power of two (`isLeast_two_pow_size`, `isGreatest_two_pow_size`).
-/

namespace Smear

variable {w : Nat}

/-- The cascade of the steps `x |= x >> n`. -/
def smear (x : BitVec w) (shifts : List Nat) : BitVec w := shifts.foldl (fun x n => x ||| x >>> n) x

/-- A bit of `y` says whether `x` has one of the `n` bits from it up. -/
def Looks (x y : BitVec w) (n : Nat) : Prop := ∀ i, y.getLsbD i = true ↔ ∃ j < n, x.getLsbD (i + j) = true

/-- No shift is wider than the window of those before it, which starts with `n` bits. -/
def Gapless : Nat → List Nat → Prop
  | _, [] => True
  | n, s :: shifts => s ≤ n ∧ Gapless (n + s) shifts

instance decidableGapless : ∀ (n : Nat) (shifts : List Nat), Decidable (Gapless n shifts)
  | _, [] => .isTrue trivial
  | n, s :: shifts => @instDecidableAnd _ _ (Nat.decLe s n) (decidableGapless (n + s) shifts)

variable {x y : BitVec w} {n s : Nat}

/-- A word looks at its own bits. -/
theorem Looks.refl (x : BitVec w) : Looks x x 1 := by
  intro i
  constructor
  · exact fun h => ⟨0, Nat.one_pos, h⟩
  · rintro ⟨j, hj, h⟩
    obtain rfl := Nat.lt_one_iff.1 hj
    exact h

/-- A step widens the window by its shift: the two windows meet. -/
theorem Looks.step (h : Looks x y n) (hs : s ≤ n) : Looks x (y ||| y >>> s) (n + s) := by
  intro i
  rw [BitVec.getLsbD_or, BitVec.getLsbD_ushiftRight, Bool.or_eq_true, h i, h (s + i)]
  constructor
  · rintro (⟨j, hj, hbit⟩ | ⟨j, hj, hbit⟩)
    · exact ⟨j, by omega, hbit⟩
    · refine ⟨s + j, by omega, ?_⟩
      have hadd : i + (s + j) = s + i + j := by omega
      rw [hadd]
      exact hbit
  · rintro ⟨j, hj, hbit⟩
    rcases Nat.lt_or_ge j n with hlt | hge
    · exact Or.inl ⟨j, hlt, hbit⟩
    · refine Or.inr ⟨j - s, by omega, ?_⟩
      have hadd : s + i + (j - s) = i + j := by omega
      rw [hadd]
      exact hbit

/-- The run of a cascade. -/
theorem Looks.smear {shifts : List Nat} (h : Looks x y n) (hgap : Gapless n shifts) :
    Looks x (smear y shifts) (n + shifts.sum) := by
  induction shifts generalizing y n with
  | nil => exact h
  | cons s shifts ih =>
    rw [List.sum_cons, ← Nat.add_assoc]
    exact ih (h.step hgap.1) hgap.2

theorem looks_smear {shifts : List Nat} (x : BitVec w) (hgap : Gapless 1 shifts) : Looks x (smear x shifts) (1 + shifts.sum) :=
  (Looks.refl x).smear hgap

/-- A word with all bits keeps them. -/
theorem smear_allOnes (shifts : List Nat) : smear (BitVec.allOnes w) shifts = BitVec.allOnes w := by
  induction shifts with
  | nil => rfl
  | cons s shifts ih =>
    rw [smear, List.foldl_cons, BitVec.allOnes_or]
    exact ih

/-- A bit that looks at all bits above it is one exactly when it is not above the highest. -/
theorem Looks.getLsbD_iff (h : Looks x y n) (hx : x.toNat < 2 ^ n) (i : Nat) : y.getLsbD i = true ↔ i < x.toNat.size := by
  rw [h i, Nat.lt_size]
  constructor
  · rintro ⟨j, _, hbit⟩
    exact Nat.le_trans (Nat.pow_le_pow_right (by decide) (Nat.le_add_right i j)) (Nat.ge_two_pow_of_testBit hbit)
  · intro hle
    obtain ⟨k, hk, hbit⟩ := Nat.exists_ge_and_testBit_of_ge_two_pow hle
    have hlt : k < n := by
      have hpow := Nat.lt_of_le_of_lt (Nat.ge_two_pow_of_testBit hbit) hx
      exact (Nat.pow_lt_pow_iff_right (by decide)).1 hpow
    refine ⟨k - i, by omega, ?_⟩
    rw [Nat.add_sub_cancel' hk]
    exact hbit

/-- The cascade makes one less than a power of two of a word that it looks at as a whole. -/
theorem toNat_smear {shifts : List Nat} (hgap : Gapless 1 shifts) (hx : x.toNat < 2 ^ (1 + shifts.sum)) :
    (smear x shifts).toNat = 2 ^ x.toNat.size - 1 := by
  refine Nat.eq_of_testBit_eq fun i => ?_
  rw [Nat.testBit_two_pow_sub_one, Bool.eq_iff_iff, decide_eq_true_eq]
  exact (looks_smear x hgap).getLsbD_iff hx i

/-- One more is the power of two, or zero where that is out of range. -/
theorem toNat_smear_add_one {shifts : List Nat} (hgap : Gapless 1 shifts) (hx : x.toNat < 2 ^ (1 + shifts.sum)) :
    (smear x shifts + 1).toNat = 2 ^ x.toNat.size % 2 ^ w := by
  have hone : (1 : BitVec w).toNat = 1 % 2 ^ w := rfl
  rw [BitVec.toNat_add, toNat_smear hgap hx, hone, Nat.add_mod_mod, Nat.sub_add_cancel (Nat.two_pow_pos _)]

/-! ## The power of two -/

/-- The number of bits of the number before gives the least power of two that is not below. -/
theorem isLeast_two_pow_size (hn : 0 < n) : IsLeast {p | (∃ k, p = 2 ^ k) ∧ n ≤ p} (2 ^ (n - 1).size) := by
  refine ⟨⟨⟨_, rfl⟩, ?_⟩, ?_⟩
  · have hlt := Nat.lt_size_self (n - 1)
    omega
  · rintro _ ⟨⟨k, rfl⟩, hle⟩
    exact Nat.pow_le_pow_right (by decide) (Nat.size_le.2 (by omega))

/-- The number of bits of the half gives the greatest power of two that is not above. -/
theorem isGreatest_two_pow_size (hn : 0 < n) : IsGreatest {p | (∃ k, p = 2 ^ k) ∧ p ≤ n} (2 ^ (n / 2).size) := by
  refine ⟨⟨⟨_, rfl⟩, ?_⟩, ?_⟩
  · cases hsize : (n / 2).size with
    | zero => exact hn
    | succ m =>
      have hle : 2 ^ m ≤ n / 2 := Nat.lt_size.1 (by rw [hsize]; exact Nat.lt_succ_self m)
      rw [Nat.pow_succ]
      omega
  · rintro _ ⟨⟨k, rfl⟩, hle⟩
    refine Nat.pow_le_pow_right (by decide) ?_
    cases k with
    | zero => exact Nat.zero_le _
    | succ m =>
      rw [Nat.pow_succ] at hle
      exact Nat.lt_size.2 (by omega)

end Smear
