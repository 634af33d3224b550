import Mathlib.Algebra.Ring.Parity
import Mathlib.Data.Nat.BitIndices

/-!
# The lowest bit

A number and the one before it differ from the lowest bit of the number on downwards. So their `and` is the number without that bit,
and to do this again and again goes through the bits from the lowest one up.
-/

namespace LowBit

/-- A number without its lowest bit. -/
def pop (n : Nat) : Nat := n &&& (n - 1)

theorem pop_zero : pop 0 = 0 := rfl

theorem testBit_even (m i : Nat) : (2 * m).testBit (i + 1) = m.testBit i := by
  rw [Nat.testBit_succ, Nat.mul_div_cancel_left m (by decide)]

theorem testBit_odd (m i : Nat) : (2 * m + 1).testBit (i + 1) = m.testBit i := by
  rw [Nat.testBit_succ, Nat.mul_add_div (by decide)]
  rfl

/-- In an odd number that is the bit 0. -/
theorem pop_odd (m : Nat) : pop (2 * m + 1) = 2 * m := by
  apply Nat.eq_of_testBit_eq
  intro i
  cases i with
  | zero => simp [pop]
  | succ i => simp [pop, Nat.testBit_and, testBit_even, testBit_odd]

/-- In an even one it is above that. -/
theorem pop_even {m : Nat} (h : m ≠ 0) : pop (2 * m) = 2 * pop m := by
  have hsub : 2 * m - 1 = 2 * (m - 1) + 1 := by omega
  apply Nat.eq_of_testBit_eq
  intro i
  cases i with
  | zero => simp [pop]
  | succ i => simp [pop, hsub, Nat.testBit_and, testBit_even, testBit_odd]

theorem xor_odd (m : Nat) : (2 * m + 1) ^^^ (2 * m) = 1 := by
  apply Nat.eq_of_testBit_eq
  intro i
  cases i with
  | zero => simp
  | succ i =>
    rw [Nat.testBit_xor, testBit_odd, testBit_even, Bool.xor_self]
    exact (testBit_odd 0 i).trans (Nat.zero_testBit i) |>.symm

theorem xor_even (m n : Nat) : (2 * m) ^^^ (2 * n) = 2 * (m ^^^ n) := by
  apply Nat.eq_of_testBit_eq
  intro i
  cases i with
  | zero => simp
  | succ i => simp [Nat.testBit_xor, testBit_even]

/-- The bits of a number are its lowest one and then those without it. -/
theorem bitIndices_pop (n : Nat) (h : n ≠ 0) : ∃ t, n ^^^ pop n = 2 ^ t ∧ n.bitIndices = t :: (pop n).bitIndices := by
  induction n using Nat.strong_induction_on with
  | _ n ih =>
    obtain ⟨m, rfl | rfl⟩ := Nat.even_or_odd' n
    · have hm : m ≠ 0 := by omega
      obtain ⟨t, hxor, hbits⟩ := ih m (by omega) hm
      refine ⟨t + 1, ?_, ?_⟩
      · rw [pop_even hm, xor_even, hxor, Nat.pow_succ']
      · rw [pop_even hm, Nat.bitIndices_two_mul, Nat.bitIndices_two_mul, hbits, List.map_cons]
    · refine ⟨0, ?_, ?_⟩
      · rw [pop_odd, xor_odd]
        rfl
      · rw [pop_odd, Nat.bitIndices_two_mul_add_one, Nat.bitIndices_two_mul]

/-- Without its lowest bit a number has one bit less. -/
theorem bitIndices_pop_tail (n : Nat) : (pop n).bitIndices = n.bitIndices.tail := by
  by_cases h : n = 0
  · rw [h, pop_zero, Nat.bitIndices_zero]
    rfl
  · obtain ⟨t, _, hbits⟩ := bitIndices_pop n h
    rw [hbits]
    rfl

/-- A number without its lowest `i` bits. -/
theorem bitIndices_iterate (n i : Nat) : (pop^[i] n).bitIndices = n.bitIndices.drop i := by
  induction i with
  | zero => rfl
  | succ i ih => rw [Function.iterate_succ_apply', bitIndices_pop_tail, ih, List.tail_drop]

/-- A number without bits is zero. -/
theorem bitIndices_eq_nil {n : Nat} : n.bitIndices = [] ↔ n = 0 := by
  constructor
  · intro h
    by_contra hne
    obtain ⟨t, _, hbits⟩ := bitIndices_pop n hne
    rw [h] at hbits
    cases hbits
  · rintro rfl
    exact Nat.bitIndices_zero

/-- The lowest bit of what is left each time, until nothing is. -/
theorem lowest_iterate {n i : Nat} (h : i < n.bitIndices.length) :
    pop^[i] n ^^^ pop (pop^[i] n) = 2 ^ n.bitIndices[i] := by
  have hdrop := bitIndices_iterate n i
  have hne : pop^[i] n ≠ 0 := by
    intro hzero
    rw [hzero, Nat.bitIndices_zero] at hdrop
    have hlen := congrArg List.length hdrop
    rw [List.length_drop, List.length_nil] at hlen
    omega
  obtain ⟨t, hxor, hbits⟩ := bitIndices_pop _ hne
  rw [hdrop, List.drop_eq_getElem_cons h] at hbits
  rw [hxor, (List.cons.inj hbits).1]

/-- The number of ones below a width is the number of bits. -/
theorem countP_testBit {n w : Nat} (h : n < 2 ^ w) : (List.range w).countP n.testBit = n.bitIndices.length := by
  have hperm : ((List.range w).filter n.testBit).Perm n.bitIndices := by
    refine (List.perm_ext_iff_of_nodup (List.nodup_range.filter _) Nat.bitIndices_nodup).2 fun i => ?_
    rw [List.mem_filter, Nat.mem_bitIndices, List.mem_range]
    refine and_iff_right_of_imp fun hi => ?_
    exact (Nat.pow_lt_pow_iff_right (by decide)).1 (Nat.lt_of_le_of_lt (Nat.ge_two_pow_of_testBit hi) h)
  rw [List.countP_eq_length_filter, hperm.length_eq]

/-- The bits of a number are those below a place and those from there on. -/
theorem bitIndices_split (n k : Nat) : (n % 2 ^ k).bitIndices.length + (n / 2 ^ k).bitIndices.length = n.bitIndices.length := by
  have hlt : n < 2 ^ (k + n) := Nat.lt_of_lt_of_le n.lt_two_pow_self (Nat.pow_le_pow_right (by decide) (Nat.le_add_left n k))
  have hhigh : n / 2 ^ k < 2 ^ n := Nat.div_lt_of_lt_mul (by rw [← Nat.pow_add]; exact hlt)
  rw [← countP_testBit (Nat.mod_lt n (Nat.two_pow_pos k)), ← countP_testBit hhigh, ← countP_testBit hlt, List.range_add,
    List.countP_append, List.countP_map]
  refine congrArg₂ _ (List.countP_congr fun i hi => ?_) (List.countP_congr fun i _ => ?_)
  · simp [List.mem_range.1 hi]
  · rw [Function.comp_apply, Nat.testBit_div_two_pow, Nat.add_comm]

end LowBit
