import Mathlib.Algebra.BigOperators.Group.Finset.Basic
import Mathlib.Algebra.Order.BigOperators.Group.Finset
import Mathlib.Data.Set.Card
import Mathlib.Order.Interval.Finset.Nat

/-!
# Unbiased numbers by rejection

A draw `v` of `[0,N)` is mapped to `[0,n)` by the quotient `v * n / N`, and accepted when the remainder is below a zone. With a
zone of `k * n`, where `k * n ≤ N`, the draws accepted for a number `r` are those whose multiple of `n` falls into an interval of
length `k * n`, which are `k` in a row (`mem_fiber_iff`): every number has the same count (`card_fiber`).
-/

namespace Rejection

/-- The accepted draws. -/
def accepted (N n z : Nat) : Finset Nat := (Finset.range N).filter fun v => v * n % N < z

/-- The accepted draws that are mapped to `r`. -/
def fiber (N n z r : Nat) : Finset Nat := (accepted N n z).filter fun v => v * n / N = r

theorem mem_accepted {N n z v : Nat} : v ∈ accepted N n z ↔ v < N ∧ v * n % N < z := by
  rw [accepted, Finset.mem_filter, Finset.mem_range]

theorem mem_fiber {N n z r v : Nat} : v ∈ fiber N n z r ↔ v < N ∧ v * n % N < z ∧ v * n / N = r := by
  rw [fiber, Finset.mem_filter, mem_accepted, and_assoc]

/-- The draws accepted for `r` are those whose multiples of `n` are in an interval. -/
theorem mem_fiber_iff_mul {N n k r : Nat} (hk : k * n ≤ N) (hr : r < n) (v : Nat) :
    v ∈ fiber N n (k * n) r ↔ r * N ≤ v * n ∧ v * n < r * N + k * n := by
  rw [mem_fiber]
  constructor
  · rintro ⟨_, hmod, rfl⟩
    have hsplit := Nat.div_add_mod' (v * n) N
    omega
  · rintro ⟨hlo, hhi⟩
    have hN : 0 < N := Nat.pos_of_ne_zero fun h => by
      rw [h] at hlo hhi hk
      omega
    have hnext : r * N + N = (r + 1) * N := (Nat.succ_mul r N).symm
    have hdiv : v * n / N = r := by
      rw [Nat.div_eq_iff hN]
      omega
    have hsplit := Nat.div_add_mod' (v * n) N
    rw [hdiv] at hsplit
    refine ⟨?_, by omega, hdiv⟩
    have hlt : v * n < N * n :=
      calc v * n < (r + 1) * N := by omega
        _ ≤ n * N := Nat.mul_le_mul_right N hr
        _ = N * n := Nat.mul_comm n N
    exact Nat.lt_of_mul_lt_mul_right hlt

/-- The least number whose multiple of `n` is at least `a`. -/
def ceil (n a : Nat) : Nat := (a + (n - 1)) / n

section Zone

variable {N n k : Nat} (hn : 0 < n)
include hn

theorem ceil_le_iff (a v : Nat) : ceil n a ≤ v ↔ a ≤ v * n := by
  rw [ceil, ← Nat.lt_succ_iff, Nat.div_lt_iff_lt_mul hn, Nat.succ_mul]
  omega

/-- The `k`-th number from there on is the least whose multiple is `k * n` more. -/
theorem ceil_add_le_iff (a v : Nat) : ceil n a + k ≤ v ↔ a + k * n ≤ v * n := by
  constructor
  · intro h
    have h1 := (ceil_le_iff hn a (v - k)).1 (by omega)
    have h2 : v = v - k + k := by omega
    rw [h2, Nat.add_mul]
    omega
  · intro h
    have hkv : k ≤ v := Nat.le_of_mul_le_mul_right (Nat.le_trans (Nat.le_add_left _ _) h) hn
    have h1 := (ceil_le_iff hn a (v - k)).2 (by rw [Nat.sub_mul]; omega)
    omega

variable (hk : k * n ≤ N)
include hk

/-- They are `k` in a row. -/
theorem fiber_eq_Ico {r : Nat} (hr : r < n) :
    fiber N n (k * n) r = Finset.Ico (ceil n (r * N)) (ceil n (r * N) + k) := by
  ext v
  rw [mem_fiber_iff_mul hk hr, Finset.mem_Ico, ceil_le_iff hn, ← Nat.not_le (a := ceil n (r * N) + k), ceil_add_le_iff hn,
    Nat.not_le]

/-- Every number has `k` draws that are accepted for it. -/
theorem card_fiber {r : Nat} (hr : r < n) : (fiber N n (k * n) r).card = k := by
  rw [fiber_eq_Ico hn hk hr, Nat.card_Ico, Nat.add_sub_cancel_left]

/-- So `n * k` draws are accepted. -/
theorem card_accepted : (accepted N n (k * n)).card = n * k := by
  have hmaps : ∀ v ∈ accepted N n (k * n), v * n / N ∈ Finset.range n := by
    intro v hv
    have hvN := (mem_accepted.1 hv).1
    rw [Finset.mem_range, Nat.div_lt_iff_lt_mul (by omega), Nat.mul_comm n N]
    exact Nat.mul_lt_mul_of_pos_right hvN hn
  have hsum : (accepted N n (k * n)).card = ∑ r ∈ Finset.range n, (fiber N n (k * n) r).card :=
    Finset.card_eq_sum_card_fiberwise hmaps
  rw [hsum, Finset.sum_const_nat fun r hr => card_fiber hn hk (Finset.mem_range.1 hr), Finset.card_range]

end Zone

/-! ## Machine words as draws -/

/-- Words are counted as the numbers they are. -/
theorem ncard_toNat {w : Nat} {s : Finset Nat} (P : BitVec w → Prop) (hs : ∀ x ∈ s, x < 2 ^ w)
    (h : ∀ v : BitVec w, P v ↔ v.toNat ∈ s) : {v | P v}.ncard = s.card := by
  have himage : BitVec.toNat '' {v | P v} = (s : Set Nat) := by
    ext x
    constructor
    · rintro ⟨v, hv, rfl⟩
      exact (h v).1 hv
    · intro hx
      have hval : (BitVec.ofNat w x).toNat = x := by rw [BitVec.toNat_ofNat, Nat.mod_eq_of_lt (hs x hx)]
      exact ⟨BitVec.ofNat w x, (h _).2 (by rw [hval]; exact hx), hval⟩
  rw [← Set.ncard_coe_finset, ← himage, Set.ncard_image_of_injective _ fun _ _ => BitVec.eq_of_toNat_eq]

end Rejection
