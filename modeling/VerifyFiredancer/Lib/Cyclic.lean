import Mathlib.Data.Nat.ModEq
import Mathlib.Tactic.SplitIfs

/-!
# Cyclic indices

The indices below `n`, the first of which follows the last: `next` goes one forward, `ahead` counts how many there are from one
forward to another.
-/

namespace Cyclic

/-- The slot after `i`, around. -/
def next (n i : Nat) : Nat := if i + 1 = n then 0 else i + 1

/-- How many slots lie from `i` forward to `j`, around. -/
def ahead (n i j : Nat) : Nat := if i ≤ j then j - i else n + j - i

section Dist

variable {n i j k z : Nat}

theorem next_lt (hi : i < n) : next n i < n := by
  unfold next
  split <;> omega

theorem ahead_lt (hi : i < n) (hj : j < n) : ahead n i j < n := by
  unfold ahead
  split <;> omega

@[simp] theorem ahead_self (n i : Nat) : ahead n i i = 0 := by
  simp [ahead]

theorem ahead_pos (hi : i < n) (hne : i ≠ j) : 0 < ahead n i j := by
  unfold ahead
  split <;> omega

/-- A distance from a slot names the slot. -/
theorem ahead_inj (hi : i < n) (hj : j < n) (hk : k < n) (h : ahead n i j = ahead n i k) : j = k := by
  unfold ahead at h
  split at h <;> split at h <;> omega

/-- A step brings every other slot one nearer. -/
theorem ahead_next_left (hi : i < n) (hz : z < n) (hne : i ≠ z) : ahead n (next n i) z + 1 = ahead n i z := by
  unfold ahead next
  split_ifs <;> omega

/-- The slot before a slot is the farthest from it. -/
theorem ahead_of_next_eq (hj : j < n) (h : next n j = i) : ahead n i j + 1 = n := by
  subst h
  unfold ahead next
  split_ifs <;> omega

/-- The slot after `j` is one farther, unless it is the start again. -/
theorem ahead_next_right (hi : i < n) (hne : next n j ≠ i) : ahead n i (next n j) = ahead n i j + 1 := by
  unfold next at hne
  unfold ahead next
  split_ifs at hne ⊢ <;> omega

/-- A slot passed on the way to the next of `j` is passed on the way to `j`, or is `j`. -/
theorem lt_ahead_next (hi : i < n) (hj : j < n) (hk : k < n) (h : ahead n i k < ahead n i (next n j)) :
    ahead n i k < ahead n i j ∨ k = j := by
  unfold ahead next at *
  split_ifs at * <;> omega

/-- A slot between the hole and another one, seen from a start before the hole. -/
theorem ahead_between {h s : Nat} (hi : i < n) (hh : h < n) (hs : s < n) (hk : k < n) (h1 : ahead n i h < ahead n i k)
    (h2 : ahead n h s < ahead n h k) : ahead n i s < ahead n i k := by
  unfold ahead at *
  split_ifs at * <;> omega

end Dist

/-- One forward, of a remainder. -/
theorem next_mod (n k : Nat) (h : 0 < n) : next n (k % n) = (k + 1) % n := by
  have hlt := Nat.mod_lt k h
  rw [next, Nat.add_mod k 1 n]
  split
  · next he =>
    rcases Nat.lt_or_ge 1 n with h1 | h1
    · rw [Nat.mod_eq_of_lt h1, he, Nat.mod_self]
    · have hone : n = 1 := by omega
      rw [hone, Nat.mod_one]
  · next he =>
    have hlt1 : k % n + 1 < n := by omega
    rw [Nat.mod_eq_of_lt (by omega : 1 < n), Nat.mod_eq_of_lt hlt1]

/-- Numbers fewer than `n` apart have one remainder only when they are equal. -/
theorem eq_of_mod_eq {n k l : Nat} (h : k % n = l % n) (h1 : k < l + n) (h2 : l < k + n) : k = l := by
  rcases Nat.le_total k l with hle | hle
  · have hd : n ∣ l - k := (Nat.modEq_iff_dvd' hle).1 h
    have := Nat.eq_zero_of_dvd_of_lt hd (by omega)
    omega
  · have hd : n ∣ k - l := (Nat.modEq_iff_dvd' hle).1 h.symm
    have := Nat.eq_zero_of_dvd_of_lt hd (by omega)
    omega

end Cyclic
