import Mathlib.Algebra.Order.Ring.Nat
import Mathlib.Tactic.Common

/-!
# A ring that holds a window of a stream

A ring of `size` cells holds the part of a stream from `lo`, what was consumed, to `hi`, what was produced: the item at `p` is in
the cell `p % size`. Producing and consuming move the two ends, and what is read in aligned blocks is in adjacent cells.
-/

namespace RingWindow

variable {α : Type*}

/-- The ring holds the stream from `lo` to `hi`. -/
structure Window (size : Nat) (stream ring : Nat → α) (lo hi : Nat) : Prop where
  le : lo ≤ hi
  room : hi ≤ lo + size
  unread : ∀ p, lo ≤ p → p < hi → ring (p % size) = stream p

variable {size lo hi : Nat} {stream ring ring' : Nat → α}

/-- An empty window is in any ring. -/
theorem Window.empty (size lo : Nat) (stream ring : Nat → α) : Window size stream ring lo lo :=
  ⟨Nat.le_refl lo, Nat.le_add_right lo size, fun _ hp hp' => absurd hp' (Nat.not_lt.2 hp)⟩

/-- To consume `n` items. -/
theorem Window.consume (h : Window size stream ring lo hi) {n : Nat} (hn : lo + n ≤ hi) : Window size stream ring (lo + n) hi where
  le := hn
  room := by
    have := h.room
    omega
  unread := fun p hp hp' => h.unread p (by omega) hp'

/-- To produce `n` items, for which there is room, without touching the others. -/
theorem Window.produce (h : Window size stream ring lo hi) {n : Nat} (hn : hi + n ≤ lo + size)
    (hnew : ∀ j, j < n → ring' ((hi + j) % size) = stream (hi + j))
    (hold : ∀ p, lo ≤ p → p < hi → ring' (p % size) = ring (p % size)) : Window size stream ring' lo (hi + n) where
  le := Nat.le_trans h.le (Nat.le_add_right hi n)
  room := hn
  unread := by
    intro p hp hp'
    rcases Nat.lt_or_ge p hi with hlt | hge
    · rw [hold p hp hlt, h.unread p hp hlt]
    · obtain ⟨j, rfl⟩ := Nat.exists_eq_add_of_le hge
      exact hnew j (by omega)

/-- An aligned block does not straddle the end of the ring. -/
theorem add_mod_of_dvd {k : Nat} (hsize : k ∣ size) (hlo : k ∣ lo) (hpos : 0 < size) {j : Nat} (hj : j < k) :
    (lo + j) % size = lo % size + j := by
  have hrem : k ∣ lo % size := (Nat.dvd_mod_iff hsize).2 hlo
  have hlt : lo % size < size := Nat.mod_lt lo hpos
  -- the next multiple of `k` after the start of the block is at most the size
  have hend : lo % size + k ≤ size := by
    obtain ⟨a, ha⟩ := hrem
    obtain ⟨b, hb⟩ := hsize
    rw [ha, hb] at hlt ⊢
    have hab : a + 1 ≤ b := Nat.lt_of_mul_lt_mul_left hlt
    calc k * a + k = k * (a + 1) := (Nat.mul_succ k a).symm
      _ ≤ k * b := Nat.mul_le_mul_left k hab
  rw [← Nat.mod_add_mod, Nat.mod_eq_of_lt (by omega)]

/-- An aligned block of the window is in adjacent cells. -/
theorem Window.block (h : Window size stream ring lo hi) {k : Nat} (hsize : k ∣ size) (hlo : k ∣ lo) (hpos : 0 < size)
    (hk : lo + k ≤ hi) {j : Nat} (hj : j < k) : ring (lo % size + j) = stream (lo + j) := by
  rw [← add_mod_of_dvd hsize hlo hpos hj]
  exact h.unread (lo + j) (by omega) (by omega)

end RingWindow
