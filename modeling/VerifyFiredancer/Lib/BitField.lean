import Mathlib.Tactic.Common

/-!
# Fields of a row of cells

A field is a range of cells, the `n` cells from `l` on. Reading one gives its cells from 0 on and `zero` above (`get`), writing
one changes its cells only (`put`). Reading and writing one field are a lens (`get_put`, `put_get`, `put_put`), and writes to
fields that are apart commute (`put_comm`).
-/

namespace BitField

variable {β : Type*}

/-- The cells of a field. -/
def get (zero : β) (l n : Nat) (x : Nat → β) (i : Nat) : β := if i < n then x (l + i) else zero

/-- The cells after a write to a field. -/
def put (l n : Nat) (x y : Nat → β) (i : Nat) : β := if l ≤ i ∧ i < l + n then y (i - l) else x i

variable {zero : β} {l n : Nat} {x y y' : Nat → β}

/-- What was written is read, when it fits into the field. -/
theorem get_put (hy : ∀ i, n ≤ i → y i = zero) : get zero l n (put l n x y) = y := by
  funext i
  rw [get, put]
  split_ifs with hi hin
  · rw [Nat.add_sub_cancel_left]
  · exact absurd ⟨Nat.le_add_right l i, Nat.add_lt_add_left hi l⟩ hin
  · exact (hy i (Nat.le_of_not_lt hi)).symm

/-- Writing what was read changes nothing. -/
theorem put_get : put l n x (get zero l n x) = x := by
  funext i
  rw [put, get]
  split_ifs with hin hi
  · rw [Nat.add_sub_cancel' hin.1]
  · exact absurd (Nat.sub_lt_left_of_lt_add hin.1 hin.2) hi
  · rfl

/-- Of two writes the second counts. -/
theorem put_put : put l n (put l n x y) y' = put l n x y' := by
  funext i
  rw [put, put, put]
  split_ifs <;> rfl

/-- Writes to fields that are apart commute. -/
theorem put_comm {l' n' : Nat} (h : l + n ≤ l' ∨ l' + n' ≤ l) :
    put l' n' (put l n x y) y' = put l n (put l' n' x y') y := by
  funext i
  simp only [put]
  by_cases hin : l ≤ i ∧ i < l + n
  · have hout : ¬(l' ≤ i ∧ i < l' + n') := by omega
    rw [if_neg hout, if_pos hin, if_pos hin]
  · rw [if_neg hin, if_neg hin]

end BitField
