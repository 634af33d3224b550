import Mathlib.Data.List.Induction
import Mathlib.Logic.Function.Basic

/-!
# Cells written one after the other

The `n`-th write of a sequence puts a value into the cell `key n`. After `n` writes a cell holds what its newest write put there
(`read_newest`), or what it held at first when no write came to it (`read_unwritten`). Where the writes are made for the items of
a list, and some items write nothing, a cell holds what the last item that writes to it says (`foldl_write`).
-/

namespace LastWrite

variable {K V : Type*}

/-- `m` is the newest of the first `n` writes that came to the cell `k`. -/
structure Newest (key : Nat → K) (n : Nat) (k : K) (m : Nat) : Prop where
  lt : m < n
  key_eq : key m = k
  last : ∀ l, m < l → l < n → key l ≠ k

/-- None of the first `n` writes came to the cell `k`. -/
def Unwritten (key : Nat → K) (n : Nat) (k : K) : Prop := ∀ m, m < n → key m ≠ k

variable {key : Nat → K} {n m : Nat} {k : K}

/-- A write to a cell is its newest. -/
theorem Newest.here (h : key n = k) : Newest key (n + 1) k n :=
  ⟨Nat.lt_succ_self n, h, fun l hl hl' => absurd hl (by omega)⟩

/-- A write to another cell changes nothing of that. -/
theorem Newest.mono (h : Newest key n k m) (hne : key n ≠ k) : Newest key (n + 1) k m := by
  refine ⟨Nat.lt_succ_of_lt h.lt, h.key_eq, fun l hl hl' => ?_⟩
  rcases Nat.lt_succ_iff_lt_or_eq.1 hl' with hlt | rfl
  · exact h.last l hl hlt
  · exact hne

theorem Unwritten.mono (h : Unwritten key n k) (hne : key n ≠ k) : Unwritten key (n + 1) k := by
  intro m hm
  rcases Nat.lt_succ_iff_lt_or_eq.1 hm with hlt | rfl
  · exact h m hlt
  · exact hne

/-- A cell was written or not. -/
theorem newest_or_unwritten [DecidableEq K] (key : Nat → K) (k : K) (n : Nat) :
    (∃ m, Newest key n k m) ∨ Unwritten key n k := by
  induction n with
  | zero => exact Or.inr fun m hm => absurd hm (Nat.not_lt_zero m)
  | succ n ih =>
    by_cases h : key n = k
    · exact Or.inl ⟨n, Newest.here h⟩
    · rcases ih with ⟨m, hm⟩ | hun
      · exact Or.inl ⟨m, hm.mono h⟩
      · exact Or.inr (hun.mono h)

/-- A write to the cell is at most as new as the newest. -/
theorem Newest.le_of_key (h : Newest key n k m) {l : Nat} (hl : l < n) (hk : key l = k) : l ≤ m := by
  by_contra hlt
  exact h.last l (Nat.lt_of_not_le hlt) hl hk

section Cells

variable [DecidableEq K] {cells : Nat → K → V} {val : Nat → V}

/-- A cell no write came to is as it was. -/
theorem read_unwritten (hstep : ∀ n, cells (n + 1) = Function.update (cells n) (key n) (val n)) :
    ∀ n, Unwritten key n k → cells n k = cells 0 k := by
  intro n
  induction n with
  | zero => intro _; rfl
  | succ n ih =>
    intro h
    rw [hstep, Function.update_of_ne (Ne.symm (h n (Nat.lt_succ_self n))), ih fun m hm => h m (Nat.lt_succ_of_lt hm)]

/-- A cell holds what its newest write put there. -/
theorem read_newest (hstep : ∀ n, cells (n + 1) = Function.update (cells n) (key n) (val n)) :
    ∀ n, Newest key n k m → cells n k = val m := by
  intro n
  induction n with
  | zero => intro h; exact absurd h.lt (Nat.not_lt_zero m)
  | succ n ih =>
    intro h
    rw [hstep]
    rcases Nat.lt_succ_iff_lt_or_eq.1 h.lt with hlt | rfl
    · rw [Function.update_of_ne (Ne.symm (h.last n hlt (Nat.lt_succ_self n)))]
      exact ih ⟨hlt, h.key_eq, fun l hl hl' => h.last l hl (Nat.lt_succ_of_lt hl')⟩
    · rw [← h.key_eq, Function.update_self]

end Cells

section Items

variable [DecidableEq K] {X : Type*}

/-- The cells after an item: it writes its value when it has a key. -/
def write (key : X → Option K) (val : X → V) (cells : K → V) (x : X) : K → V :=
  (key x).elim cells fun k => Function.update cells k (val x)

theorem write_apply (key : X → Option K) (val : X → V) (cells : K → V) (x : X) (k : K) :
    write key val cells x k = if key x = some k then val x else cells k := by
  rw [write]
  cases hkey : key x with
  | none => rw [Option.elim_none, if_neg nofun]
  | some k' =>
    rw [Option.elim_some, Function.update_apply]
    exact if_congr (by rw [Option.some.injEq, eq_comm]) rfl rfl

/-- A cell holds what the last item that writes to it says, or what it held at first. -/
theorem foldl_write (key : X → Option K) (val : X → V) (items : List X) (cells : K → V) (k : K) :
    items.foldl (write key val) cells k = ((items.filter (key · = some k)).getLast?.map val).getD (cells k) := by
  induction items using List.reverseRecOn with
  | nil => rfl
  | append_singleton items x ih =>
    rw [List.foldl_append, List.foldl_cons, List.foldl_nil, write_apply, List.filter_append]
    by_cases h : key x = some k
    · simp [h]
    · simp [h, ih]

end Items

end LastWrite
