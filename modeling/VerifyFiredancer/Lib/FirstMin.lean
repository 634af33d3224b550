import Mathlib.Data.List.Basic
import Mathlib.Order.Lattice

/-!
# Scanning for the first minimum

A scan goes through a list of values, some of them missing, with the least value so far and the index that set it; only a
strictly smaller value replaces it. What a scan leaves is the minimum of its bound and the values, and the first index at which
it stands, or no index when the bound itself is the minimum.
-/

namespace FirstMin

variable {α : Type*}

/-- The first place of `v` among the values. -/
structure FirstAt (xs : List (Option α)) (k : Nat) (v : α) : Prop where
  at_index : xs[k]? = some (some v)
  before : ∀ j < k, xs[j]? ≠ some (some v)

/-- The first place of a value is still the first behind another value. -/
theorem FirstAt.cons {xs : List (Option α)} {k : Nat} {v : α} (h : FirstAt xs k v) {x : Option α} (hx : x ≠ some v) :
    FirstAt (x :: xs) (k + 1) v := by
  refine ⟨h.at_index, fun j hj => ?_⟩
  cases j with
  | zero => simpa using hx
  | succ j => exact h.before j (Nat.lt_of_succ_lt_succ hj)

variable [LinearOrder α]

/-- One value of a scan, at index `i`. A missing value changes nothing. -/
def step (x : Option α) (i : Nat) (acc : α × Option Nat) : α × Option Nat :=
  match x with
  | none => acc
  | some v => if v < acc.1 then (v, some i) else acc

/-- A scan of the values from index `i` on. -/
def scan : List (Option α) → Nat → α × Option Nat → α × Option Nat
  | [], _, acc => acc
  | x :: xs, i, acc => scan xs (i + 1) (step x i acc)

/-- A step keeps the smaller one. -/
theorem step_fst (v : α) (i : Nat) (acc : α × Option Nat) : (step (some v) i acc).1 = min acc.1 v := by
  rcases lt_or_ge v acc.1 with hv | hv
  · have hstep : step (some v) i acc = (v, some i) := if_pos hv
    rw [hstep, min_eq_right (le_of_lt hv)]
  · have hstep : step (some v) i acc = acc := if_neg (not_lt_of_ge hv)
    rw [hstep, min_eq_left hv]

/-- A scan leaves the minimum. -/
theorem scan_fst (xs : List (Option α)) :
    ∀ (i : Nat) (acc : α × Option Nat), (scan xs i acc).1 = (xs.filterMap id).foldl min acc.1 := by
  induction xs with
  | nil => intro i acc; rfl
  | cons x xs ih =>
    intro i acc
    rw [scan, ih]
    cases x with
    | none => rfl
    | some v =>
      rw [step_fst]
      rfl

/-- A minimum is at most its bound. -/
theorem foldl_min_le (vs : List α) : ∀ a : α, vs.foldl min a ≤ a := by
  induction vs with
  | nil => intro a; exact le_refl a
  | cons v vs ih => intro a; exact le_trans (ih (min a v)) (min_le_left a v)

/-- A minimum is at most each of its values. -/
theorem foldl_min_le_of_mem {vs : List α} {v : α} (h : v ∈ vs) : ∀ a : α, vs.foldl min a ≤ v := by
  induction vs with
  | nil => exact absurd h List.not_mem_nil
  | cons w vs ih =>
    intro a
    rcases List.mem_cons.1 h with rfl | hmem
    · exact le_trans (foldl_min_le vs (min a v)) (min_le_right a v)
    · exact ih hmem (min a w)

theorem scan_fst_le (xs : List (Option α)) (i : Nat) (acc : α × Option Nat) : (scan xs i acc).1 ≤ acc.1 := by
  rw [scan_fst]
  exact foldl_min_le _ _

/-- A scan that lowers its bound leaves the first index of the minimum; one that does not leaves the index it had. -/
theorem scan_snd (xs : List (Option α)) :
    ∀ (i : Nat) (acc : α × Option Nat),
      ((scan xs i acc).1 < acc.1 → ∃ k, (scan xs i acc).2 = some (i + k) ∧ FirstAt xs k (scan xs i acc).1) ∧
      ((scan xs i acc).1 = acc.1 → (scan xs i acc).2 = acc.2) := by
  induction xs with
  | nil => intro i acc; exact ⟨fun h => absurd h (lt_irrefl _), fun _ => rfl⟩
  | cons x xs ih =>
    intro i acc
    rw [scan]
    obtain ⟨hlow, hkeep⟩ := ih (i + 1) (step x i acc)
    have hle := scan_fst_le xs (i + 1) (step x i acc)
    -- a later index, of a minimum below the head
    have hlater : (scan xs (i + 1) (step x i acc)).1 < (step x i acc).1 → x ≠ some (scan xs (i + 1) (step x i acc)).1 →
        ∃ k, (scan xs (i + 1) (step x i acc)).2 = some (i + k) ∧ FirstAt (x :: xs) k (scan xs (i + 1) (step x i acc)).1 := by
      intro hlt hne
      obtain ⟨k, hk, hfirst⟩ := hlow hlt
      exact ⟨k + 1, by rw [hk]; congr 1; omega, hfirst.cons hne⟩
    by_cases hx : ∃ v, x = some v ∧ v < acc.1
    · obtain ⟨v, rfl, hv⟩ := hx
      have hstep : step (some v) i acc = (v, some i) := if_pos hv
      rw [hstep] at hle hkeep hlater ⊢
      constructor
      · intro _
        rcases lt_or_eq_of_le hle with hlt | heq
        · exact hlater hlt fun e => absurd (Option.some.inj e) (ne_of_gt hlt)
        · exact ⟨0, hkeep heq, by rw [heq]; exact ⟨rfl, nofun⟩⟩
      · intro heq
        rw [heq] at hle
        exact absurd hv (not_lt_of_ge hle)
    · have hstep : step x i acc = acc := by
        cases x with
        | none => rfl
        | some v => exact if_neg fun hv => hx ⟨v, rfl, hv⟩
      rw [hstep] at hkeep hlater ⊢
      exact ⟨fun hlt => hlater hlt fun e => hx ⟨_, e, hlt⟩, hkeep⟩

/-- A scan of values that are compared through a strictly monotone function. -/
theorem scan_map {γ : Type*} [LinearOrder γ] {f : α → γ} (hf : StrictMono f) (xs : List (Option α)) :
    ∀ (i : Nat) (acc : α × Option Nat),
      scan (xs.map (Option.map f)) i (f acc.1, acc.2) = (f (scan xs i acc).1, (scan xs i acc).2) := by
  induction xs with
  | nil => intro i acc; rfl
  | cons x xs ih =>
    intro i acc
    have hstep : step (x.map f) i (f acc.1, acc.2) = (f (step x i acc).1, (step x i acc).2) := by
      cases x with
      | none => rfl
      | some v =>
        by_cases hv : v < acc.1
        · simp [step, hv, hf.lt_iff_lt]
        · simp [step, hv, hf.lt_iff_lt]
    rw [List.map_cons, scan, scan, hstep, ih]

end FirstMin
