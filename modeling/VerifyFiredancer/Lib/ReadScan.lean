import Mathlib.Tactic.Common

/-!
# Computations that read a memory, and scans

A computation of `Rd` has a result that depends on a memory, and a log of the addresses it read. A scan runs a body for one index
after the other up to the first that ends it with a result. The rules say at which index a scan ends and what it reads, that a
scan in two parts is one scan, and that the indices a guard leaves out are no part of it.
-/

namespace ReadScan

/-- A computation that reads a memory: its result, and the addresses it read, in order. -/
def Rd (β α : Type) : Type := (Nat → β) → α × List Nat

variable {β α γ : Type}

/-- The result, and what was read. -/
def Rd.result (c : Rd β α) (m : Nat → β) : α := (c m).1
def Rd.reads (c : Rd β α) (m : Nat → β) : List Nat := (c m).2

instance : Monad (Rd β) where
  pure a := fun _ => (a, [])
  bind c f := fun m => ((f (c m).1 m).1, (c m).2 ++ (f (c m).1 m).2)

/-- The item at an address. -/
def read (a : Nat) : Rd β β := fun m => (m a, [a])

@[simp] theorem result_pure (a : α) (m : Nat → β) : (pure a : Rd β α).result m = a := rfl

@[simp] theorem reads_pure (a : α) (m : Nat → β) : (pure a : Rd β α).reads m = [] := rfl

@[simp] theorem result_read (a : Nat) (m : Nat → β) : (read a : Rd β β).result m = m a := rfl

@[simp] theorem reads_read (a : Nat) (m : Nat → β) : (read a : Rd β β).reads m = [a] := rfl

@[simp] theorem result_bind (c : Rd β α) (f : α → Rd β γ) (m : Nat → β) :
    (c >>= f).result m = (f (c.result m)).result m := rfl

@[simp] theorem reads_bind (c : Rd β α) (f : α → Rd β γ) (m : Nat → β) :
    (c >>= f).reads m = c.reads m ++ (f (c.result m)).reads m := rfl

/-- Computations are the same that have the same result and the same reads. -/
theorem Rd.ext {c d : Rd β α} (hr : ∀ m, c.result m = d.result m) (hl : ∀ m, c.reads m = d.reads m) : c = d := by
  funext m
  exact Prod.ext (hr m) (hl m)

/-- To go on with `d` where `c` ended without a result. -/
def orElse (c d : Rd β (Option α)) : Rd β (Option α) := do
  match ← c with
  | some r => return some r
  | none => d

/-- The body for the `k` indices from `i` on, up to the first that ends the scan. -/
def scan (body : Nat → Rd β (Option α)) : Nat → Nat → Rd β (Option α)
  | 0, _ => pure none
  | k + 1, i => orElse (body i) (scan body k (i + 1))

/-! ## One after the other -/

@[simp] theorem result_orElse (c d : Rd β (Option α)) (m : Nat → β) :
    (orElse c d).result m = (c.result m).or (d.result m) := by
  rw [orElse, result_bind]
  cases c.result m <;> rfl

@[simp] theorem reads_orElse (c d : Rd β (Option α)) (m : Nat → β) :
    (orElse c d).reads m = c.reads m ++ if c.result m = none then d.reads m else [] := by
  rw [orElse, reads_bind]
  cases c.result m <;> rfl

theorem orElse_assoc (c d e : Rd β (Option α)) : orElse (orElse c d) e = orElse c (orElse d e) := by
  refine Rd.ext (fun m => ?_) fun m => ?_
  · simp [Option.or_assoc]
  · cases hc : c.result m <;> simp [hc]

theorem pure_none_orElse (d : Rd β (Option α)) : orElse (pure none) d = d :=
  Rd.ext (fun _ => by simp) fun _ => by simp

theorem orElse_pure_none (c : Rd β (Option α)) : orElse c (pure none) = c :=
  Rd.ext (fun _ => by simp) fun _ => by simp

/-- A scan in two parts. -/
theorem scan_add (body : Nat → Rd β (Option α)) (k l i : Nat) :
    scan body (k + l) i = orElse (scan body k i) (scan body l (i + k)) := by
  induction k generalizing i with
  | zero => rw [Nat.zero_add, scan, pure_none_orElse, Nat.add_zero]
  | succ k ih =>
    rw [Nat.add_right_comm, scan, scan, ih, orElse_assoc, Nat.add_assoc i 1 k, Nat.add_comm 1 k]

/-- Scans with bodies that are the same at the indices of the scan. -/
theorem scan_congr {body body' : Nat → Rd β (Option α)} {k i : Nat} (h : ∀ j, i ≤ j → j < i + k → body j = body' j) :
    scan body k i = scan body' k i := by
  induction k generalizing i with
  | zero => rfl
  | succ k ih =>
    rw [scan, scan, h i (Nat.le_refl i) (by omega), ih fun j hj hj' => h j (by omega) (by omega)]

/-- A scan that does nothing. -/
theorem scan_pure_none (k i : Nat) : scan (fun _ => (pure none : Rd β (Option α))) k i = pure none := by
  induction k generalizing i with
  | zero => rfl
  | succ k ih => rw [scan, ih, pure_none_orElse]

/-- A scan up to a bound with a guard against `n`, and the rest up to `n` after it, is the scan up to `n`. -/
theorem scan_guarded (body : Nat → Rd β (Option α)) (bound n : Nat) :
    orElse (scan (fun i => if i < n then body i else pure none) bound 0) (scan body (n - bound) bound) = scan body n 0 := by
  rcases Nat.le_total bound n with hle | hle
  · have hguard : scan (fun i => if i < n then body i else pure none) bound 0 = scan body bound 0 :=
      scan_congr fun j _ hj => if_pos (by omega)
    have hsum := scan_add body bound (n - bound) 0
    rw [Nat.zero_add, Nat.add_sub_cancel' hle] at hsum
    rw [hguard, hsum]
  · have hsum := scan_add (fun i => if i < n then body i else pure none) n (bound - n) 0
    have hin : scan (fun i => if i < n then body i else pure none) n 0 = scan body n 0 :=
      scan_congr fun j _ hj => if_pos (by omega)
    have hout : scan (fun i => if i < n then body i else pure none) (bound - n) n = pure none :=
      (scan_congr fun j hj _ => if_neg (by omega)).trans (scan_pure_none (bound - n) n)
    rw [Nat.zero_add, Nat.add_sub_cancel' hle, hin, hout, orElse_pure_none] at hsum
    rw [hsum, Nat.sub_eq_zero_of_le hle, scan, orElse_pure_none]

/-! ## Where a scan ends -/

/-- A scan has no result when no index has one. -/
theorem scan_eq_none_iff {body : Nat → Rd β (Option α)} {k i : Nat} {m : Nat → β} :
    (scan body k i).result m = none ↔ ∀ j, j < k → (body (i + j)).result m = none := by
  induction k generalizing i with
  | zero => exact iff_of_true rfl nofun
  | succ k ih =>
    rw [scan, result_orElse, Option.or_eq_none_iff, ih]
    constructor
    · rintro ⟨hhead, hrest⟩ j hj
      cases j with
      | zero => exact hhead
      | succ j =>
        have := hrest j (Nat.lt_of_succ_lt_succ hj)
        rwa [Nat.add_assoc, Nat.add_comm 1 j] at this
    · refine fun h => ⟨h 0 (Nat.succ_pos k), fun j hj => ?_⟩
      have := h (j + 1) (Nat.succ_lt_succ hj)
      rwa [Nat.add_assoc, Nat.add_comm 1 j]

/-- A scan has the result of the first index that has one. -/
theorem scan_eq_some_iff {body : Nat → Rd β (Option α)} {k i : Nat} {m : Nat → β} {r : α} :
    (scan body k i).result m = some r ↔
      ∃ j, j < k ∧ (∀ j', j' < j → (body (i + j')).result m = none) ∧ (body (i + j)).result m = some r := by
  constructor
  · induction k generalizing i with
    | zero => exact nofun
    | succ k ih =>
      intro h
      rw [scan, result_orElse, Option.or_eq_some_iff] at h
      rcases h with hhead | ⟨hhead, hrest⟩
      · exact ⟨0, Nat.succ_pos k, nofun, hhead⟩
      · obtain ⟨j, hj, hbefore, hat⟩ := ih hrest
        refine ⟨j + 1, Nat.succ_lt_succ hj, fun j' hj' => ?_, ?_⟩
        · cases j' with
          | zero => exact hhead
          | succ j' =>
            have := hbefore j' (Nat.lt_of_succ_lt_succ hj')
            rwa [Nat.add_assoc, Nat.add_comm 1 j'] at this
        · rwa [Nat.add_assoc, Nat.add_comm 1 j] at hat
  · rintro ⟨j, hj, hbefore, hat⟩
    -- the scan up to `j` has no result, and goes on at `j`
    obtain ⟨l, rfl⟩ := Nat.exists_eq_add_of_lt hj
    rw [Nat.add_assoc, scan_add, result_orElse, scan_eq_none_iff.2 hbefore, Option.none_or, scan, result_orElse, hat,
      Option.some_or]

/-- A scan reads what its body does at its indices. -/
theorem mem_reads_scan {body : Nat → Rd β (Option α)} {k i a : Nat} {m : Nat → β} (h : a ∈ (scan body k i).reads m) :
    ∃ j, j < k ∧ a ∈ (body (i + j)).reads m := by
  induction k generalizing i with
  | zero => exact absurd h List.not_mem_nil
  | succ k ih =>
    rw [scan, reads_orElse, List.mem_append] at h
    rcases h with hhead | hrest
    · exact ⟨0, Nat.succ_pos k, hhead⟩
    · split_ifs at hrest
      · obtain ⟨j, hj, hmem⟩ := ih hrest
        refine ⟨j + 1, Nat.succ_lt_succ hj, ?_⟩
        rwa [Nat.add_assoc, Nat.add_comm 1 j] at hmem
      · exact absurd hrest List.not_mem_nil

/-- A scan reads what its body does at the first index. -/
theorem reads_head_scan {body : Nat → Rd β (Option α)} {k i a : Nat} {m : Nat → β} (hk : 0 < k)
    (h : a ∈ (body i).reads m) : a ∈ (scan body k i).reads m := by
  obtain ⟨k, rfl⟩ := Nat.exists_eq_add_of_lt hk
  rw [Nat.zero_add, scan, reads_orElse]
  exact List.mem_append_left _ h

end ReadScan
