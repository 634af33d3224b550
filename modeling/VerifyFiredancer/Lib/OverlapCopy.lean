import Mathlib.Logic.Function.Basic
import Mathlib.Tactic.Common

/-!
# Copies between ranges that overlap

A copy item by item from `src` to `dst` that has done the indices from `lo` to `hi` (`Copied`). It may go up when the destination
is not above the source, and down when it is not below: the item to copy next was then not written over yet.
-/

namespace OverlapCopy

variable {β : Type*}

/-- The memory `m` is `m₀` but for the indices from `lo` to `hi` of the range at `dst`, which hold what `m₀` had at `src`. -/
structure Copied (m₀ m : Nat → β) (dst src lo hi : Nat) : Prop where
  copied : ∀ i, lo ≤ i → i < hi → m (dst + i) = m₀ (src + i)
  frame : ∀ a, (∀ i, lo ≤ i → i < hi → a ≠ dst + i) → m a = m₀ a

variable {m₀ m : Nat → β} {dst src lo hi : Nat}

/-- A copy that has done nothing. -/
theorem Copied.refl (m₀ : Nat → β) (dst src lo : Nat) : Copied m₀ m₀ dst src lo lo :=
  ⟨fun _ hlo hhi => absurd hhi (Nat.not_lt.2 hlo), fun _ _ => rfl⟩

/-- One more item, wherever it comes from. -/
theorem Copied.write (h : Copied m₀ m dst src lo hi) {lo' hi' k : Nat} (hnew : ∀ i, lo' ≤ i ∧ i < hi' ↔ (lo ≤ i ∧ i < hi) ∨ i = k) :
    Copied m₀ (Function.update m (dst + k) (m₀ (src + k))) dst src lo' hi' := by
  refine ⟨fun i hlo hhi => ?_, fun a ha => ?_⟩
  · by_cases hik : i = k
    · subst hik
      rw [Function.update_self]
    · have hin := ((hnew i).1 ⟨hlo, hhi⟩).resolve_right hik
      rw [Function.update_of_ne (by omega)]
      exact h.copied i hin.1 hin.2
  · have hk := (hnew k).2 (Or.inr rfl)
    rw [Function.update_of_ne (ha k hk.1 hk.2)]
    refine h.frame a fun i hlo hhi => ?_
    have hi := (hnew i).2 (Or.inl ⟨hlo, hhi⟩)
    exact ha i hi.1 hi.2

/-- One item up. -/
theorem Copied.up (h : Copied m₀ m dst src lo hi) (hlo : lo ≤ hi) (hdir : dst ≤ src) :
    Copied m₀ (Function.update m (dst + hi) (m (src + hi))) dst src lo (hi + 1) := by
  have hunread : m (src + hi) = m₀ (src + hi) := h.frame _ fun i _ hi' => by omega
  rw [hunread]
  exact h.write fun i => by omega

/-- One item down. -/
theorem Copied.down (h : Copied m₀ m dst src (lo + 1) hi) (hhi : lo < hi) (hdir : src ≤ dst) :
    Copied m₀ (Function.update m (dst + lo) (m (src + lo))) dst src lo hi := by
  have hunread : m (src + lo) = m₀ (src + lo) := h.frame _ fun i hlo' _ => by omega
  rw [hunread]
  exact h.write fun i => by omega

end OverlapCopy
