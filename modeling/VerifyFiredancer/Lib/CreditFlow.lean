import Mathlib.Logic.Function.Basic
import Mathlib.Logic.Relation

/-!
# Credit-based flow control

One sender and any receivers. The sender spends a credit for every item it sends; a receiver consumes items that were sent, and
publishes now and then how many it consumed. To get credits the sender looks at its limits one after the other: a limit names a
receiver and the window of items it may lag. Between two looks the receivers go on. Whatever the interleaving, no receiver lags
more than the windows set for it (`Inv.lag_le`): credits granted from old positions are only ever too few.
-/

namespace CreditFlow

variable {ρ : Type*}

/-- A limit: the receiver it is about, and how many items that one may lag. -/
structure Limit (ρ : Type*) where
  rx : ρ
  window : Nat

/-- The counts of a sender and its receivers; in a round of looks, the limits yet to look at and the credits found so far. -/
structure Flow (ρ : Type*) where
  sent : Nat
  credit : Nat
  consumed : ρ → Nat
  published : ρ → Nat
  looking : Option (List (Limit ρ) × Nat)

/-- The invariant: positions in order, and neither the credits nor the credits found so far exceed what a window leaves. -/
structure Inv (limits : List (Limit ρ)) (s : Flow ρ) : Prop where
  published_le : ∀ r, s.published r ≤ s.consumed r
  consumed_le : ∀ r, s.consumed r ≤ s.sent
  credit_le : ∀ l ∈ limits, s.credit + s.sent ≤ l.window + s.published l.rx
  found_le : ∀ todo found, s.looking = some (todo, found) →
    ∃ seen, limits = seen ++ todo ∧ ∀ l ∈ seen, found + s.sent ≤ l.window + s.published l.rx

/-- A sender without credits that has sent nothing. -/
theorem Inv.start (limits : List (Limit ρ)) : Inv limits ⟨0, 0, fun _ => 0, fun _ => 0, none⟩ where
  published_le := fun _ => Nat.le_refl 0
  consumed_le := fun _ => Nat.le_refl 0
  credit_le := fun _ _ => Nat.zero_le _
  found_le := fun _ _ h => nomatch h

section Inv

variable {limits : List (Limit ρ)} {s t : Flow ρ}

/-- No receiver lags more than a window set for it. -/
theorem Inv.lag_le (h : Inv limits s) {l : Limit ρ} (hl : l ∈ limits) : s.sent - s.consumed l.rx ≤ l.window := by
  have h1 := h.credit_le l hl
  have h2 := h.published_le l.rx
  omega

/-- The credits are at most what the position a receiver published leaves of a window. -/
theorem Inv.credit_le_sub (h : Inv limits s) {l : Limit ρ} (hl : l ∈ limits) :
    s.sent - s.published l.rx ≤ l.window ∧ s.credit ≤ l.window - (s.sent - s.published l.rx) := by
  have h1 := h.credit_le l hl
  have h2 := h.published_le l.rx
  have h3 := h.consumed_le l.rx
  omega

end Inv

section Step

variable [DecidableEq ρ]

/-- The steps of a sender with the given limits, and of its receivers. -/
inductive Step (limits : List (Limit ρ)) : Flow ρ → Flow ρ → Prop
  | send (s : Flow ρ) (n : Nat) (hl : s.looking = none) (hn : n ≤ s.credit) :
      Step limits s { s with sent := s.sent + n, credit := s.credit - n }
  | consume (s : Flow ρ) (r : ρ) (n : Nat) (hn : s.consumed r + n ≤ s.sent) :
      Step limits s { s with consumed := Function.update s.consumed r (s.consumed r + n) }
  | publish (s : Flow ρ) (r : ρ) : Step limits s { s with published := Function.update s.published r (s.consumed r) }
  | ask (s : Flow ρ) (bound : Nat) (hl : s.looking = none) : Step limits s { s with looking := some (limits, bound) }
  | look (s : Flow ρ) (l : Limit ρ) (todo : List (Limit ρ)) (found : Nat) (hl : s.looking = some (l :: todo, found)) :
      Step limits s { s with looking := some (todo, min found (l.window - (s.sent - s.published l.rx))) }
  | grant (s : Flow ρ) (found : Nat) (hl : s.looking = some ([], found)) :
      Step limits s { s with credit := found, looking := none }
  | decline (s : Flow ρ) (found : Nat) (hl : s.looking = some ([], found)) : Step limits s { s with looking := none }

variable {limits : List (Limit ρ)} {s t : Flow ρ}

/-- Publishing moves no position back. -/
theorem Inv.published_mono (h : Inv limits s) (r q : ρ) :
    s.published q ≤ Function.update s.published r (s.consumed r) q := by
  revert q
  refine (Function.forall_update_iff s.published fun q k => s.published q ≤ k).2 ⟨h.published_le r, fun q _ => ?_⟩
  exact Nat.le_refl _

/-- Every step keeps the invariant. -/
theorem Inv.step (h : Inv limits s) (hs : Step limits s t) : Inv limits t := by
  cases hs with
  | send n hl hn =>
    refine ⟨h.published_le, fun r => Nat.le_trans (h.consumed_le r) (Nat.le_add_right _ _), ?_, ?_⟩
    · intro l hmem
      have := h.credit_le l hmem
      dsimp only
      omega
    · intro todo found hf
      rw [hl] at hf
      cases hf
  | consume r n hn =>
    refine ⟨?_, ?_, h.credit_le, h.found_le⟩
    · refine (Function.forall_update_iff s.consumed fun q k => s.published q ≤ k).2 ⟨?_, fun q _ => h.published_le q⟩
      exact Nat.le_trans (h.published_le r) (Nat.le_add_right _ _)
    · exact (Function.forall_update_iff s.consumed fun _ k => k ≤ s.sent).2 ⟨hn, fun q _ => h.consumed_le q⟩
  | publish r =>
    refine ⟨?_, h.consumed_le, ?_, ?_⟩
    · refine (Function.forall_update_iff s.published fun q k => k ≤ s.consumed q).2 ⟨?_, fun q _ => h.published_le q⟩
      exact Nat.le_refl _
    · intro l hmem
      exact Nat.le_trans (h.credit_le l hmem) (Nat.add_le_add_left (h.published_mono r l.rx) _)
    · intro todo found hf
      obtain ⟨seen, heq, hseen⟩ := h.found_le todo found hf
      exact ⟨seen, heq, fun l hmem => Nat.le_trans (hseen l hmem) (Nat.add_le_add_left (h.published_mono r l.rx) _)⟩
  | ask bound hl =>
    refine ⟨h.published_le, h.consumed_le, h.credit_le, ?_⟩
    intro todo found hf
    simp only [Option.some.injEq, Prod.mk.injEq] at hf
    obtain ⟨rfl, _⟩ := hf
    exact ⟨[], rfl, fun l hmem => nomatch hmem⟩
  | look l todo found hl =>
    refine ⟨h.published_le, h.consumed_le, h.credit_le, ?_⟩
    intro todo' found' hf
    simp only [Option.some.injEq, Prod.mk.injEq] at hf
    obtain ⟨rfl, rfl⟩ := hf
    obtain ⟨seen, heq, hseen⟩ := h.found_le _ _ hl
    refine ⟨seen ++ [l], by rw [heq, List.append_assoc]; rfl, ?_⟩
    intro k hk
    dsimp only
    rcases List.mem_append.1 hk with hk | hk
    · have := hseen k hk
      omega
    · obtain rfl := List.mem_singleton.1 hk
      -- the lag the look sees is within the window, so its difference does not truncate
      have hwin := h.credit_le k (by rw [heq]; exact List.mem_append_right _ (List.mem_cons_self ..))
      omega
  | grant found hl =>
    refine ⟨h.published_le, h.consumed_le, ?_, ?_⟩
    · intro l hmem
      obtain ⟨seen, heq, hseen⟩ := h.found_le _ _ hl
      rw [List.append_nil] at heq
      exact hseen l (by rw [← heq]; exact hmem)
    · intro todo found' hf
      cases hf
  | decline found hl =>
    refine ⟨h.published_le, h.consumed_le, h.credit_le, ?_⟩
    intro todo found' hf
    cases hf

end Step

end CreditFlow
