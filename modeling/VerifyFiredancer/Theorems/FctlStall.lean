import VerifyFiredancer.Lemmas.Fctl

/-!
# When an update lets the transmitter send its next burst

With every receiver caught up, an update leaves at least `cr_burst` credits exactly when there were that many already, or it
queries the receivers and none of them has a `cr_max` below `cr_resume` (`fctl_update_burst_iff`). The documented ranges of the
fields allow both ways to miss this: a `cr_refill` below `cr_burst`, between which the credits can stay without a query, and a
`cr_resume` above the `cr_max` of a receiver, which no query can reach.
-/

namespace VerifyFiredancer

open FctlAux

/-- The documented ranges of the fields of a fctl, and of its receivers. -/
structure FctlRanges (fctl : FdFctl) : Prop where
  crBurst : 1 ≤ fctl.crBurst.toNat ∧ fctl.crBurst.toNat ≤ longMax
  crMax : fctl.crBurst ≤ fctl.crMax ∧ fctl.crMax.toNat ≤ longMax
  crResume : fctl.crBurst ≤ fctl.crResume ∧ fctl.crResume ≤ fctl.crMax
  crRefill : 1 ≤ fctl.crRefill.toNat ∧ fctl.crRefill ≤ fctl.crResume
  inRefill : fctl.inRefill = 0 ∨ fctl.inRefill = 1
  rx : ∀ rx ∈ fctl.rx, (fctl.crBurst.toNat : Int) ≤ rx.crMax.toInt

/-- Every active receiver has published that it has consumed everything. -/
def FctlCaughtUp (fctl : FdFctl) (seq : Nat → Ulong) (txSeq : Ulong) : Prop :=
  ∀ rx ∈ fctl.rx, ∀ a, rx.seqLaddr = some a → seq a = txSeq

/-- An update of a fctl in its ranges always gives a burst when all receivers have caught up. -/
def FctlNeverStalls (fdSeqDiff : Ulong → Ulong → Long) : Prop :=
  ∀ (fctl : FdFctl) (seq slow : Nat → Ulong) (crAvail txSeq : Ulong), FctlRanges fctl → FctlCaughtUp fctl seq txSeq →
    fctl.crBurst ≤ (fdFctlTxCrUpdate fdSeqDiff seq slow fctl crAvail txSeq).2.2

/-- With every active receiver caught up, an update gives a burst exactly when the credits are one, or it queries and every
active receiver can grant `cr_resume`. -/
theorem fctl_update_burst_iff (fdSeqDiff : Ulong → Ulong → Long) (hdiff : ∀ a b, fdSeqDiff a b = a - b) (fctl : FdFctl)
    (seq slow : Nat → Ulong) (crAvail txSeq : Ulong) (h : FctlRanges fctl) (hup : FctlCaughtUp fctl seq txSeq) :
    fctl.crBurst ≤ (fdFctlTxCrUpdate fdSeqDiff seq slow fctl crAvail txSeq).2.2 ↔
      fctl.crBurst ≤ crAvail ∨ (crAvail < fctl.crRefill ∨ fctl.inRefill ≠ 0) ∧
        ∀ rx ∈ fctl.rx, rx.seqLaddr ≠ none → fctl.crResume.toNat ≤ rx.crMax.toNat := by
  have hcr : ∀ rx ∈ fctl.rx, 1 ≤ rx.crMax.toInt := by
    intro rx hrx
    have h1 := h.rx rx hrx
    have h2 := h.crBurst.1
    omega
  have hquery : fctl.crResume ≤ (fdFctlCrQuery fdSeqDiff seq fctl txSeq).1 ↔
      ∀ rx ∈ fctl.rx, rx.seqLaddr ≠ none → fctl.crResume.toNat ≤ rx.crMax.toNat := by
    rw [fdFctlCrQuery, le_queryLoop_iff hdiff fctl.rx 0 _ hcr hup]
    exact and_iff_right h.crResume.2
  unfold fdFctlTxCrUpdate
  by_cases hq : fctl.Queries crAvail
  · rw [if_pos hq, fdFctlTxCrUpdateQueried]
    by_cases hres : fctl.crResume ≤ (fdFctlCrQuery fdSeqDiff seq fctl txSeq).1
    · rw [if_pos hres]
      exact iff_of_true (BitVec.le_trans h.crResume.1 hres) (Or.inr ⟨hq, hquery.1 hres⟩)
    · rw [if_neg hres]
      have hno : ¬∀ rx ∈ fctl.rx, rx.seqLaddr ≠ none → fctl.crResume.toNat ≤ rx.crMax.toNat := fun e => hres (hquery.2 e)
      split
      · exact ⟨Or.inl, fun e => e.resolve_right fun e => hno e.2⟩
      · exact ⟨Or.inl, fun e => e.resolve_right fun e => hno e.2⟩
  · rw [if_neg hq]
    exact ⟨Or.inl, fun e => e.resolve_right fun e => hq e.1⟩

/-- A fctl in its ranges with one receiver, of which more than the credits at hand are wanted. -/
theorem fctl_update_burst_one :
    (8 : Ulong) ≤ (fdFctlTxCrUpdate (fun a b => a - b) (fun _ => 3) (fun _ => 0)
        ⟨0, 8, 16, 12, 10, [⟨16, some 0, 0⟩], by decide⟩ 2 3).2.2 ↔
      (8 : Ulong) ≤ 2 ∨ ((2 : Ulong) < 10 ∨ (0 : Int) ≠ 0) ∧
        ∀ rx ∈ [(⟨16, some 0, 0⟩ : FdFctlPrivateRx)], rx.seqLaddr ≠ none → (12 : Ulong).toNat ≤ rx.crMax.toNat :=
  fctl_update_burst_iff (fun a b => a - b) (fun _ _ => rfl) ⟨0, 8, 16, 12, 10, [⟨16, some 0, 0⟩], by decide⟩ (fun _ => 3)
    (fun _ => 0) 2 3 ⟨by decide, by decide, by decide, by decide, Or.inl rfl, by decide⟩ (fun _ _ _ _ => rfl)

/-- Without receivers, a `cr_refill` of one below a `cr_burst` of two: with one credit there is no query and no burst. -/
theorem fctl_stalls : ¬FctlNeverStalls fun a b => a - b := by
  intro h
  have hburst := h ⟨0, 2, 2, 2, 1, [], by decide⟩ (fun _ => 0) (fun _ => 0) 1 0
    ⟨by decide, by decide, by decide, by decide, Or.inl rfl, by decide⟩ (fun _ hrx => nomatch hrx)
  revert hburst
  decide

end VerifyFiredancer
