import VerifyFiredancer.Fctl
import VerifyFiredancer.Lib.FirstMin

/-!
# The query of the flow control

What the loop body of `fd_fctl_cr_query` computes for a receiver, in whole numbers: the credits its `cr_max` leaves when the
transmitter is ahead of it, no more than were found before (`FctlAux.queryRx_toNat`). The subtraction of the source does not
overflow because `cr_max` is positive. The whole loop is then the scan of these credits for their first minimum
(`FctlAux.query_scan`).
-/

namespace VerifyFiredancer

open FirstMin

/-- The credits that the loop body of a query finds for a receiver; for an inactive one there are none. -/
def rxCrQuery (fdSeqDiff : Ulong → Ulong → Long) (seq : Nat → Ulong) (txSeq : Ulong) (rx : FdFctlPrivateRx) : Option Nat :=
  rx.seqLaddr.map fun a => (fdLongMax (rx.crMax - fdLongMax (fdSeqDiff txSeq (seq a)) 0) 0 : Ulong).toNat

namespace FctlAux

/-! ## Words -/

theorem longMax_toInt (x y : Long) : (fdLongMax x y).toInt = max x.toInt y.toInt := by
  unfold fdLongMax
  by_cases h : y.slt x = true
  · rw [if_pos h]
    rw [BitVec.slt_iff_toInt_lt] at h
    omega
  · rw [if_neg h]
    rw [BitVec.slt_iff_toInt_lt] at h
    omega

theorem ulongMin_toNat (x y : Ulong) : (fdUlongMin x y).toNat = min x.toNat y.toNat := by
  unfold fdUlongMin
  by_cases h : x < y
  · rw [if_pos h]
    rw [BitVec.lt_def] at h
    omega
  · rw [if_neg h]
    rw [BitVec.lt_def] at h
    omega

/-- A number that is not negative is the same read unsigned. -/
theorem toNat_of_nonneg {x : Long} (h : 0 ≤ x.toInt) : (x.toNat : Int) = x.toInt := by
  have := x.isLt
  rw [BitVec.toInt_eq_toNat_cond] at h ⊢
  split_ifs at h ⊢ <;> omega

/-- A word below half the range is the same read signed. -/
theorem toInt_of_lt {x : Long} (h : x.toNat < 2 ^ 63) : x.toInt = x.toNat := by
  rw [BitVec.toInt_eq_toNat_cond, if_pos (by omega)]

/-- A difference that stays in the range does not wrap. -/
theorem sub_toInt {x y : Long} (hx : 1 ≤ x.toInt) (hy : 0 ≤ y.toInt) : (x - y).toInt = x.toInt - y.toInt := by
  have h1 := toNat_of_nonneg (x := x) (by omega)
  have h2 := toNat_of_nonneg hy
  have h3 : x.toInt < 2 ^ 63 := BitVec.toInt_lt
  have h4 : y.toInt < 2 ^ 63 := BitVec.toInt_lt
  rw [BitVec.toInt_sub, Int.bmod_eq_of_le] <;> omega

/-! ## One receiver -/

/-- The credits of a receiver that the transmitter is ahead of by `d`. -/
theorem rxCrQuery_toNat {crMax d : Long} (h : 1 ≤ crMax.toInt) :
    ((fdLongMax (crMax - fdLongMax d 0) 0).toNat : Int) = max (crMax.toInt - max d.toInt 0) 0 := by
  have h0 : (0 : Long).toInt = 0 := rfl
  have hy : 0 ≤ (fdLongMax d 0).toInt := by
    rw [longMax_toInt, h0]
    omega
  have hq : (fdLongMax (crMax - fdLongMax d 0) 0).toInt = max (crMax.toInt - max d.toInt 0) 0 := by
    rw [longMax_toInt, sub_toInt h hy, longMax_toInt, h0]
  rw [toNat_of_nonneg (by rw [hq]; omega), hq]

section Query

variable {fdSeqDiff : Ulong → Ulong → Long} (hdiff : ∀ a b, fdSeqDiff a b = a - b)
include hdiff

/-- The credits after reading an active receiver that lags by less than half the range. -/
theorem queryRx_toNat {seq : Nat → Ulong} {txSeq : Ulong} (rxIdx : Ulong) {rx : FdFctlPrivateRx} (acc : Ulong × Ulong)
    {a : Nat} (ha : rx.seqLaddr = some a) (hcr : 1 ≤ rx.crMax.toInt) (hlag : (txSeq - seq a).toNat < 2 ^ 63) :
    (fdFctlCrQueryRx fdSeqDiff seq txSeq rx rxIdx acc).1.toNat =
      min acc.1.toNat (rx.crMax.toInt.toNat - (txSeq - seq a).toNat) := by
  simp only [fdFctlCrQueryRx, ha]
  rw [ulongMin_toNat, hdiff]
  have h1 := rxCrQuery_toNat (d := txSeq - seq a) hcr
  rw [toInt_of_lt hlag] at h1
  omega

/-- The credits of a query when every active receiver has caught up reach a threshold exactly when the bound they start from
and the `cr_max` of every active receiver do. -/
theorem le_queryLoop_iff {seq : Nat → Ulong} {txSeq c : Ulong} (rxs : List FdFctlPrivateRx) :
    ∀ (rxIdx : Nat) (acc : Ulong × Ulong), (∀ rx ∈ rxs, 1 ≤ rx.crMax.toInt) →
      (∀ rx ∈ rxs, ∀ a, rx.seqLaddr = some a → seq a = txSeq) →
      (c ≤ (fdFctlCrQueryLoop fdSeqDiff seq txSeq rxs rxIdx acc).1 ↔
        c ≤ acc.1 ∧ ∀ rx ∈ rxs, rx.seqLaddr ≠ none → c.toNat ≤ rx.crMax.toNat) := by
  induction rxs with
  | nil => intro rxIdx acc _ _; simp [fdFctlCrQueryLoop]
  | cons rx rxs ih =>
    intro rxIdx acc hcr hseq
    rw [List.forall_mem_cons] at hcr hseq
    rw [fdFctlCrQueryLoop, ih _ _ hcr.2 hseq.2, List.forall_mem_cons, ← and_assoc]
    refine and_congr_left' ?_
    cases ha : rx.seqLaddr with
    | none => simp [fdFctlCrQueryRx, ha]
    | some a =>
      have hzero : (txSeq - seq a).toNat = 0 := by rw [hseq.1 a ha, BitVec.sub_self]; rfl
      have hval := queryRx_toNat hdiff (BitVec.ofNat 64 rxIdx) acc ha hcr.1 (by rw [hzero]; decide)
      have hpos := toNat_of_nonneg (x := rx.crMax) (by have := hcr.1; omega)
      rw [hzero] at hval
      rw [BitVec.le_def, BitVec.le_def, hval]
      simp only [ne_eq, reduceCtorEq, not_false_eq_true, forall_const]
      omega

end Query

/-! ## The query as a scan -/

section Scan

variable {fdSeqDiff : Ulong → Ulong → Long}

/-- The index of a scan, as the source keeps it. -/
def idxWord : Option Nat → Ulong
  | none => ulongMax
  | some i => BitVec.ofNat 64 i

/-- The state of a query's loop is that of a scan. -/
def ScanAbs (acc : Ulong × Ulong) (s : Nat × Option Nat) : Prop := acc.1.toNat = s.1 ∧ acc.2 = idxWord s.2

/-- One receiver: the loop body does the step of the scan. -/
theorem queryRx_step {seq : Nat → Ulong} {txSeq : Ulong} {rx : FdFctlPrivateRx} (i : Nat) {acc : Ulong × Ulong}
    {s : Nat × Option Nat} (h : ScanAbs acc s) :
    ScanAbs (fdFctlCrQueryRx fdSeqDiff seq txSeq rx (BitVec.ofNat 64 i) acc) (step (rxCrQuery fdSeqDiff seq txSeq rx) i s) := by
  obtain ⟨h1, h2⟩ := h
  cases ha : rx.seqLaddr with
  | none =>
    simp only [fdFctlCrQueryRx, rxCrQuery, ha, Option.map_none, step]
    exact ⟨h1, h2⟩
  | some a =>
    simp only [fdFctlCrQueryRx, rxCrQuery, ha, Option.map_some, step, fdUlongIf, fdUlongMin, decide_eq_true_eq, ← h1]
    by_cases hlt : fdLongMax (rx.crMax - fdLongMax (fdSeqDiff txSeq (seq a)) 0) 0 < acc.1
    · rw [if_pos hlt, if_pos hlt, if_pos (BitVec.lt_def.1 hlt)]
      exact ⟨rfl, rfl⟩
    · rw [if_neg hlt, if_neg hlt, if_neg fun e => hlt (BitVec.lt_def.2 e)]
      exact ⟨h1, h2⟩

/-- The loop does the scan, by induction on the receivers. -/
theorem queryLoopAt_scan {seqAt : Nat → Nat → Ulong} {txSeq : Ulong} (rxs : List FdFctlPrivateRx) :
    ∀ (i : Nat) (acc : Ulong × Ulong) (s : Nat × Option Nat), ScanAbs acc s →
      ScanAbs (fdFctlCrQueryLoopAt fdSeqDiff seqAt txSeq rxs i acc)
        (scan (rxs.mapIdx fun j rx => rxCrQuery fdSeqDiff (seqAt (i + j)) txSeq rx) i s) := by
  induction rxs with
  | nil => intro i acc s h; exact h
  | cons rx rxs ih =>
    intro i acc s h
    have hhead : ScanAbs (fdFctlCrQueryRx fdSeqDiff (seqAt i) txSeq rx (BitVec.ofNat 64 i) acc) _ := queryRx_step i h
    have hrest := ih (i + 1) _ _ hhead
    rw [List.mapIdx_cons, scan]
    simp only [Nat.add_assoc, Nat.add_comm 1] at hrest
    exact hrest

/-- A query during which nothing is published. -/
theorem queryLoopAt_const (fdSeqDiff : Ulong → Ulong → Long) (seq : Nat → Ulong) (txSeq : Ulong) (rxs : List FdFctlPrivateRx) :
    ∀ (rxIdx : Nat) (acc : Ulong × Ulong),
      fdFctlCrQueryLoopAt fdSeqDiff (fun _ => seq) txSeq rxs rxIdx acc = fdFctlCrQueryLoop fdSeqDiff seq txSeq rxs rxIdx acc := by
  induction rxs with
  | nil => intro rxIdx acc; rfl
  | cons rx rxs ih => intro rxIdx acc; exact ih (rxIdx + 1) _

/-- A query does the scan that starts with `cr_max`. -/
theorem query_scan (fdSeqDiff : Ulong → Ulong → Long) (seq : Nat → Ulong) (fctl : FdFctl) (txSeq : Ulong) :
    ScanAbs (fdFctlCrQuery fdSeqDiff seq fctl txSeq)
      (scan (fctl.rx.map (rxCrQuery fdSeqDiff seq txSeq)) 0 (fctl.crMax.toNat, none)) := by
  have h : ScanAbs (fdFctlCrQueryLoopAt fdSeqDiff (fun _ => seq) txSeq fctl.rx 0 (fctl.crMax, ulongMax)) _ :=
    queryLoopAt_scan fctl.rx 0 _ (fctl.crMax.toNat, none) ⟨rfl, rfl⟩
  have hmap : fctl.rx.mapIdx (fun _ rx => rxCrQuery fdSeqDiff seq txSeq rx) = fctl.rx.map (rxCrQuery fdSeqDiff seq txSeq) :=
    List.ext_getElem (by simp) fun i h1 h2 => by simp
  rw [queryLoopAt_const, hmap] at h
  exact h

end Scan

/-- An update during which nothing is published. -/
theorem txCrUpdateAt_const (fdSeqDiff : Ulong → Ulong → Long) (seq slow : Nat → Ulong) (fctl : FdFctl) (crAvail txSeq : Ulong) :
    fdFctlTxCrUpdateAt fdSeqDiff (fun _ => seq) slow fctl crAvail txSeq =
      fdFctlTxCrUpdate fdSeqDiff seq slow fctl crAvail txSeq := by
  rw [fdFctlTxCrUpdateAt, fdFctlTxCrUpdate, fdFctlCrQuery, queryLoopAt_const]

end FctlAux

end VerifyFiredancer
