import VerifyFiredancer.Lib.FirstMin
import VerifyFiredancer.Theorems.FctlStall

/-!
# The credits a query finds

`fd_fctl_cr_query` is a scan for the first minimum (`FirstMin.scan`) over what its body computes for each active receiver
(`FctlAux.query_scan`). The one signed subtraction of the body does not overflow, so that this is what the receiver leaves the
transmitter in whole numbers (`rxCredits`). The result is the minimum of `cr_max` and the credits of the active receivers,
and the index is that of the first receiver at the minimum (`fctl_query_exact`).
-/

namespace VerifyFiredancer

open FirstMin FctlAux

/-- The credits a receiver leaves a transmitter at `txSeq`, in whole numbers; an inactive receiver leaves none. -/
def rxCredits (seq : Nat → Ulong) (txSeq : Ulong) (rx : FdFctlPrivateRx) : Option Int :=
  rx.seqLaddr.map fun a => max (rx.crMax.toInt - max (txSeq - seq a).toInt 0) 0

/-- Two lists of receivers that differ at most in what the inactive ones hold. -/
def SameActive (rxs rxs' : List FdFctlPrivateRx) : Prop :=
  List.Forall₂ (fun rx rx' => rx.seqLaddr = rx'.seqLaddr ∧ (rx.seqLaddr ≠ none → rx.crMax = rx'.crMax)) rxs rxs'

/-- The fctl with its active receivers only. -/
def FdFctl.onlyActive (fctl : FdFctl) : FdFctl :=
  { fctl with
    rx := fctl.rx.filter fun rx => rx.seqLaddr.isSome
    rxCnt_le := Nat.le_trans (List.length_filter_le _ _) fctl.rxCnt_le }

/-- What a query of `fctl` at `txSeq` gives. -/
structure FctlQueryExact (fdSeqDiff : Ulong → Ulong → Long) (seq : Nat → Ulong) (fctl : FdFctl) (txSeq : Ulong) : Prop where
  noOverflow : ∀ rx ∈ fctl.rx, ∀ a, rx.seqLaddr = some a →
    BitVec.ssubOverflow rx.crMax (fdLongMax (fdSeqDiff txSeq (seq a)) 0) = false
  credits : ((fdFctlCrQuery fdSeqDiff seq fctl txSeq).1.toNat : Int) =
    (fctl.rx.filterMap (rxCredits seq txSeq)).foldl min (fctl.crMax.toNat : Int)
  range : (fdFctlCrQuery fdSeqDiff seq fctl txSeq).1 ≤ fctl.crMax
  inactive : ∀ fctl' seq', fctl'.crMax = fctl.crMax → SameActive fctl.rx fctl'.rx → (∀ a, fctl.Active a → seq' a = seq a) →
    fdFctlCrQuery fdSeqDiff seq' fctl' txSeq = fdFctlCrQuery fdSeqDiff seq fctl txSeq
  onlyActive : (fdFctlCrQuery fdSeqDiff seq fctl.onlyActive txSeq).1 = (fdFctlCrQuery fdSeqDiff seq fctl txSeq).1
  slowest : (fdFctlCrQuery fdSeqDiff seq fctl txSeq).1 < fctl.crMax →
    FirstAt (fctl.rx.map (rxCredits seq txSeq)) (fdFctlCrQuery fdSeqDiff seq fctl txSeq).2.toNat
      ((fdFctlCrQuery fdSeqDiff seq fctl txSeq).1.toNat : Int)
  unconstrained : ¬(fdFctlCrQuery fdSeqDiff seq fctl txSeq).1 < fctl.crMax →
    (fdFctlCrQuery fdSeqDiff seq fctl txSeq).2 = ulongMax

namespace FctlQueryAux

/-- The subtraction of the loop body stays in the range of a long. -/
theorem not_overflow (fdSeqDiff : Ulong → Ulong → Long) {seq : Nat → Ulong} {txSeq : Ulong} {rx : FdFctlPrivateRx} (a : Nat)
    (hcr : 1 ≤ rx.crMax.toInt) :
    BitVec.ssubOverflow rx.crMax (fdLongMax (fdSeqDiff txSeq (seq a)) 0) = false := by
  have h0 : (0 : Long).toInt = 0 := rfl
  have hmax := longMax_toInt (fdSeqDiff txSeq (seq a)) 0
  have hlt : (fdLongMax (fdSeqDiff txSeq (seq a)) 0).toInt < 2 ^ 63 := BitVec.toInt_lt
  have hcrLt : rx.crMax.toInt < 2 ^ 63 := BitVec.toInt_lt
  rw [h0] at hmax
  simp only [BitVec.ssubOverflow, Bool.or_eq_false_iff, decide_eq_false_iff_not]
  omega

section Query

variable {fdSeqDiff : Ulong → Ulong → Long} (hdiff : ∀ a b, fdSeqDiff a b = a - b)
include hdiff

/-- What the loop body finds for a receiver is what the receiver leaves, in whole numbers. -/
theorem rxCredits_eq {seq : Nat → Ulong} (txSeq : Ulong) {rx : FdFctlPrivateRx} (hcr : 1 ≤ rx.crMax.toInt) :
    rxCredits seq txSeq rx = (rxCrQuery fdSeqDiff seq txSeq rx).map Nat.cast := by
  cases ha : rx.seqLaddr with
  | none => simp [rxCredits, rxCrQuery, ha]
  | some a =>
    have hval := rxCrQuery_toNat (d := fdSeqDiff txSeq (seq a)) hcr
    rw [hdiff txSeq (seq a)] at hval
    simp only [rxCredits, rxCrQuery, ha, Option.map_some, hdiff, hval]

/-- A query does the scan of what the receivers leave. -/
theorem query_credits {seq : Nat → Ulong} (fctl : FdFctl) (txSeq : Ulong) (hcr : ∀ rx ∈ fctl.rx, 1 ≤ rx.crMax.toInt) :
    ((fdFctlCrQuery fdSeqDiff seq fctl txSeq).1.toNat : Int) =
        (scan (fctl.rx.map (rxCredits seq txSeq)) 0 ((fctl.crMax.toNat : Int), none)).1 ∧
      (fdFctlCrQuery fdSeqDiff seq fctl txSeq).2 =
        idxWord (scan (fctl.rx.map (rxCredits seq txSeq)) 0 ((fctl.crMax.toNat : Int), none)).2 := by
  obtain ⟨hfst, hsnd⟩ := query_scan fdSeqDiff seq fctl txSeq
  have hmap : fctl.rx.map (rxCredits seq txSeq) =
      (fctl.rx.map (rxCrQuery fdSeqDiff seq txSeq)).map (Option.map (Nat.cast : Nat → Int)) := by
    rw [List.map_map]
    exact List.map_congr_left fun rx hrx => rxCredits_eq hdiff txSeq (hcr rx hrx)
  have hmono : StrictMono (Nat.cast : Nat → Int) := fun _ _ hlt => Int.ofNat_lt.2 hlt
  have hscan := scan_map hmono (fctl.rx.map (rxCrQuery fdSeqDiff seq txSeq)) 0 (fctl.crMax.toNat, none)
  dsimp only at hscan
  rw [hmap, hscan, hfst, hsnd]
  exact ⟨rfl, rfl⟩

/-- The credits a query finds are the minimum. -/
theorem query_fst {seq : Nat → Ulong} (fctl : FdFctl) (txSeq : Ulong) (hcr : ∀ rx ∈ fctl.rx, 1 ≤ rx.crMax.toInt) :
    ((fdFctlCrQuery fdSeqDiff seq fctl txSeq).1.toNat : Int) =
      (fctl.rx.filterMap (rxCredits seq txSeq)).foldl min (fctl.crMax.toNat : Int) := by
  rw [(query_credits hdiff fctl txSeq hcr).1, scan_fst, List.filterMap_map]
  rfl

end Query

/-- The loop body reads nothing of an inactive receiver. -/
theorem queryRx_congr {fdSeqDiff : Ulong → Ulong → Long} {seq seq' : Nat → Ulong} {rx rx' : FdFctlPrivateRx}
    (txSeq rxIdx : Ulong) (acc : Ulong × Ulong) (hs : ∀ a, rx.seqLaddr = some a → seq' a = seq a)
    (h : rx.seqLaddr = rx'.seqLaddr ∧ (rx.seqLaddr ≠ none → rx.crMax = rx'.crMax)) :
    fdFctlCrQueryRx fdSeqDiff seq' txSeq rx' rxIdx acc = fdFctlCrQueryRx fdSeqDiff seq txSeq rx rxIdx acc := by
  obtain ⟨hl, hm⟩ := h
  unfold fdFctlCrQueryRx
  rw [← hl]
  cases ha : rx.seqLaddr with
  | none => rfl
  | some a => simp only [hs a ha, hm (by simp [ha])]

/-- Nor does the loop. -/
theorem queryLoop_congr {fdSeqDiff : Ulong → Ulong → Long} {seq seq' : Nat → Ulong} {rxs rxs' : List FdFctlPrivateRx}
    (txSeq : Ulong) (h : SameActive rxs rxs') :
    ∀ (i : Nat) (acc : Ulong × Ulong), (∀ rx ∈ rxs, ∀ a, rx.seqLaddr = some a → seq' a = seq a) →
      fdFctlCrQueryLoop fdSeqDiff seq' txSeq rxs' i acc = fdFctlCrQueryLoop fdSeqDiff seq txSeq rxs i acc := by
  induction h with
  | nil => intro i acc _; rfl
  | cons hrx hrxs ih =>
    intro i acc hs
    rw [List.forall_mem_cons] at hs
    rw [fdFctlCrQueryLoop, fdFctlCrQueryLoop, queryRx_congr txSeq _ acc hs.1 hrx]
    exact ih (i + 1) _ hs.2

end FctlQueryAux

open FctlQueryAux

/-- A query gives the minimum of `cr_max` and the credits of the active receivers, and the first receiver at it. -/
theorem fctl_query_exact (fdSeqDiff : Ulong → Ulong → Long) (hdiff : ∀ a b, fdSeqDiff a b = a - b) (seq : Nat → Ulong)
    (fctl : FdFctl) (txSeq : Ulong) (hcr : ∀ rx ∈ fctl.rx, 1 ≤ rx.crMax.toInt) :
    FctlQueryExact fdSeqDiff seq fctl txSeq := by
  have hscan : ((fdFctlCrQuery fdSeqDiff seq fctl txSeq).1.toNat : Int) = _ ∧ _ = _ := query_credits hdiff fctl txSeq hcr
  obtain ⟨hfst, hsnd⟩ := hscan
  have hle := scan_fst_le (fctl.rx.map (rxCredits seq txSeq)) 0 ((fctl.crMax.toNat : Int), none)
  obtain ⟨hlow, hkeep⟩ := scan_snd (fctl.rx.map (rxCredits seq txSeq)) 0 ((fctl.crMax.toNat : Int), none)
  have hactive : ∀ rx ∈ fctl.onlyActive.rx, 1 ≤ rx.crMax.toInt := fun rx hrx => hcr rx (List.mem_filter.1 hrx).1
  constructor
  case noOverflow => exact fun rx hrx a _ => not_overflow fdSeqDiff a (hcr rx hrx)
  case credits => exact query_fst hdiff fctl txSeq hcr
  case range =>
    rw [← hfst] at hle
    exact BitVec.le_def.2 (Int.ofNat_le.1 hle)
  case inactive =>
    intro fctl' seq' hmax hsame hs
    rw [fdFctlCrQuery, fdFctlCrQuery, hmax]
    exact queryLoop_congr txSeq hsame 0 _ fun rx hrx a ha => hs a ⟨rx, hrx, ha⟩
  case onlyActive =>
    apply BitVec.eq_of_toNat_eq
    have h1 : ((fdFctlCrQuery fdSeqDiff seq fctl txSeq).1.toNat : Int) = _ := query_fst hdiff fctl txSeq hcr
    have h2 : ((fdFctlCrQuery fdSeqDiff seq fctl.onlyActive txSeq).1.toNat : Int) = _ :=
      query_fst hdiff fctl.onlyActive txSeq hactive
    have hfilter : fctl.onlyActive.rx.filterMap (rxCredits seq txSeq) = fctl.rx.filterMap (rxCredits seq txSeq) := by
      rw [FdFctl.onlyActive, List.filterMap_filter]
      refine List.filterMap_congr fun rx _ => ?_
      cases ha : rx.seqLaddr <;> simp [rxCredits, ha]
    rw [hfilter] at h2
    exact Int.ofNat.inj (h2.trans h1.symm)
  case slowest =>
    intro hlt
    rw [← hfst] at hlow
    obtain ⟨k, hk, hfirst⟩ := hlow (Int.ofNat_lt.2 (BitVec.lt_def.1 hlt))
    -- an index of a receiver is far below 2^64
    have hlen : k < fctl.rx.length := by
      have := (List.getElem?_eq_some_iff.1 hfirst.at_index).1
      rwa [List.length_map] at this
    have hmax : fctl.rx.length ≤ 65535 := fctl.rxCnt_le
    have hidx : (fdFctlCrQuery fdSeqDiff seq fctl txSeq).2.toNat = k := by
      rw [hsnd, hk, Nat.zero_add, idxWord, BitVec.toNat_ofNat]
      omega
    rw [hidx]
    exact hfirst
  case unconstrained =>
    intro hge
    rw [← hfst] at hle hkeep
    rw [BitVec.lt_def] at hge
    rw [hsnd, hkeep (by omega)]
    rfl

/-- Two receivers, of which the second has sixteen sequence numbers yet to consume. -/
theorem fctl_query_exact_two :
    FctlQueryExact (fun a b => a - b) (fun a => if a = 0 then 40 else 24) ⟨0, 8, 32, 12, 10,
      [⟨32, some 0, 0⟩, ⟨32, some 1, 0⟩], by decide⟩ 40 :=
  fctl_query_exact (fun a b => a - b) (fun _ _ => rfl) (fun a => if a = 0 then 40 else 24) _ 40 (by decide)

end VerifyFiredancer
