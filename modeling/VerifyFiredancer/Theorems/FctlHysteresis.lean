import VerifyFiredancer.Lemmas.Fctl
import Mathlib.Algebra.BigOperators.Group.Finset.Basic
import Mathlib.Algebra.Order.BigOperators.Group.Multiset

/-!
# The refill hysteresis

A transmitter refills from when its credits drop below `cr_refill` to when a query finds `cr_resume`. `OpInv` is what the calls
keep; with it an update only ever raises the credits (`update_raises`), and an operation either enters refilling and counts one
for the receiver that held its query down, or leaves the counters of slow receivers alone (`step_charge`). A query below
`cr_resume` is below `cr_max`, the bound it started from, so there is such a receiver.
-/

namespace VerifyFiredancer

open FirstMin FctlAux

/-- The ranges a transmitter is configured with, before it refills. -/
structure FdFctl.Configured (fctl : FdFctl) : Prop where
  burst_le : fctl.crBurst ≤ fctl.crResume
  resume_le : fctl.crResume ≤ fctl.crMax
  max_le : fctl.crMax.toNat ≤ longMax
  refill_pos : 1 ≤ fctl.crRefill.toNat
  refill_le : fctl.crRefill ≤ fctl.crResume
  inRefill : fctl.inRefill = 0

section Diff

variable (fdSeqDiff : Ulong → Ulong → Long)

/-- The receiver `k` is the most constraining one of the query of an update, and the first such. -/
def Slowest (s : FctlTx) (seqAt : Nat → Nat → Ulong) (k : Nat) : Prop :=
  ∃ rx v, s.fctl.rx[k]? = some rx ∧ rxCrQuery fdSeqDiff (seqAt k) s.txSeq rx = some v ∧
    ∀ j rx' w, s.fctl.rx[j]? = some rx' → rxCrQuery fdSeqDiff (seqAt j) s.txSeq rx' = some w → v ≤ w ∧ (j < k → v < w)

/-- The operation enters refilling. -/
def Enters (s s' : FctlTx) : Prop := s.fctl.inRefill = 0 ∧ s'.fctl.inRefill = 1

/-- A run with the receivers it charges: every operation that enters refilling is an update, and counts one for the slowest
receiver of its query; no other operation counts anything. -/
inductive Charges : FctlTx → List FctlOp → List Nat → FctlTx → Prop
  | nil (s : FctlTx) : Charges s [] [] s
  | enter {s s' s'' : FctlTx} {seqAt : Nat → Nat → Ulong} {ops : List FctlOp} {k : Nat} {ks : List Nat} {rx : FdFctlPrivateRx}
      (hstep : s.step fdSeqDiff (.update seqAt) = some s') (henter : Enters s s') (hslow : Slowest fdSeqDiff s seqAt k)
      (hrx : s.fctl.rx[k]? = some rx) (hcount : s'.slow = Function.update s.slow rx.slowLaddr (s.slow rx.slowLaddr + 1))
      (hrest : Charges s' ops ks s'') : Charges s (.update seqAt :: ops) (k :: ks) s''
  | other {s s' s'' : FctlTx} {op : FctlOp} {ops : List FctlOp} {ks : List Nat}
      (hstep : s.step fdSeqDiff op = some s') (henter : ¬Enters s s') (hcount : s'.slow = s.slow)
      (hrest : Charges s' ops ks s'') : Charges s (op :: ops) ks s''

/-- What holds after a run from `s` to `s'`: where the credits are while refilling, what a further update does to them, and
which receivers were charged for the entries into refilling. -/
structure Hysteresis (s : FctlTx) (ops : List FctlOp) (s' : FctlTx) : Prop where
  low : s'.fctl.inRefill = 1 → s'.crAvail < s.fctl.crRefill
  raises : ∀ seqAt s'', s'.step fdSeqDiff (.update seqAt) = some s'' →
    s'.crAvail ≤ s''.crAvail ∧ (s''.crAvail ≠ s'.crAvail → s.fctl.crResume ≤ s''.crAvail ∧ s''.crAvail ≤ s.fctl.crMax)
  charges : ∃ ks, Charges fdSeqDiff s ops ks s' ∧ (∑ k ∈ Finset.range s.fctl.rx.length, ks.count k = ks.length) ∧
    ∀ a, s'.slow a = s.slow a + BitVec.ofNat 64 (ks.countP fun k => (s.fctl.rx[k]?.map (·.slowLaddr)) = some a)

end Diff

namespace FctlHysteresisAux

variable {fdSeqDiff : Ulong → Ulong → Long}

/-! ## The query -/

/-- What a query finds is at most `cr_max`; when it is below, it is what the slowest receiver leaves, with its index. -/
theorem query_slowest (fdSeqDiff : Ulong → Ulong → Long) (s : FctlTx) (seqAt : Nat → Nat → Ulong) :
    (fdFctlCrQueryLoopAt fdSeqDiff seqAt s.txSeq s.fctl.rx 0 (s.fctl.crMax, ulongMax)).1 ≤ s.fctl.crMax ∧
      ((fdFctlCrQueryLoopAt fdSeqDiff seqAt s.txSeq s.fctl.rx 0 (s.fctl.crMax, ulongMax)).1 < s.fctl.crMax →
        ∃ k, k < s.fctl.rx.length ∧ Slowest fdSeqDiff s seqAt k ∧
          (fdFctlCrQueryLoopAt fdSeqDiff seqAt s.txSeq s.fctl.rx 0 (s.fctl.crMax, ulongMax)).2 = BitVec.ofNat 64 k) := by
  obtain ⟨hfst, hsnd⟩ : ScanAbs (fdFctlCrQueryLoopAt fdSeqDiff seqAt s.txSeq s.fctl.rx 0 (s.fctl.crMax, ulongMax)) _ :=
    queryLoopAt_scan s.fctl.rx 0 _ (s.fctl.crMax.toNat, none) ⟨rfl, rfl⟩
  simp only [Nat.zero_add] at hfst hsnd
  generalize hxs : s.fctl.rx.mapIdx (fun j rx => rxCrQuery fdSeqDiff (seqAt j) s.txSeq rx) = xs at hfst hsnd
  have hget : ∀ j rx w, s.fctl.rx[j]? = some rx → rxCrQuery fdSeqDiff (seqAt j) s.txSeq rx = some w → xs[j]? = some (some w) := by
    intro j rx w hrx hw
    rw [← hxs, List.getElem?_mapIdx, hrx, Option.map_some, hw]
  have hle := scan_fst_le xs 0 (s.fctl.crMax.toNat, none)
  refine ⟨BitVec.le_def.2 (hfst ▸ hle), fun hlt => ?_⟩
  rw [BitVec.lt_def, hfst] at hlt
  obtain ⟨k, hk, hfirst⟩ := (scan_snd xs 0 (s.fctl.crMax.toNat, none)).1 hlt
  have hat := hfirst.at_index
  rw [← hxs, List.getElem?_mapIdx, Option.map_eq_some_iff] at hat
  obtain ⟨rx, hrx, hv⟩ := hat
  refine ⟨k, (List.getElem?_eq_some_iff.1 hrx).1, ⟨rx, _, hrx, hv, fun j rx' w hrx' hw => ?_⟩, ?_⟩
  · have hj := hget j rx' w hrx' hw
    have hmin : (scan xs 0 (s.fctl.crMax.toNat, none)).1 ≤ w := by
      rw [scan_fst]
      refine foldl_min_le_of_mem ?_ _
      rw [List.mem_filterMap]
      exact ⟨some w, List.mem_of_getElem? hj, rfl⟩
    rw [hxs]
    refine ⟨hmin, fun hlt => Nat.lt_of_le_of_ne hmin fun e => hfirst.before j hlt ?_⟩
    rw [hj, e]
  · rw [hsnd, hk, Nat.zero_add]
    rfl

/-! ## One operation -/

/-- What an update does: nothing, or it ends refilling with what its query found, or it enters refilling and counts one for the
slowest receiver. -/
theorem update_cases {s s' : FctlTx} {seqAt : Nat → Nat → Ulong} (hresume : s.fctl.crResume ≤ s.fctl.crMax)
    (h : s.step fdSeqDiff (.update seqAt) = some s') :
    s' = s ∨
      (s.fctl.Queries s.crAvail ∧ ∃ q, s.fctl.crResume ≤ q ∧ q ≤ s.fctl.crMax ∧
        s' = { s with fctl := { s.fctl with inRefill := 0 }, crAvail := q }) ∨
      (s.fctl.Queries s.crAvail ∧ s.fctl.inRefill = 0 ∧ ∃ k rx, Slowest fdSeqDiff s seqAt k ∧ s.fctl.rx[k]? = some rx ∧
        s' = { s with
          fctl := { s.fctl with inRefill := 1 }
          slow := Function.update s.slow rx.slowLaddr (s.slow rx.slowLaddr + 1) }) := by
  obtain ⟨hmax, hslow⟩ := query_slowest fdSeqDiff s seqAt
  simp only [FctlTx.step, fdFctlTxCrUpdateAt, fdFctlTxCrUpdateQueried, Option.some.injEq] at h
  generalize fdFctlCrQueryLoopAt fdSeqDiff seqAt s.txSeq s.fctl.rx 0 (s.fctl.crMax, ulongMax) = query at h hmax hslow
  by_cases hq : s.fctl.Queries s.crAvail
  · rw [if_pos hq] at h
    by_cases hres : s.fctl.crResume ≤ query.1
    · rw [if_pos hres] at h
      exact Or.inr (Or.inl ⟨hq, query.1, hres, hmax, h.symm⟩)
    · rw [if_neg hres] at h
      by_cases hin : s.fctl.inRefill = 0
      · obtain ⟨k, hk, hfirst, hidx⟩ := hslow (BitVec.not_le.1 fun hge => hres (BitVec.le_trans hresume hge))
        have hlen : s.fctl.rx.length ≤ 65535 := s.fctl.rxCnt_le
        have htoNat : query.2.toNat = k := by
          rw [hidx, BitVec.toNat_ofNat]
          omega
        have hne : query.2 ≠ ulongMax := by
          intro e
          rw [e] at htoNat
          have hbig : (ulongMax : Ulong).toNat = 2 ^ 64 - 1 := rfl
          omega
        rw [if_pos hin, if_pos hne, htoNat, List.getElem?_eq_getElem hk] at h
        exact Or.inr (Or.inr ⟨hq, hin, k, s.fctl.rx[k], hfirst, List.getElem?_eq_getElem hk, h.symm⟩)
      · rw [if_neg hin] at h
        exact Or.inl h.symm
  · rw [if_neg hq] at h
    exact Or.inl h.symm

/-- What every operation of a transmitter configured as `fctl` keeps. -/
structure OpInv (fctl : FdFctl) (s : FctlTx) : Prop where
  config : s.fctl = { fctl with inRefill := s.fctl.inRefill }
  inRefill : s.fctl.inRefill = 0 ∨ s.fctl.inRefill = 1
  low : s.fctl.inRefill = 1 → s.crAvail < fctl.crRefill

/-- A query is made with credits below `cr_refill`. -/
theorem OpInv.low_of_queries {fctl : FdFctl} {s : FctlTx} (h : OpInv fctl s) (hq : s.fctl.Queries s.crAvail) :
    s.crAvail < fctl.crRefill := by
  rcases hq with hlt | hin
  · rw [h.config] at hlt
    exact hlt
  · exact h.low (h.inRefill.resolve_left hin)

section Op

variable {fctl : FdFctl} (hc : fctl.Configured) {s s' : FctlTx} (h : OpInv fctl s)
include hc h

theorem resume_le : s.fctl.crResume ≤ s.fctl.crMax := by
  rw [h.config]
  exact hc.resume_le

/-- An update raises the credits, if it changes them, to a number from `cr_resume` to `cr_max`. -/
theorem update_raises {seqAt : Nat → Nat → Ulong} (hstep : s.step fdSeqDiff (.update seqAt) = some s') :
    s.crAvail ≤ s'.crAvail ∧ (s'.crAvail ≠ s.crAvail → fctl.crResume ≤ s'.crAvail ∧ s'.crAvail ≤ fctl.crMax) := by
  rcases update_cases (resume_le hc h) hstep with rfl | ⟨hq, q, hresume, hmax, rfl⟩ | ⟨_, _, _, _, _, _, rfl⟩
  · exact ⟨BitVec.le_refl _, fun hne => absurd rfl hne⟩
  · rw [h.config] at hresume hmax
    have hlow := h.low_of_queries hq
    have hle := hc.refill_le
    refine ⟨?_, fun _ => ⟨hresume, hmax⟩⟩
    exact BitVec.le_trans (BitVec.le_of_lt hlow) (BitVec.le_trans hle hresume)
  · exact ⟨BitVec.le_refl _, fun hne => absurd rfl hne⟩

/-- Every operation keeps the invariant. -/
theorem step_inv {op : FctlOp} (hstep : s.step fdSeqDiff op = some s') : OpInv fctl s' := by
  cases op with
  | send n =>
    simp only [FctlTx.step, Option.ite_none_right_eq_some, Option.some.injEq] at hstep
    obtain ⟨hn, rfl⟩ := hstep
    refine ⟨h.config, h.inRefill, fun hin => ?_⟩
    have hlow := h.low hin
    rw [BitVec.le_def] at hn
    rw [BitVec.lt_def] at hlow ⊢
    rw [BitVec.toNat_sub_of_le (BitVec.le_def.2 hn)]
    omega
  | update seqAt =>
    rcases update_cases (resume_le hc h) hstep with rfl | ⟨_, q, _, _, rfl⟩ | ⟨hq, _, _, _, _, _, rfl⟩
    · exact h
    · refine ⟨?_, Or.inl rfl, fun hin => absurd hin Int.zero_ne_one⟩
      dsimp only
      rw [h.config]
    · have hlow := h.low_of_queries hq
      refine ⟨?_, Or.inr rfl, fun _ => hlow⟩
      dsimp only
      rw [h.config]

/-- An operation that does not enter refilling counts nothing; one that does is an update, and counts one. -/
theorem step_charge {op : FctlOp} (hstep : s.step fdSeqDiff op = some s') :
    (¬Enters s s' ∧ s'.slow = s.slow) ∨
      (Enters s s' ∧ ∃ seqAt k rx, op = .update seqAt ∧ Slowest fdSeqDiff s seqAt k ∧ s.fctl.rx[k]? = some rx ∧
        s'.slow = Function.update s.slow rx.slowLaddr (s.slow rx.slowLaddr + 1)) := by
  have hsame : ∀ {t : FctlTx}, t.fctl.inRefill = s.fctl.inRefill → ¬Enters s t := by
    rintro t heq ⟨h0, h1⟩
    rw [heq, h0] at h1
    exact absurd h1 (by decide)
  cases op with
  | send n =>
    simp only [FctlTx.step, Option.ite_none_right_eq_some, Option.some.injEq] at hstep
    obtain ⟨_, rfl⟩ := hstep
    exact Or.inl ⟨hsame rfl, rfl⟩
  | update seqAt =>
    rcases update_cases (resume_le hc h) hstep with rfl | ⟨_, q, _, _, rfl⟩ | ⟨_, hin, k, rx, hslow, hrx, rfl⟩
    · exact Or.inl ⟨hsame rfl, rfl⟩
    · exact Or.inl ⟨fun henter => absurd henter.2 Int.zero_ne_one, rfl⟩
    · exact Or.inr ⟨⟨hin, rfl⟩, seqAt, k, rx, rfl, hslow, hrx, rfl⟩

end Op

/-! ## Runs -/

/-- A run, with its charges and what they count. -/
theorem run_charges {fctl : FdFctl} (hc : fctl.Configured) (ops : List FctlOp) :
    ∀ s s' : FctlTx, OpInv fctl s → s.run fdSeqDiff ops = some s' →
      OpInv fctl s' ∧ ∃ ks, Charges fdSeqDiff s ops ks s' ∧ (∀ k ∈ ks, k < fctl.rx.length) ∧
        ∀ a, s'.slow a = s.slow a + BitVec.ofNat 64 (ks.countP fun k => (fctl.rx[k]?.map (·.slowLaddr)) = some a) := by
  induction ops with
  | nil =>
    intro s s' h hrun
    rw [FctlTx.run, List.foldlM_nil] at hrun
    obtain rfl := Option.some.inj hrun
    exact ⟨h, [], Charges.nil s, nofun, fun a => (BitVec.add_zero _).symm⟩
  | cons op ops ih =>
    intro s s'' h hrun
    rw [FctlTx.run, List.foldlM_cons, Option.bind_eq_bind, Option.bind_eq_some_iff] at hrun
    obtain ⟨s', hstep, hrest⟩ := hrun
    obtain ⟨h'', ks, hcharges, hlt, hslow⟩ := ih s' s'' (step_inv hc h hstep) hrest
    refine ⟨h'', ?_⟩
    rcases step_charge hc h hstep with ⟨henter, hcount⟩ | ⟨henter, seqAt, k, rx, rfl, hk, hrx, hcount⟩
    · rw [hcount] at hslow
      exact ⟨ks, Charges.other hstep henter hcount hcharges, hlt, hslow⟩
    · have hrx' : fctl.rx[k]? = some rx := by
        rw [h.config] at hrx
        exact hrx
      refine ⟨k :: ks, Charges.enter hstep henter hk hrx hcount hcharges, ?_, fun a => ?_⟩
      · rw [List.forall_mem_cons]
        exact ⟨(List.getElem?_eq_some_iff.1 hrx').1, hlt⟩
      · rw [hslow a, hcount, List.countP_cons, hrx', Option.map_some]
        by_cases ha : rx.slowLaddr = a
        · subst ha
          simp only [Function.update_self, decide_true, if_true, BitVec.ofNat_add]
          rw [BitVec.add_assoc, BitVec.add_comm 1]
          rfl
        · have hne : ¬some rx.slowLaddr = some a := fun e => ha (Option.some.inj e)
          rw [Function.update_of_ne (Ne.symm ha)]
          simp [hne]

end FctlHysteresisAux

open FctlHysteresisAux

/-- After any run of updates and sends, whatever the receivers publish and whenever, the refill hysteresis holds. -/
theorem fctl_hysteresis (fdSeqDiff : Ulong → Ulong → Long) (s s' : FctlTx) (ops : List FctlOp) (hc : s.fctl.Configured)
    (hrun : s.run fdSeqDiff ops = some s') : Hysteresis fdSeqDiff s ops s' := by
  have hinit : OpInv s.fctl s := by
    refine ⟨rfl, Or.inl hc.inRefill, fun hin => ?_⟩
    rw [hc.inRefill] at hin
    exact absurd hin Int.zero_ne_one
  obtain ⟨h, ks, hcharges, hlt, hslow⟩ := run_charges hc ops s s' hinit hrun
  refine ⟨h.low, fun seqAt s'' hstep => update_raises hc h hstep, ks, hcharges, ?_, hslow⟩
  have hsum := Multiset.sum_count_eq_card (s := Finset.range s.fctl.rx.length) (m := (ks : Multiset Nat))
    fun k hk => Finset.mem_range.2 (hlt k hk)
  simpa using hsum

/-- An update that finds the second receiver 30 behind, one that finds it caught up, and a send. -/
theorem fctl_hysteresis_two :
    Hysteresis (fun a b => a - b)
      ⟨⟨0, 8, 32, 12, 10, [⟨32, some 0, 0⟩, ⟨32, some 1, 1⟩], by decide⟩, fun _ => 0, 40, 0⟩
      [.update fun _ a => if a = 0 then 40 else 10, .update fun _ _ => 40, .send 8]
      ⟨⟨0, 8, 32, 12, 10, [⟨32, some 0, 0⟩, ⟨32, some 1, 1⟩], by decide⟩, Function.update (fun _ => 0) 1 1, 48, 24⟩ :=
  fctl_hysteresis _ _ _ _ ⟨by decide, by decide, by decide, by decide, by decide, rfl⟩ rfl

end VerifyFiredancer
