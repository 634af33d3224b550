import VerifyFiredancer.Lemmas.Fctl
import VerifyFiredancer.Lib.CreditFlow

/-!
# A transmitter never overruns a receiver

The system of a transmitter and its receivers, in which receivers go on between the reads of one query and every sequence
number wraps, is simulated by credit-based flow control over counts that do not wrap (`CreditFlow`): `FctlSim` is the relation,
`FctlFlowAux.sim_step` the simulation of one step. The limits are the active receivers, named by the address they publish at,
with `cr_max` as the window. What holds of the counts holds of the words because no lag reaches half the range.
-/

namespace VerifyFiredancer

open FctlAux CreditFlow

/-- The limits of a list of receivers: the active ones, with their `cr_max`. -/
def fctlLimits (rxs : List FdFctlPrivateRx) : List (Limit Nat) :=
  rxs.filterMap fun rx => rx.seqLaddr.map fun a => ⟨a, rx.crMax.toInt.toNat⟩

/-- The system is, from the sequence number `seq0` on, where the counts are. -/
structure FctlSim (rxs : List FdFctlPrivateRx) (seq0 : Ulong) (s : FctlSys) (t : Flow Nat) : Prop where
  rx : s.fctl.rx = rxs
  txSeq : s.txSeq = seq0 + BitVec.ofNat 64 t.sent
  crAvail : s.crAvail.toNat = t.credit
  rxSeq : ∀ a, s.fctl.Active a → s.rxSeq a = seq0 + BitVec.ofNat 64 (t.consumed a)
  seq : ∀ a, s.fctl.Active a → s.seq a = seq0 + BitVec.ofNat 64 (t.published a)
  pc : t.looking = match s.pc with
    | .run => none
    | .query _ rxIdx acc => some (fctlLimits (rxs.drop rxIdx), acc.1.toNat)

namespace FctlFlowAux

/-- A difference of positions is the difference of the counts. -/
theorem lag_toNat (seq0 : Ulong) {x y : Nat} (hle : y ≤ x) (hlt : x - y < 2 ^ 64) :
    (seq0 + BitVec.ofNat 64 x - (seq0 + BitVec.ofNat 64 y)).toNat = x - y := by
  have := seq0.isLt
  rw [BitVec.toNat_sub, BitVec.toNat_add, BitVec.toNat_add, BitVec.toNat_ofNat, BitVec.toNat_ofNat]
  omega

/-- An active receiver is a limit. -/
theorem mem_limits {rxs : List FdFctlPrivateRx} {rx : FdFctlPrivateRx} {a : Nat} (hrx : rx ∈ rxs) (ha : rx.seqLaddr = some a) :
    ⟨a, rx.crMax.toInt.toNat⟩ ∈ fctlLimits rxs :=
  List.mem_filterMap.2 ⟨rx, hrx, by rw [ha]; rfl⟩

section Sim

variable {rxs : List FdFctlPrivateRx} {seq0 : Ulong} {s s' : FctlSys} {t : Flow Nat}

/-- What an active receiver has not consumed, and what it has not published, in counts and in words. -/
theorem sim_lags (h : FctlSim rxs seq0 s t) (hinv : Inv (fctlLimits rxs) t) {rx : FdFctlPrivateRx} (hrx : rx ∈ rxs) {a : Nat}
    (ha : rx.seqLaddr = some a) :
    (s.txSeq - s.rxSeq a).toNat = t.sent - t.consumed a ∧ (s.txSeq - s.seq a).toNat = t.sent - t.published a ∧
      t.sent - t.published a ≤ rx.crMax.toInt.toNat := by
  have hact : s.fctl.Active a := ⟨rx, by rw [h.rx]; exact hrx, ha⟩
  have hwin := (hinv.credit_le_sub (mem_limits hrx ha)).1
  have hcons := hinv.consumed_le a
  have hpub := hinv.published_le a
  have hmax : rx.crMax.toInt < 2 ^ 63 := BitVec.toInt_lt
  dsimp only at hwin
  rw [h.txSeq, h.rxSeq a hact, h.seq a hact, lag_toNat seq0 hcons (by omega), lag_toNat seq0 (by omega) (by omega)]
  exact ⟨rfl, rfl, hwin⟩

/-- What an update does with a query leaves the receivers as they are. -/
theorem updateQueried_rx (fctl : FdFctl) (slow : Nat → Ulong) (crAvail : Ulong) (inRefill : Int) (query : Ulong × Ulong) :
    (fdFctlTxCrUpdateQueried fctl slow crAvail inRefill query).1.rx = fctl.rx := by
  unfold fdFctlTxCrUpdateQueried
  dsimp only
  split_ifs <;> rfl

/-- It takes the credits of the query, or keeps those there are. -/
theorem updateQueried_crAvail (fctl : FdFctl) (slow : Nat → Ulong) (crAvail : Ulong) (inRefill : Int) (query : Ulong × Ulong) :
    (fdFctlTxCrUpdateQueried fctl slow crAvail inRefill query).2.2 = query.1 ∨
      (fdFctlTxCrUpdateQueried fctl slow crAvail inRefill query).2.2 = crAvail := by
  unfold fdFctlTxCrUpdateQueried
  dsimp only
  split_ifs
  · exact Or.inl rfl
  · exact Or.inr rfl
  · exact Or.inr rfl
  · exact Or.inr rfl

variable {fdSeqDiff : Ulong → Ulong → Long}

/-- Every step of the system is a step of the counts, or none. -/
theorem sim_step (hdiff : ∀ a b, fdSeqDiff a b = a - b) (hcr : ∀ rx ∈ rxs, rx.seqLaddr ≠ none → 1 ≤ rx.crMax.toInt)
    (h : FctlSim rxs seq0 s t) (hinv : Inv (fctlLimits rxs) t) (hs : FctlStep fdSeqDiff s s') :
    ∃ t', (t' = t ∨ CreditFlow.Step (fctlLimits rxs) t t') ∧ FctlSim rxs seq0 s' t' := by
  cases hs with
  | send n hpc hn =>
    have hl : t.looking = none := by rw [h.pc, hpc]
    rw [BitVec.le_def] at hn
    refine ⟨_, Or.inr (.send t n.toNat hl (by rw [← h.crAvail]; exact hn)), ⟨h.rx, ?_, ?_, h.rxSeq, h.seq, h.pc⟩⟩
    · show s.txSeq + n = _
      rw [h.txSeq, BitVec.ofNat_add, BitVec.ofNat_toNat, BitVec.setWidth_eq, BitVec.add_assoc]
    · show (s.crAvail - n).toNat = _
      rw [BitVec.toNat_sub_of_le (BitVec.le_def.2 hn), h.crAvail]
  | skip hpc hq => exact ⟨t, Or.inl rfl, h⟩
  | start hpc hq =>
    have hl : t.looking = none := by rw [h.pc, hpc]
    exact ⟨_, Or.inr (.ask t s.fctl.crMax.toNat hl), ⟨h.rx, h.txSeq, h.crAvail, h.rxSeq, h.seq, rfl⟩⟩
  | read inRefill rxIdx acc rx hpc hrx =>
    have hl : t.looking = some (fctlLimits (rxs.drop rxIdx), acc.1.toNat) := by rw [h.pc, hpc]
    rw [h.rx] at hrx
    obtain ⟨hlt, rfl⟩ := List.getElem?_eq_some_iff.1 hrx
    have hmem : rxs[rxIdx] ∈ rxs := List.getElem_mem hlt
    rw [List.drop_eq_getElem_cons hlt, fctlLimits, List.filterMap_cons] at hl
    cases ha : rxs[rxIdx].seqLaddr with
    | none =>
      -- an inactive receiver is no limit
      rw [ha] at hl
      refine ⟨t, Or.inl rfl, ⟨h.rx, h.txSeq, h.crAvail, h.rxSeq, h.seq, ?_⟩⟩
      simp only [fdFctlCrQueryRx, ha]
      exact hl
    | some a =>
      rw [ha] at hl
      obtain ⟨_, hlag, hwin⟩ := sim_lags h hinv hmem ha
      have hmax : rxs[rxIdx].crMax.toInt < 2 ^ 63 := BitVec.toInt_lt
      have hhalf : (s.txSeq - s.seq a).toNat < 2 ^ 63 := by omega
      have hval := queryRx_toNat hdiff (BitVec.ofNat 64 rxIdx) acc ha
        (hcr _ hmem (by rw [ha]; exact Option.some_ne_none a)) hhalf
      refine ⟨_, Or.inr (.look t _ _ _ hl), ⟨h.rx, h.txSeq, h.crAvail, h.rxSeq, h.seq, ?_⟩⟩
      rw [hlag] at hval
      simp only [hval]
      rfl
  | finish inRefill rxIdx acc hpc hrx =>
    have hl : t.looking = some ([], acc.1.toNat) := by
      rw [h.rx] at hrx
      rw [h.pc, hpc]
      simp only [List.drop_of_length_le hrx]
      rfl
    have hsame := updateQueried_rx s.fctl s.slow s.crAvail inRefill acc
    have hact : ∀ a, (fdFctlTxCrUpdateQueried s.fctl s.slow s.crAvail inRefill acc).1.Active a → s.fctl.Active a := by
      rintro a ⟨rx, hmem, ha⟩
      exact ⟨rx, by rw [← hsame]; exact hmem, ha⟩
    rcases updateQueried_crAvail s.fctl s.slow s.crAvail inRefill acc with hcredit | hcredit
    · refine ⟨_, Or.inr (.grant t _ hl), ⟨hsame.trans h.rx, h.txSeq, congrArg BitVec.toNat hcredit, ?_, ?_, rfl⟩⟩
      · exact fun a ha => h.rxSeq a (hact a ha)
      · exact fun a ha => h.seq a (hact a ha)
    · refine ⟨_, Or.inr (.decline t _ hl), ⟨hsame.trans h.rx, h.txSeq, ?_, ?_, ?_, rfl⟩⟩
      · exact (congrArg BitVec.toNat hcredit).trans h.crAvail
      · exact fun a ha => h.rxSeq a (hact a ha)
      · exact fun a ha => h.seq a (hact a ha)
  | consume a n ha hn =>
    obtain ⟨rx, hmem, hrx⟩ := ha
    obtain ⟨hlag, _, _⟩ := sim_lags h hinv (by rw [← h.rx]; exact hmem) hrx
    have hcons := hinv.consumed_le a
    rw [BitVec.le_def, hlag] at hn
    refine ⟨_, Or.inr (.consume t a n.toNat (by omega)), ⟨h.rx, h.txSeq, h.crAvail, ?_, h.seq, h.pc⟩⟩
    intro b hb
    by_cases hba : b = a
    · subst hba
      simp only [Function.update_self]
      rw [h.rxSeq b hb, BitVec.ofNat_add, BitVec.ofNat_toNat, BitVec.setWidth_eq, BitVec.add_assoc]
    · simp only [Function.update_of_ne hba]
      exact h.rxSeq b hb
  | publish a ha =>
    refine ⟨_, Or.inr (.publish t a), ⟨h.rx, h.txSeq, h.crAvail, h.rxSeq, ?_, h.pc⟩⟩
    intro b hb
    by_cases hba : b = a
    · subst hba
      simp only [fdFctlRxCrReturn, Function.update_self]
      exact h.rxSeq b hb
    · simp only [fdFctlRxCrReturn, Function.update_of_ne hba]
      exact h.seq b hb

/-- The reads of a query that nothing comes between are the loop of `fd_fctl_cr_query`. -/
theorem reads_run (s : FctlSys) (inRefill : Int) (rest : List FdFctlPrivateRx) :
    ∀ (rxIdx : Nat) (acc : Ulong × Ulong), s.fctl.rx.drop rxIdx = rest → rxIdx ≤ s.fctl.rx.length →
      FctlRun fdSeqDiff { s with pc := .query inRefill rxIdx acc }
        { s with pc := .query inRefill s.fctl.rx.length (fdFctlCrQueryLoop fdSeqDiff s.seq s.txSeq rest rxIdx acc) } := by
  induction rest with
  | nil =>
    intro rxIdx acc hdrop hle
    have hlen : rxIdx = s.fctl.rx.length := Nat.le_antisymm hle (List.drop_eq_nil_iff.1 hdrop)
    rw [hlen]
    exact Relation.ReflTransGen.refl
  | cons rx rest ih =>
    intro rxIdx acc hdrop hle
    have hlt : rxIdx < s.fctl.rx.length := by
      refine Nat.lt_of_le_of_ne hle fun he => ?_
      rw [he, List.drop_length] at hdrop
      cases hdrop
    rw [List.drop_eq_getElem_cons hlt, List.cons.injEq] at hdrop
    obtain ⟨hrx, hrest⟩ := hdrop
    refine Relation.ReflTransGen.head ?_ (ih (rxIdx + 1) _ hrest hlt)
    exact FctlStep.read { s with pc := .query inRefill rxIdx acc } inRefill rxIdx acc rx rfl
      (by rw [← hrx]; exact List.getElem?_eq_getElem hlt)

/-- An update that nothing comes between is `fd_fctl_tx_cr_update`. -/
theorem update_run (s : FctlSys) (hpc : s.pc = .run) :
    FctlRun fdSeqDiff s
      { s with
        fctl := (fdFctlTxCrUpdate fdSeqDiff s.seq s.slow s.fctl s.crAvail s.txSeq).1
        slow := (fdFctlTxCrUpdate fdSeqDiff s.seq s.slow s.fctl s.crAvail s.txSeq).2.1
        crAvail := (fdFctlTxCrUpdate fdSeqDiff s.seq s.slow s.fctl s.crAvail s.txSeq).2.2 } := by
  unfold fdFctlTxCrUpdate
  by_cases hq : s.fctl.Queries s.crAvail
  · simp only [if_pos hq]
    have hreads : FctlRun fdSeqDiff _ _ :=
      reads_run s s.fctl.inRefill s.fctl.rx 0 (s.fctl.crMax, ulongMax) List.drop_zero (Nat.zero_le _)
    have hfinish : FctlStep fdSeqDiff _ _ := FctlStep.finish
      { s with pc := .query s.fctl.inRefill s.fctl.rx.length (fdFctlCrQuery fdSeqDiff s.seq s.fctl s.txSeq) } s.fctl.inRefill
      s.fctl.rx.length _ rfl (Nat.le_refl _)
    rw [← hpc] at hfinish
    exact (Relation.ReflTransGen.head (FctlStep.start s hpc hq) hreads).tail hfinish
  · simp only [if_neg hq]
    exact Relation.ReflTransGen.refl

/-- Every run of the system is a run of the counts. -/
theorem sim_run (hdiff : ∀ a b, fdSeqDiff a b = a - b) {s0 : FctlSys} (h0 : s0.Initial)
    (hcr : ∀ rx ∈ s0.fctl.rx, rx.seqLaddr ≠ none → 1 ≤ rx.crMax.toInt) (hrun : FctlRun fdSeqDiff s0 s) :
    ∃ t, FctlSim s0.fctl.rx s0.txSeq s t ∧ Inv (fctlLimits s0.fctl.rx) t := by
  induction hrun with
  | refl =>
    refine ⟨⟨0, 0, fun _ => 0, fun _ => 0, none⟩, ⟨rfl, ?_, ?_, ?_, ?_, ?_⟩, Inv.start _⟩
    · exact (BitVec.add_zero _).symm
    · rw [h0.crAvail]
      rfl
    · exact fun a ha => (h0.rxSeq a ha).trans (BitVec.add_zero _).symm
    · exact fun a ha => (h0.seq a ha).trans (BitVec.add_zero _).symm
    · rw [h0.pc]
  | tail _ hstep ih =>
    obtain ⟨t, hsim, hinv⟩ := ih
    obtain ⟨t', hor, hsim'⟩ := sim_step hdiff hcr hsim hinv hstep
    rcases hor with rfl | hflow
    · exact ⟨_, hsim', hinv⟩
    · exact ⟨t', hsim', hinv.step hflow⟩

end Sim

end FctlFlowAux

open FctlFlowAux

/-- In every state of every run, no active receiver has more to consume than its `cr_max`, and the credits are at most what is
left of `cr_max` behind the position it published. -/
theorem fctl_never_overruns (fdSeqDiff : Ulong → Ulong → Long) (hdiff : ∀ a b, fdSeqDiff a b = a - b) (s0 s : FctlSys)
    (h0 : s0.Initial) (hcr : ∀ rx ∈ s0.fctl.rx, rx.seqLaddr ≠ none → 1 ≤ rx.crMax.toInt) (hrun : FctlRun fdSeqDiff s0 s) :
    ∀ rx ∈ s0.fctl.rx, ∀ a, rx.seqLaddr = some a →
      ((s.txSeq - s.rxSeq a).toNat : Int) ≤ rx.crMax.toInt ∧
        (s.crAvail.toNat : Int) ≤ rx.crMax.toInt - (s.txSeq - s.seq a).toNat := by
  intro rx hrx a ha
  obtain ⟨t, hsim, hinv⟩ := sim_run hdiff h0 hcr hrun
  obtain ⟨hcons, hpub, _⟩ := sim_lags hsim hinv hrx ha
  have hlag := hinv.lag_le (mem_limits hrx ha)
  have hcredit := hinv.credit_le_sub (mem_limits hrx ha)
  have hpos := hcr rx hrx (by rw [ha]; exact Option.some_ne_none a)
  dsimp only at hlag hcredit
  rw [hcons, hpub, hsim.crAvail]
  omega

/-- One receiver and a whole update: the receiver is read, grants its 16 credits, and 3 of them are spent. -/
theorem fctl_never_overruns_one :
    ∃ s : FctlSys, s.txSeq = 2 ∧ s.crAvail = 13 ∧ ∀ rx ∈ [(⟨16, some 0, 0⟩ : FdFctlPrivateRx)], ∀ a, rx.seqLaddr = some a →
      ((s.txSeq - s.rxSeq a).toNat : Int) ≤ rx.crMax.toInt ∧
        (s.crAvail.toNat : Int) ≤ rx.crMax.toInt - (s.txSeq - s.seq a).toNat := by
  -- the sequence numbers wrap: the run starts one before zero
  let s0 : FctlSys := ⟨⟨0, 8, 16, 12, 10, [⟨16, some 0, 0⟩], by decide⟩, .run, ulongMax, 0, fun _ => ulongMax,
    fun _ => ulongMax, fun _ => 0⟩
  have hrun := ((((Relation.ReflTransGen.refl (r := FctlStep fun a b => a - b)).tail
    (FctlStep.start s0 rfl (Or.inl (by decide)))).tail
    (FctlStep.read _ 0 0 (16, ulongMax) ⟨16, some 0, 0⟩ rfl rfl)).tail
    (FctlStep.finish _ 0 1 _ rfl (by decide))).tail
    (FctlStep.send _ 3 rfl (by decide))
  refine ⟨_, ?_, ?_, fctl_never_overruns (fun a b => a - b) (fun _ _ => rfl) s0 _ ⟨rfl, rfl, fun _ _ => rfl, fun _ _ => rfl⟩
    (by decide) hrun⟩
  · decide
  · decide

end VerifyFiredancer
