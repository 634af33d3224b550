import VerifyFiredancer.Lemmas.TangoRun

/-!
# What `seq[0]` of a mcache promises

A transmitter updates `seq[0]` now and then. Whatever is read from it is a sequence number before which everything was published:
a query for one of these finds it, or finds the mcache a depth less one further, or more. And what is read later is not before it.
-/

namespace VerifyFiredancer

open McacheAux TangoAux CreditFlow Seqlock

variable {cfg : McacheCfg}

namespace TangoAux

section Sync

variable {rxs : List FdFctlPrivateRx} {args : Nat → PublishArgs} {s t : TangoSys cfg}
  {cells : Fin cfg.depth.toNat → Cell FragField Nat} {flow : Flow Nat} {base : FdTangoBase}

/-- A publication stays published. -/
theorem published_le_step (hs : TangoStep base args s t) : s.published ≤ t.published := by
  rcases hs with hs | ⟨a, hs⟩
  · cases hs with
    | send txCnt first r ht hn hs => exact (publish_begun hs).1
    | _ => exact Nat.le_refl _
  · exact Nat.le_of_eq (onlyRx_step hs).published.symm

/-- `seq[0]` goes up in a step, or stays. -/
theorem sync_step (h : TangoInv rxs args s cells flow) (hs : TangoStep base args s t) {m : Nat} (hm : m ≤ s.published)
    (hseq : s.seqSync = cfg.seq m) : ∃ m', m ≤ m' ∧ m' ≤ t.published ∧ t.seqSync = cfg.seq m' := by
  have hpub := published_le_step hs
  rcases hs with hs | ⟨a, hs⟩
  · cases hs with
    | seqUpdate hl =>
      have htx := h.tx
      rw [hl] at htx
      exact ⟨s.published, hm, Nat.le_refl _, htx.2⟩
    | _ => exact ⟨m, Nat.le_refl m, Nat.le_trans hm hpub, hseq⟩
  · cases hs <;> exact ⟨m, Nat.le_refl m, hm, hseq⟩

/-- `seq[0]` goes up in a run. -/
theorem sync_run (hbase : base.Documented) (hcr : ∀ rx ∈ rxs, rx.seqLaddr ≠ none → 1 ≤ rx.crMax.toInt)
    (h : TangoInv rxs args s cells flow) {m : Nat} (hm : m ≤ s.published) (hseq : s.seqSync = cfg.seq m)
    (hrun : TangoRun base args s t) (hb : t.begun < 2 ^ 62) : ∃ m', m ≤ m' ∧ m' ≤ t.published ∧ t.seqSync = cfg.seq m' := by
  induction hrun with
  | refl => exact ⟨m, Nat.le_refl m, hm, hseq⟩
  | tail hrun hstep ih =>
    have hb' := Nat.lt_of_le_of_lt (begun_le hstep) hb
    obtain ⟨k, hmk, hk, hkseq⟩ := ih hb'
    obtain ⟨cells', flow', h'⟩ := inv_tangoRun hbase hcr h hrun hb'
    obtain ⟨l, hkl, hl, hlseq⟩ := sync_step h' hstep hk hkseq
    exact ⟨l, Nat.le_trans hmk hkl, hl, hlseq⟩

/-- The transmitter publishes any number of fragments and then updates `seq[0]`. -/
theorem publish_sync_run (hbase : base.Documented) (hcr : ∀ rx ∈ rxs, rx.seqLaddr ≠ none → 1 ≤ rx.crMax.toInt)
    (h : TangoInv rxs args s cells flow) (hlive : Live s.flow.fctl) (hl : s.tx = .loop) (n : Nat)
    (hb : s.published + n < 2 ^ 62) :
    ∃ t, TangoRun base args s t ∧ t.published = s.published + n ∧ t.tx = .loop ∧
      fdMcacheSeqQuery t.seqSync = cfg.seq t.published ∧ ∃ cells' flow', TangoInv rxs args t cells' flow' := by
  obtain ⟨t, hrun, hpub, htl, cells', flow', h'⟩ := publishes_run hbase hcr h hlive hl n hb
  have hsync : TangoStep base args t _ := Or.inl (.seqUpdate t htl)
  exact ⟨_, (tango_of_active hrun).tail hsync, hpub, htl, (txSeq_of_loop h' htl).2, cells', flow', inv_seqUpdate h' htl⟩

end Sync

end TangoAux

/-- In every state of every run, with less than `2^62` publications begun, what `fd_mcache_seq_query` reads is a number before
which everything is published: `fd_mcache_query` for a number before it, then or later, returns that number, or one that is at
least a depth less one further. What is read in a later state is not before it. -/
theorem mcache_seq_published (base : FdTangoBase) (hbase : base.Documented) (args : Nat → PublishArgs) (s0 s t : TangoSys cfg)
    (h0 : s0.Initial) (hcr : ∀ rx ∈ s0.flow.fctl.rx, rx.seqLaddr ≠ none → 1 ≤ rx.crMax.toInt)
    (hrun : TangoRun base args s0 s) (hlater : TangoRun base args s t) (hb : t.begun < 2 ^ 62) :
    ∃ m m', m ≤ s.published ∧ m ≤ m' ∧ m' ≤ t.published ∧ fdMcacheSeqQuery s.seqSync = cfg.seq m ∧
      fdMcacheSeqQuery t.seqSync = cfg.seq m' ∧
      ∀ n < m, fdMcacheQuery base.fdFragMetaSeqQuery t.mcache (cfg.seq n) = cfg.seq n ∨
        ∃ y, fdMcacheQuery base.fdFragMetaSeqQuery t.mcache (cfg.seq n) = cfg.seq y ∧ n + cfg.depth.toNat ≤ y + 1 ∧
          y ≤ t.published := by
  have hle : s.begun ≤ t.begun := by
    clear hb
    induction hlater with
    | refl => exact Nat.le_refl _
    | tail _ hstep ih => exact Nat.le_trans ih (begun_le hstep)
  obtain ⟨cells, flow, h⟩ := inv_run hbase h0 hcr hrun (Nat.lt_of_le_of_lt hle hb)
  obtain ⟨m, hm, hseq⟩ := h.sync
  obtain ⟨m', hmm, hm', hseq'⟩ := sync_run hbase hcr h hm hseq hlater hb
  obtain ⟨cells', flow', h'⟩ := inv_tangoRun hbase hcr h hlater hb
  refine ⟨m, m', hm, hmm, hm', hseq, hseq', fun n hn => ?_⟩
  have hquery : fdMcacheQuery base.fdFragMetaSeqQuery t.mcache (cfg.seq n) = (t.mcache (cfg.line (cfg.seq n))).seq := hbase.query _
  rw [hquery]
  have hpub := published_le_begun t
  rcases came_later (h'.mcache.came (cfg.line (cfg.seq n))) (h'.stored n (by omega)) with ⟨_, hsame, _⟩ | ⟨y, hy, hskip, hlt, _⟩
  · exact Or.inl hsame
  · have hlt : y < t.begun := hlt
    exact Or.inr ⟨y, hy, hskip, by omega⟩

/-- `seq[0]` is updated after the first fragment and again 128 fragments later, when a query for the first one finds a later. -/
theorem mcache_seq_published_lap :
    ∃ s t : TangoSys blockCfg, TangoRun FdTangoBase.words countingArgs (TangoSys.new blockCfg twoRx 5) s ∧
      fdMcacheSeqQuery s.seqSync = blockCfg.seq 1 ∧ TangoRun FdTangoBase.words countingArgs s t ∧ t.published = 129 ∧
      fdMcacheSeqQuery t.seqSync = blockCfg.seq 129 ∧
      ∃ y, fdMcacheQuery FdTangoBase.words.fdFragMetaSeqQuery t.mcache (blockCfg.seq 0) = blockCfg.seq y ∧
        0 + blockCfg.depth.toNat ≤ y + 1 ∧ y ≤ t.published := by
  have hbase := FdTangoBase.words_documented
  have h0 : (TangoSys.new blockCfg twoRx 5).Initial := new_initial twoRx (by decide)
  have hcr : ∀ rx ∈ twoRx.rx, rx.seqLaddr ≠ none → 1 ≤ rx.crMax.toInt := fun rx hrx _ => twoRx_live.crMax_pos hrx
  obtain ⟨_, _, hnew⟩ : ∃ cells flow, TangoInv twoRx.rx countingArgs (TangoSys.new blockCfg twoRx 5) cells flow :=
    inv_initial h0
  obtain ⟨s, hrun, hpub, hl, hs, _, _, h⟩ := publish_sync_run hbase hcr hnew twoRx_live rfl 1 (by decide)
  have hpub : s.published = 1 := hpub
  obtain ⟨t, hlater, htpub, htl, ht, _, _, h'⟩ :=
    publish_sync_run hbase hcr h (twoRx_live.run hrun) hl 128 (by rw [hpub]; decide)
  rw [hpub] at htpub hs
  rw [htpub] at ht
  have hbegun := (txSeq_of_loop h' htl).1.trans htpub
  obtain ⟨m, _, hm, _, _, hsm, _, hquery⟩ := mcache_seq_published FdTangoBase.words hbase countingArgs _ s t h0 hcr hrun hlater
    (by rw [hbegun]; decide)
  obtain rfl : m = 1 := by
    rw [hpub] at hm
    exact (eq_of_seq (hs.symm.trans hsm) hm (by omega)).symm
  rcases hquery 0 Nat.one_pos with hzero | hlate
  · -- the first fragment is not on its line any more
    have hsame : blockCfg.line (blockCfg.seq 0) = blockCfg.line (blockCfg.seq 128) := by decide
    have hline : (t.mcache (blockCfg.line (blockCfg.seq 128))).seq = blockCfg.seq 128 :=
      line_of_recent h' (by omega) (by rw [hbegun]; decide)
    have hzero : (t.mcache (blockCfg.line (blockCfg.seq 0))).seq = blockCfg.seq 0 := hzero
    rw [hsame, hline] at hzero
    exact absurd hzero (by decide)
  · exact ⟨s, t, hrun, hs, hlater, htpub, ht, hlate⟩

end VerifyFiredancer
