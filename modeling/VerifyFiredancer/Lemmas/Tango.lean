import VerifyFiredancer.Tango
import VerifyFiredancer.Lemmas.McachePosition
import VerifyFiredancer.Theorems.FctlFlow

/-!
# The invariant of the run loops

The system is a mcache with its cells (`McacheSim`) and a flow of credits (`FctlSim`) at a time. The flow counts a fragment of a
burst as sent when its publication begins, so `cr_max` bounds what a receiver may be behind the line that is written. A receiver
is at the position `x` of its `rx_seq`; the sequence numbers of a line only go up (`seq_le_of_publish`), so one that is found or
reread there is `x`, or it is at least a depth less one later (`came_later`).
-/

namespace VerifyFiredancer

open McacheAux FctlFlowAux Seqlock CreditFlow

variable {cfg : McacheCfg}

/-- The flow in which what a burst has begun is sent. -/
def TangoSys.flowAhead (s : TangoSys cfg) : FctlSys :=
  match s.tx with
  | .loop => s.flow
  | .burst _ first =>
    { s.flow with
      txSeq := s.flow.txSeq + BitVec.ofNat 64 (s.begun - first)
      crAvail := s.flow.crAvail - BitVec.ofNat 64 (s.begun - first) }

/-- The transmitter: between two bursts `tx_seq` is the next to publish, and a burst has the credits for all of it. -/
def TxInv (s : TangoSys cfg) : TxPc → Prop
  | .loop => s.producer = .ready ∧ s.flow.txSeq = cfg.seq s.published
  | .burst txCnt first => s.flow.pc = .run ∧ s.flow.txSeq = cfg.seq first ∧ first ≤ s.published ∧
      s.begun ≤ first + txCnt.toNat ∧ txCnt ≤ s.flow.crAvail

/-- A wait for the number `x`. What it found on its line is not before what is there now. -/
def WaitFor (mcache : Mcache cfg) (x : Nat) : WaitPc → Prop
  | .idle => False
  | .found seqExpected _ _ => seqExpected = cfg.seq x
  | .copy seqExpected _ _ seqFound _ | .decide seqExpected _ _ seqFound _ | .done seqExpected _ _ seqFound _ =>
    seqExpected = cfg.seq x ∧ cfg.off seqFound ≤ cfg.off (mcache (cfg.line (cfg.seq x))).seq

/-- A receiver that has the position `x`. -/
def RxInv (args : Nat → PublishArgs) (cells : Fin cfg.depth.toNat → Cell FragField Nat) (s : TangoSys cfg) (x : Nat) :
    RxPc → Prop
  | .off => False
  | .loop _ => True
  | .wait pc => WaitInv args s.begun cells pc ∧ WaitFor s.mcache x pc
  | .process _ frag => frag = cfg.frag args x ∧ (x : Int) ≤ cfg.off (s.mcache (cfg.line (cfg.seq x))).seq

/-- The log of a receiver that joined at `start` and is at a position now. It received the fragments in order, with the metadata
that were published; an overrun skips only what the mcache does not have any more, and is one of a receiver that may lag. -/
inductive RxLog (cfg : McacheCfg) (args : Nat → PublishArgs) (mayLag : Prop) (start : Nat) : List RxEvent → Nat → Prop
  | joined : RxLog cfg args mayLag start [.joined (cfg.seq start)] start
  | received (log : List RxEvent) (x : Nat) (h : RxLog cfg args mayLag start log x) :
      RxLog cfg args mayLag start (log ++ [.received (cfg.seq x) (cfg.frag args x)]) (x + 1)
  | overrun (log : List RxEvent) (x y : Nat) (h : RxLog cfg args mayLag start log x) (hlag : mayLag)
      (hskip : x + cfg.depth.toNat ≤ y + 1) :
      RxLog cfg args mayLag start (log ++ [.overrun (cfg.seq x) (cfg.seq y)]) y

/-- An active receiver publishes at the address. -/
def ActiveRx (rxs : List FdFctlPrivateRx) (a : Nat) : Prop := ∃ rx ∈ rxs, rx.seqLaddr = some a

/-- An active receiver publishes at the address, and the mcache is deep enough for its `cr_max`. -/
def Reliable (cfg : McacheCfg) (rxs : List FdFctlPrivateRx) (a : Nat) : Prop :=
  ∃ rx ∈ rxs, rx.seqLaddr = some a ∧ rx.crMax.toInt ≤ cfg.depth.toNat

/-- A receiver that has joined. -/
def Joined (rxs : List FdFctlPrivateRx) (args : Nat → PublishArgs) (cells : Fin cfg.depth.toNat → Cell FragField Nat)
    (s : TangoSys cfg) (a : Nat) : Prop :=
  ∃ start x, (ActiveRx rxs a → start = 0) ∧ x ≤ s.published ∧ s.flow.rxSeq a = cfg.seq x ∧
    RxLog cfg args (¬Reliable cfg rxs a) start (s.log a) x ∧ RxInv args cells s x (s.rx a)

/-- What holds in every state. -/
structure TangoInv (rxs : List FdFctlPrivateRx) (args : Nat → PublishArgs) (s : TangoSys cfg)
    (cells : Fin cfg.depth.toNat → Cell FragField Nat) (t : Flow Nat) : Prop where
  mcache : McacheSim args (s.view .idle) cells
  flow : FctlSim rxs cfg.seq0 s.flowAhead t
  credits : Inv (fctlLimits rxs) t
  sent : t.sent = s.begun
  tx : TxInv s s.tx
  stored : ∀ n < s.published, (n : Int) ≤ cfg.off (s.mcache (cfg.line (cfg.seq n))).seq
  sync : ∃ m ≤ s.published, s.seqSync = cfg.seq m
  rx : ∀ a, (s.rx a = .off ∧ s.log a = [] ∧ ¬ActiveRx rxs a) ∨ Joined rxs args cells s a

namespace TangoAux

/-- What a wait for `x` comes back with in time. -/
theorem wait_done {args : Nat → PublishArgs} {begun x : Nat} {cells : Fin cfg.depth.toNat → Cell FragField Nat}
    {mcache : Mcache cfg} {e pollMax seqFound : Ulong} {frag : FdFragMeta} {seqDiff : Long}
    (h : WaitInv args begun cells (.done e pollMax frag seqFound seqDiff))
    (hw : WaitFor mcache x (.done e pollMax frag seqFound seqDiff)) (hpoll : pollMax ≠ 0) (hb : begun < 2 ^ 62)
    (hx : x < 2 ^ 62) :
    (seqDiff = 0 → frag = cfg.frag args x ∧ (x : Int) ≤ cfg.off (mcache (cfg.line (cfg.seq x))).seq) ∧
      (seqDiff ≠ 0 → ∃ y, seqFound = cfg.seq y ∧ x + cfg.depth.toNat ≤ y + 1 ∧ y < begun ∧ x + cfg.depth.toNat < begun) := by
  obtain ⟨rfl, hline⟩ := hw
  rcases done_position h hpoll hb hx with ⟨hzero, hfound, hfrag⟩ | ⟨hpos, hlate⟩
  · refine ⟨fun _ => ⟨hfrag, ?_⟩, fun hne => absurd hzero hne⟩
    rw [hfound] at hline
    exact Int.le_trans (Int.le_of_eq (seq_sub_seq0 hx).symm) hline
  · refine ⟨fun hzero => ?_, fun _ => hlate⟩
    rw [hzero] at hpos
    exact absurd hpos (by decide)

/-! ## Credits -/

/-- What a step of the counts does to the items sent. -/
theorem sent_of_step {limits : List (Limit Nat)} {t t' : Flow Nat} (h : t' = t ∨ Step limits t t') :
    t.sent ≤ t'.sent ∧ t'.sent ≤ t.sent + t.credit := by
  rcases h with rfl | h
  · exact ⟨Nat.le_refl _, Nat.le_add_right _ _⟩
  · cases h with
    | send n hl hn => exact ⟨Nat.le_add_right _ _, Nat.add_le_add_left hn _⟩
    | _ => exact ⟨Nat.le_refl _, Nat.le_add_right _ _⟩

section Flow

variable {rxs : List FdFctlPrivateRx} {args : Nat → PublishArgs} {s s' : TangoSys cfg} {t : Flow Nat}
  {fdSeqDiff : Ulong → Ulong → Long}

/-- A step of the flow, and the flow is still ahead by what is begun. -/
theorem flow_step (hdiff : ∀ a b, fdSeqDiff a b = a - b) (hcr : ∀ rx ∈ rxs, rx.seqLaddr ≠ none → 1 ≤ rx.crMax.toInt)
    (h : FctlSim rxs cfg.seq0 s.flowAhead t) (hinv : Inv (fctlLimits rxs) t) (hsent : t.sent = s.begun)
    (hs : FctlStep fdSeqDiff s.flowAhead s'.flowAhead) (htx : s'.flowAhead.txSeq = cfg.seq s'.begun)
    (hle : s.begun ≤ s'.begun) (hle' : s'.begun ≤ s.begun + 1) :
    ∃ t', FctlSim rxs cfg.seq0 s'.flowAhead t' ∧ Inv (fctlLimits rxs) t' ∧ t'.sent = s'.begun := by
  obtain ⟨t', hor, hsim⟩ := sim_step hdiff hcr h hinv hs
  have hinv' : Inv (fctlLimits rxs) t' := by
    rcases hor with rfl | hstep
    · exact hinv
    · exact hinv.step hstep
  refine ⟨t', hsim, hinv', ?_⟩
  obtain ⟨hlow, hhigh⟩ := sent_of_step hor
  have hcredit : t.credit < 2 ^ 64 := h.crAvail ▸ BitVec.isLt _
  have hseq : cfg.seq t'.sent = cfg.seq s'.begun := hsim.txSeq.symm.trans htx
  by_cases hord : s'.begun ≤ t'.sent
  · exact eq_of_seq hseq hord (by omega)
  · exact (eq_of_seq hseq.symm (by omega) (by omega)).symm

end Flow

/-! ## Steps of the transmitter -/

section Step

variable {rxs : List FdFctlPrivateRx} {args : Nat → PublishArgs} {s t : TangoSys cfg}
  {cells : Fin cfg.depth.toNat → Cell FragField Nat} {flow : Flow Nat} {base : FdTangoBase}

/-- Between two publications nothing is begun that is not published. -/
theorem begun_ready (hp : s.producer = .ready) : s.begun = s.published := by
  rw [TangoSys.begun, McacheSys.begun, TangoSys.view, hp]

/-- In a publication one is. -/
theorem begun_body {todo : List FragField} (hp : s.producer = .body todo) : s.begun = s.published + 1 := by
  rw [TangoSys.begun, McacheSys.begun, TangoSys.view, hp]

/-- What is begun is published but for one publication. -/
theorem published_le_begun (s : TangoSys cfg) : s.published ≤ s.begun ∧ s.begun ≤ s.published + 1 := by
  cases hp : s.producer with
  | ready => exact ⟨Nat.le_of_eq (begun_ready hp).symm, Nat.le_succ_of_le (Nat.le_of_eq (begun_ready hp))⟩
  | body todo =>
    rw [begun_body hp]
    exact ⟨Nat.le_succ _, Nat.le_refl _⟩

/-- The active receivers are those of the list. -/
theorem active_iff (h : TangoInv rxs args s cells flow) (a : Nat) : s.flow.fctl.Active a ↔ ActiveRx rxs a := by
  have hrx : s.flow.fctl.rx = rxs := by
    have := h.flow.rx
    unfold TangoSys.flowAhead at this
    cases hl : s.tx with
    | loop => rw [hl] at this; exact this
    | burst txCnt first => rw [hl] at this; exact this
  rw [FdFctl.Active, ActiveRx, hrx]

/-- A step that leaves the lines, the receivers and their logs leaves what is known of the receivers. -/
theorem rx_frame (h : TangoInv rxs args s cells flow) {cells' : Fin cfg.depth.toNat → Cell FragField Nat}
    (hpub : s.published ≤ t.published) (hseq : t.flow.rxSeq = s.flow.rxSeq) (hrx : t.rx = s.rx) (hlog : t.log = s.log)
    (hwait : ∀ pc, WaitInv args s.begun cells pc → WaitInv args t.begun cells' pc)
    (hline : ∀ i, cfg.off (s.mcache i).seq ≤ cfg.off (t.mcache i).seq) (a : Nat) :
    (t.rx a = .off ∧ t.log a = [] ∧ ¬ActiveRx rxs a) ∨ Joined rxs args cells' t a := by
  rw [hrx, hlog]
  refine (h.rx a).imp id ?_
  rintro ⟨start, x, hstart, hx, hpos, hlogs, hinv⟩
  rw [Joined, hseq, hrx, hlog]
  refine ⟨start, x, hstart, Nat.le_trans hx hpub, hpos, hlogs, ?_⟩
  cases hpc : s.rx a with
  | off =>
    rw [hpc] at hinv
    exact hinv
  | loop pollMax => trivial
  | wait pc =>
    rw [hpc] at hinv
    obtain ⟨hknown, hfor⟩ := hinv
    refine ⟨hwait pc hknown, ?_⟩
    cases pc with
    | idle => exact hfor
    | found e p frag => exact hfor
    | copy e p frag found todo => exact ⟨hfor.1, Int.le_trans hfor.2 (hline _)⟩
    | decide e p frag found test => exact ⟨hfor.1, Int.le_trans hfor.2 (hline _)⟩
    | done e p frag found diff => exact ⟨hfor.1, Int.le_trans hfor.2 (hline _)⟩
  | process pollMax frag =>
    rw [hpc] at hinv
    exact ⟨hinv.1, Int.le_trans hinv.2 (hline _)⟩

/-- A step of an update. -/
theorem inv_update (hbase : base.Documented) (hcr : ∀ rx ∈ rxs, rx.seqLaddr ≠ none → 1 ≤ rx.crMax.toInt)
    (h : TangoInv rxs args s cells flow) {f : FctlSys} (hl : s.tx = .loop) (hs : FctlStep base.fdSeqDiff s.flow f)
    (htx : f.txSeq = s.flow.txSeq) (hrx : f.rxSeq = s.flow.rxSeq) :
    ∃ flow', TangoInv rxs args { s with flow := f } cells flow' := by
  have htxinv := h.tx
  rw [hl] at htxinv
  obtain ⟨hready, hpos⟩ := htxinv
  have hahead : s.flowAhead = s.flow := by rw [TangoSys.flowAhead, hl]
  have hahead' : ({ s with flow := f } : TangoSys cfg).flowAhead = f := by
    simp only [TangoSys.flowAhead, hl]
  have hbegun := begun_ready hready
  obtain ⟨flow', hsim, hinv, hsent⟩ : ∃ flow', FctlSim rxs cfg.seq0 ({ s with flow := f } : TangoSys cfg).flowAhead flow' ∧
      Inv (fctlLimits rxs) flow' ∧ flow'.sent = s.begun := flow_step hbase.diff hcr h.flow h.credits h.sent
    (by rw [hahead, hahead']; exact hs)
    ((congrArg FctlSys.txSeq hahead').trans (htx.trans (hpos.trans (congrArg cfg.seq hbegun.symm)))) (Nat.le_refl _) (Nat.le_succ _)
  refine ⟨flow', h.mcache, hsim, hinv, hsent, ?_, h.stored, h.sync, ?_⟩
  · show TxInv _ s.tx
    rw [hl]
    exact ⟨hready, htx.trans hpos⟩
  · exact rx_frame h (Nat.le_refl _) hrx rfl rfl (fun _ hw => hw) fun _ => Int.le_refl _

/-- `seq[0]` is updated. -/
theorem inv_seqUpdate (h : TangoInv rxs args s cells flow) (hl : s.tx = .loop) :
    TangoInv rxs args { s with seqSync := fdMcacheSeqUpdate s.seqSync s.flow.txSeq } cells flow := by
  have htx := h.tx
  rw [hl] at htx
  exact ⟨h.mcache, h.flow, h.credits, h.sent, h.tx, h.stored, ⟨s.published, Nat.le_refl _, htx.2⟩,
    rx_frame h (Nat.le_refl _) rfl rfl rfl (fun _ hw => hw) fun _ => Int.le_refl _⟩

/-- A burst starts. -/
theorem inv_burst (h : TangoInv rxs args s cells flow) {txCnt : Ulong} (hl : s.tx = .loop) (hpc : s.flow.pc = .run)
    (hcr : ¬s.flow.crAvail < s.flow.fctl.crBurst) (hn : txCnt ≤ s.flow.fctl.crBurst) :
    TangoInv rxs args { s with tx := .burst txCnt s.published } cells flow := by
  have htx := h.tx
  rw [hl] at htx
  obtain ⟨hready, hpos⟩ := htx
  have hbegun := begun_ready hready
  have hahead : ({ s with tx := .burst txCnt s.published } : TangoSys cfg).flowAhead = s.flowAhead := by
    have hzero : ({ s with tx := .burst txCnt s.published } : TangoSys cfg).begun - s.published = 0 :=
      Nat.sub_eq_zero_of_le (Nat.le_of_eq hbegun)
    simp only [TangoSys.flowAhead, hl, hzero, BitVec.add_zero, BitVec.sub_zero]
  refine ⟨h.mcache, hahead ▸ h.flow, h.credits, h.sent, ?_, h.stored, h.sync,
    rx_frame h (Nat.le_refl _) rfl rfl rfl (fun _ hw => hw) fun _ => Int.le_refl _⟩
  refine ⟨hpc, hpos, Nat.le_refl _, Nat.le_trans (Nat.le_of_eq hbegun) (Nat.le_add_right _ _), ?_⟩
  rw [BitVec.lt_def] at hcr
  rw [BitVec.le_def] at hn ⊢
  exact Nat.le_trans hn (Nat.le_of_not_lt hcr)

/-- A burst ends. -/
theorem inv_sent (hbase : base.Documented) (h : TangoInv rxs args s cells flow) {txCnt : Ulong} {first : Nat}
    (ht : s.tx = .burst txCnt first) (hp : s.producer = .ready) (hn : s.published = first + txCnt.toNat) :
    TangoInv rxs args { s with
      flow := { s.flow with txSeq := base.fdSeqInc s.flow.txSeq txCnt, crAvail := s.flow.crAvail - txCnt }
      tx := .loop } cells flow := by
  have htx := h.tx
  rw [ht] at htx
  obtain ⟨_, hpos, _, _, _⟩ := htx
  have hcnt : BitVec.ofNat 64 (s.begun - first) = txCnt := by
    rw [begun_ready hp, hn, Nat.add_sub_cancel_left, BitVec.ofNat_toNat, BitVec.setWidth_eq]
  have hahead : s.flowAhead = { s.flow with txSeq := s.flow.txSeq + txCnt, crAvail := s.flow.crAvail - txCnt } := by
    simp only [TangoSys.flowAhead, ht, hcnt]
  have hflow := h.flow
  rw [hahead, ← hbase.inc] at hflow
  refine ⟨h.mcache, hflow, h.credits, h.sent, ⟨hp, ?_⟩, h.stored, h.sync,
    rx_frame h (Nat.le_refl _) rfl rfl rfl (fun _ hw => hw) fun _ => Int.le_refl _⟩
  show base.fdSeqInc s.flow.txSeq txCnt = cfg.seq s.published
  rw [hbase.inc, hpos, hn, ← seq_add, BitVec.ofNat_toNat, BitVec.setWidth_eq]

/-- The flow in a burst. -/
theorem flowAhead_burst {txCnt : Ulong} {first : Nat} (ht : s.tx = .burst txCnt first) :
    s.flowAhead = { s.flow with
      txSeq := s.flow.txSeq + BitVec.ofNat 64 (s.begun - first)
      crAvail := s.flow.crAvail - BitVec.ofNat 64 (s.begun - first) } := by
  simp only [TangoSys.flowAhead, ht]

/-- A publication of a burst that begins spends one credit. -/
theorem flow_mark (h : TangoInv rxs args s cells flow) {txCnt : Ulong} {first : Nat} (hs : s.tx = .burst txCnt first)
    (ht : t.tx = .burst txCnt first) (hflow : t.flow = s.flow) (hbegun : t.begun = s.begun + 1)
    (hlt : s.begun < first + txCnt.toNat) : FctlStep base.fdSeqDiff s.flowAhead t.flowAhead := by
  have htx := h.tx
  rw [hs] at htx
  obtain ⟨hpc, _, hfirst, _, hcredit⟩ := htx
  have hle := Nat.le_trans hfirst (published_le_begun s).1
  have hone : BitVec.ofNat 64 (t.begun - first) = BitVec.ofNat 64 (s.begun - first) + 1 := by
    rw [hbegun, Nat.succ_sub hle]
    exact BitVec.ofNat_add _ 1
  have hspend : (1 : Ulong) ≤ s.flow.crAvail - BitVec.ofNat 64 (s.begun - first) := by
    rw [BitVec.le_def] at hcredit ⊢
    have hlow : (BitVec.ofNat 64 (s.begun - first)).toNat = s.begun - first := by
      rw [BitVec.toNat_ofNat]
      exact Nat.mod_eq_of_lt (by omega)
    rw [BitVec.toNat_sub_of_le (by rw [BitVec.le_def, hlow]; omega), hlow]
    show 1 ≤ _
    omega
  have hstep : FctlStep base.fdSeqDiff s.flowAhead _ :=
    .send s.flowAhead 1 (by rw [flowAhead_burst hs]; exact hpc) (by rw [flowAhead_burst hs]; exact hspend)
  rw [flowAhead_burst hs] at hstep ⊢
  have hsub : s.flow.crAvail - (BitVec.ofNat 64 (s.begun - first) + 1) =
      s.flow.crAvail - BitVec.ofNat 64 (s.begun - first) - 1 := by
    bv_omega
  rw [flowAhead_burst ht, hflow, hone, ← BitVec.add_assoc, hsub]
  exact hstep

/-- A step of a publication. -/
theorem inv_send (hbase : base.Documented) (hcr : ∀ rx ∈ rxs, rx.seqLaddr ≠ none → 1 ≤ rx.crMax.toInt)
    (h : TangoInv rxs args s cells flow) {txCnt : Ulong} {first : Nat} {r : McacheSys cfg} (ht : s.tx = .burst txCnt first)
    (hn : s.published < first + txCnt.toNat) (hs : PublishStep base.fdSeqDec args (s.view .idle) r)
    (hview : t.view .idle = r) (hsame : t = { s with mcache := t.mcache, published := t.published, producer := t.producer })
    (hb : t.begun < 2 ^ 62) :
    ∃ cells' flow', TangoInv rxs args t cells' flow' := by
  subst hview
  have htx := h.tx
  rw [ht] at htx
  obtain ⟨hpc, hpos, hfirst, hbegun, hcredit⟩ := htx
  have htxpc : t.tx = .burst txCnt first := by rw [hsame]; exact ht
  have hflow : t.flow = s.flow := by rw [hsame]
  obtain ⟨hpub, hcount⟩ := publish_begun hs
  obtain ⟨i, c, hw, hsim⟩ := sim_publish hbase.dec h.mcache hs hb
  have hline := seq_le_of_publish hbase.dec h.mcache hs hb
  have hle := (published_le_begun s).1
  have hlt : s.begun < t.begun → s.begun < first + txCnt.toNat := by
    intro hlt
    rcases hcount with hkeep | ⟨_, hready⟩
    · exact absurd hkeep.symm (Nat.ne_of_lt hlt)
    · exact Nat.lt_of_le_of_lt (Nat.le_of_eq hready) hn
  obtain ⟨flow', hfsim, hinv, hsent⟩ :
      ∃ flow', FctlSim rxs cfg.seq0 t.flowAhead flow' ∧ Inv (fctlLimits rxs) flow' ∧ flow'.sent = t.begun := by
    rcases hcount with hkeep | ⟨hmark, _⟩
    · have hkeep : t.begun = s.begun := hkeep
      rw [flowAhead_burst htxpc, hflow, hkeep, ← flowAhead_burst ht]
      exact ⟨flow, h.flow, h.credits, h.sent⟩
    · have hmark : t.begun = s.begun + 1 := hmark
      refine flow_step hbase.diff hcr h.flow h.credits h.sent ?_ ?_ (by omega) (by omega)
      · exact flow_mark h ht htxpc hflow hmark (hlt (by omega))
      · rw [flowAhead_burst htxpc, hflow]
        refine (congrArg (· + _) hpos).trans ?_
        rw [seq_add, Nat.add_sub_cancel' (by omega)]
  have hbegun' : t.begun ≤ first + txCnt.toNat := by
    rcases hcount with hkeep | ⟨hmark, _⟩
    · exact Nat.le_trans (Nat.le_of_eq hkeep) hbegun
    · have hmark : t.begun = s.begun + 1 := hmark
      have := hlt (by omega)
      omega
  have hpub : s.published ≤ t.published := hpub
  refine ⟨_, flow', hsim, hfsim, hinv, hsent, ?_, ?_, ?_, ?_⟩
  · rw [htxpc]
    exact ⟨hflow ▸ hpc, hflow ▸ hpos, Nat.le_trans hfirst hpub, hbegun', hflow ▸ hcredit⟩
  · intro n hlt
    by_cases hold : n < s.published
    · exact Int.le_trans (h.stored n hold) (hline _)
    · obtain ⟨hsucc, hseq⟩ := publish_stored hs (Nat.lt_of_le_of_lt (Nat.le_of_not_lt hold) hlt)
      have hsucc : t.published = s.published + 1 := hsucc
      obtain rfl : n = s.published := by omega
      refine Int.le_of_eq (Eq.symm ?_)
      exact (congrArg cfg.off hseq).trans (seq_sub_seq0 (Nat.lt_of_le_of_lt (Nat.le_trans hle (begun_le_of_publish hs)) hb))
  · obtain ⟨m, hm, hseq⟩ := h.sync
    exact ⟨m, Nat.le_trans hm hpub, by rw [hsame]; exact hseq⟩
  · refine rx_frame h hpub (by rw [hflow]) (by rw [hsame]) (by rw [hsame]) (fun pc hpc => waitInv_write hpc ?_ hw) hline
    exact begun_le_of_publish hs

/-! ## Steps of a receiver -/

/-- A receiver goes on in its loop, to a place of which the same is known. -/
theorem inv_goto (h : TangoInv rxs args s cells flow) {a : Nat} {pc : RxPc} (hoff : s.rx a ≠ .off)
    (hinv : ∀ x ≤ s.published, s.flow.rxSeq a = cfg.seq x → RxInv args cells s x (s.rx a) → RxInv args cells s x pc) :
    TangoInv rxs args (s.goto a pc) cells flow := by
  refine ⟨h.mcache, h.flow, h.credits, h.sent, h.tx, h.stored, h.sync, fun b => ?_⟩
  by_cases hba : b = a
  · subst hba
    rcases h.rx b with ⟨hnot, _⟩ | ⟨start, x, hstart, hx, hpos, hlog, hat⟩
    · exact absurd hnot hoff
    · refine Or.inr ⟨start, x, hstart, hx, hpos, hlog, ?_⟩
      have hself : (s.goto b pc).rx b = pc := Function.update_self ..
      rw [hself]
      exact hinv x hx hpos hat
  · have hsame : (s.goto a pc).rx b = s.rx b := Function.update_of_ne hba _ _
    rw [hsame]
    refine (h.rx b).imp id ?_
    rintro ⟨start, x, hstart, hx, hpos, hlog, hat⟩
    exact ⟨start, x, hstart, hx, hpos, hlog, by rw [hsame]; exact hat⟩

/-- The flow ahead has the fctl, the receivers and the query of the flow. -/
theorem flowAhead_fields (s : TangoSys cfg) :
    s.flowAhead.fctl = s.flow.fctl ∧ s.flowAhead.rxSeq = s.flow.rxSeq ∧ s.flowAhead.seq = s.flow.seq := by
  unfold TangoSys.flowAhead
  cases s.tx <;> exact ⟨rfl, rfl, rfl⟩

/-- The flow ahead of a receiver that goes on. -/
theorem flowAhead_advance (s : TangoSys cfg) (a : Nat) (rxSeq pollMax : Ulong) (event : RxEvent) :
    (s.advance a rxSeq pollMax event).flowAhead =
      { s.flowAhead with rxSeq := Function.update s.flowAhead.rxSeq a rxSeq } := by
  unfold TangoSys.flowAhead TangoSys.advance
  cases s.tx <;> rfl

/-- A receiver goes on at a later position that is published, and says so in its log. -/
theorem inv_advance (hdiff : ∀ a b, base.fdSeqDiff a b = a - b) (hcr : ∀ rx ∈ rxs, rx.seqLaddr ≠ none → 1 ≤ rx.crMax.toInt)
    (h : TangoInv rxs args s cells flow) (hb : s.begun < 2 ^ 62) {a y : Nat} {pollMax : Ulong} {event : RxEvent} (start : Nat)
    (hstart : ActiveRx rxs a → start = 0) (hy : y ≤ s.published)
    (hpos : ActiveRx rxs a → ∃ x ≤ y, s.flow.rxSeq a = cfg.seq x)
    (hlog : RxLog cfg args (¬Reliable cfg rxs a) start (s.log a ++ [event]) y) :
    ∃ flow', TangoInv rxs args (s.advance a (cfg.seq y) pollMax event) cells flow' := by
  have hrx : ∀ b, ((s.advance a (cfg.seq y) pollMax event).rx b = .off ∧ (s.advance a (cfg.seq y) pollMax event).log b = [] ∧
      ¬ActiveRx rxs b) ∨ Joined rxs args cells (s.advance a (cfg.seq y) pollMax event) b := by
    intro b
    by_cases hba : b = a
    · subst hba
      refine Or.inr ⟨start, y, hstart, hy, Function.update_self .., ?_, ?_⟩
      · simp only [TangoSys.advance, Function.update_self]
        exact hlog
      · simp only [TangoSys.advance, Function.update_self]
        trivial
    · simp only [Joined, TangoSys.advance, Function.update_of_ne hba]
      exact h.rx b
  have htx : TxInv (s.advance a (cfg.seq y) pollMax event) s.tx := by
    have htx := h.tx
    cases hpc : s.tx with
    | loop =>
      rw [hpc] at htx
      exact htx
    | burst txCnt first =>
      rw [hpc] at htx
      exact htx
  have hahead := flowAhead_advance s a (cfg.seq y) pollMax event
  obtain ⟨hfctl, hrxSeq, _⟩ := flowAhead_fields s
  have hsent : s.flowAhead.txSeq = cfg.seq s.begun := by
    rw [h.flow.txSeq, h.sent]
    rfl
  have hflow : ∃ flow', FctlSim rxs cfg.seq0 (s.advance a (cfg.seq y) pollMax event).flowAhead flow' ∧
      Inv (fctlLimits rxs) flow' ∧ flow'.sent = (s.advance a (cfg.seq y) pollMax event).begun := by
    by_cases hact : ActiveRx rxs a
    · -- a position that moves is consumption
      obtain ⟨x, hxy, hx⟩ := hpos hact
      have hle := (published_le_begun s).1
      refine flow_step hdiff hcr h.flow h.credits h.sent ?_ ?_ (Nat.le_refl _) (Nat.le_succ _)
      · have hstep : FctlStep base.fdSeqDiff s.flowAhead _ := .consume s.flowAhead a (BitVec.ofNat 64 (y - x))
          (by rw [hfctl]; exact (active_iff h a).2 hact) (by
            rw [hrxSeq, hsent, hx, BitVec.le_def, McacheCfg.seq, McacheCfg.seq, lag_toNat cfg.seq0 (by omega) (by omega),
              BitVec.toNat_ofNat]
            exact Nat.le_trans (Nat.mod_le _ _) (by omega))
        rw [hahead]
        rw [hrxSeq, hx, seq_add, Nat.add_sub_cancel' hxy, ← hrxSeq] at hstep
        exact hstep
      · rw [hahead]
        exact hsent
    · refine ⟨flow, ?_, h.credits, h.sent⟩
      rw [hahead]
      refine ⟨h.flow.rx, h.flow.txSeq, h.flow.crAvail, fun b hb => ?_, h.flow.seq, h.flow.pc⟩
      have hba : b ≠ a := by
        rintro rfl
        refine hact ((active_iff h b).1 ?_)
        rw [← hfctl]
        exact hb
      rw [← h.flow.rxSeq b hb]
      exact Function.update_of_ne hba _ _
  obtain ⟨flow', hsim, hinv, hsent⟩ := hflow
  exact ⟨flow', h.mcache, hsim, hinv, hsent, htx, h.stored, h.sync, hrx⟩

/-- A receiver returns credits. -/
theorem inv_crReturn (hdiff : ∀ a b, base.fdSeqDiff a b = a - b) (hcr : ∀ rx ∈ rxs, rx.seqLaddr ≠ none → 1 ≤ rx.crMax.toInt)
    (h : TangoInv rxs args s cells flow) {a : Nat} (ha : s.flow.fctl.Active a) :
    ∃ flow', TangoInv rxs args
      { s with flow := { s.flow with seq := fdFctlRxCrReturn s.flow.seq a (s.flow.rxSeq a) } } cells flow' := by
  obtain ⟨hfctl, hrxSeq, hseq⟩ := flowAhead_fields s
  have hahead : ({ s with flow := { s.flow with seq := fdFctlRxCrReturn s.flow.seq a (s.flow.rxSeq a) } } :
      TangoSys cfg).flowAhead = { s.flowAhead with seq := fdFctlRxCrReturn s.flowAhead.seq a (s.flowAhead.rxSeq a) } := by
    rw [hrxSeq, hseq]
    unfold TangoSys.flowAhead
    cases s.tx <;> rfl
  have hstep : FctlStep base.fdSeqDiff s.flowAhead _ := .publish s.flowAhead a (by rw [hfctl]; exact ha)
  rw [← hahead] at hstep
  obtain ⟨flow', hsim, hinv, hsent⟩ := flow_step hdiff hcr h.flow h.credits h.sent hstep
    (by rw [hahead, h.flow.txSeq, h.sent]; rfl) (Nat.le_refl _) (Nat.le_succ _)
  refine ⟨flow', h.mcache, hsim, hinv, hsent, ?_, h.stored, h.sync,
    rx_frame h (Nat.le_refl _) rfl rfl rfl (fun _ hw => hw) fun _ => Int.le_refl _⟩
  have htx := h.tx
  show TxInv _ s.tx
  cases hpc : s.tx with
  | loop =>
    rw [hpc] at htx
    exact htx
  | burst txCnt first =>
    rw [hpc] at htx
    exact htx

/-- The transmitter is at most the `cr_max` of a receiver ahead of it, and so is the line it writes. -/
theorem begun_le_of_active (h : TangoInv rxs args s cells flow) (hb : s.begun < 2 ^ 62) {rx : FdFctlPrivateRx} (hrx : rx ∈ rxs)
    {a x : Nat} (ha : rx.seqLaddr = some a) (hx : x ≤ s.published) (hpos : s.flow.rxSeq a = cfg.seq x) :
    s.begun ≤ x + rx.crMax.toInt.toNat := by
  obtain ⟨hfctl, hrxSeq, _⟩ := flowAhead_fields s
  have hact : s.flowAhead.fctl.Active a := by
    rw [hfctl]
    exact (active_iff h a).2 ⟨rx, hrx, ha⟩
  have hseq : cfg.seq (flow.consumed a) = cfg.seq x := by
    rw [← hpos, ← hrxSeq]
    exact (h.flow.rxSeq a hact).symm
  have hcons := h.credits.consumed_le a
  have hpub := (published_le_begun s).1
  have hsent := h.sent
  have hconsumed : flow.consumed a = x := by
    by_cases hord : x ≤ flow.consumed a
    · exact eq_of_seq hseq hord (by omega)
    · exact (eq_of_seq hseq.symm (by omega) (by omega)).symm
  have hlag := h.credits.lag_le (mem_limits hrx ha)
  dsimp only at hlag
  omega

/-- An overrun is of a receiver that may lag. -/
theorem not_reliable_of_lag (h : TangoInv rxs args s cells flow) (hb : s.begun < 2 ^ 62) {a x : Nat} (hx : x ≤ s.published)
    (hpos : s.flow.rxSeq a = cfg.seq x) (hlag : x + cfg.depth.toNat < s.begun) : ¬Reliable cfg rxs a := by
  rintro ⟨rx, hrx, ha, hdepth⟩
  have := begun_le_of_active h hb hrx ha hx hpos
  omega

/-- What a line shows as written is published. -/
theorem published_of_written (h : TangoInv rxs args s cells flow) {x : Nat} (hlt : x < s.begun)
    (hphase : (cells (cfg.line (cfg.seq x))).phase = .written x) : x < s.published := by
  refine Nat.lt_of_le_of_ne (Nat.le_of_lt_succ (Nat.lt_of_lt_of_le hlt (published_le_begun s).2)) ?_
  rintro rfl
  cases hp : s.producer with
  | ready =>
    rw [begun_ready hp] at hlt
    exact Nat.lt_irrefl _ hlt
  | body todo =>
    have hwriting := (h.mcache.producer todo hp).2.1
    cases hphase.symm.trans hwriting

/-- A poll. -/
theorem rxInv_poll (hdiff : ∀ a b, base.fdSeqDiff a b = a - b) (h : TangoInv rxs args s cells flow) {pc : WaitPc}
    {r : McacheSys cfg} (hb : pc.Busy) (hs : WaitStep base.fdSeqDiff (s.view pc) r) {x : Nat}
    (hat : RxInv args cells s x (.wait pc)) : RxInv args cells s x (.wait r.consumer) := by
  obtain ⟨hknown, hfor⟩ := hat
  have hsim : McacheSim args (s.view pc) cells := ⟨h.mcache.came, h.mcache.body, h.mcache.inv, h.mcache.producer⟩
  obtain ⟨hsim', hknown'⟩ := waitInv_step hdiff hsim hknown hs
  have hbegun : r.begun = s.begun := by cases hs <;> rfl
  refine ⟨hbegun ▸ hknown', ?_⟩
  cases hs with
  | wait e p frag hc hp =>
    have hc : pc = .idle ∨ ∃ e p m w d, pc = .done e p m w d := hc
    rcases hc with rfl | ⟨e, p, m, w, d, rfl⟩
    · exact hb.elim
    · exact hb.elim
  | found e p frag hc =>
    obtain rfl : pc = _ := hc
    obtain rfl : e = cfg.seq x := hfor
    exact ⟨rfl, Int.le_refl _⟩
  | copy e p frag found todo f hc hf =>
    obtain rfl : pc = _ := hc
    exact hfor
  | test e p frag found hc =>
    obtain rfl : pc = _ := hc
    exact hfor
  | decide e p frag found test hc =>
    obtain rfl : pc = _ := hc
    dsimp only
    split_ifs
    · exact hfor
    · exact hfor.1

/-- A receiver that is somewhere in its loop has joined. -/
theorem joined_of_ne_off (h : TangoInv rxs args s cells flow) {a : Nat} (hoff : s.rx a ≠ .off) : Joined rxs args cells s a := by
  rcases h.rx a with ⟨hnot, _⟩ | hjoined
  · exact absurd hnot hoff
  · exact hjoined

/-- Every step of a receiver. -/
theorem inv_rx (hbase : base.Documented) (hcr : ∀ rx ∈ rxs, rx.seqLaddr ≠ none → 1 ≤ rx.crMax.toInt)
    (h : TangoInv rxs args s cells flow) (hb : s.begun < 2 ^ 62) {a : Nat} (hs : RxStep base a s t) :
    ∃ flow', TangoInv rxs args t cells flow' := by
  have hpub := published_le_begun s
  have hbefore : ∀ x, x ≤ s.published → x < 2 ^ 62 := fun x hx => by omega
  cases hs with
  | join pollMax hpc hp =>
    obtain ⟨m, hm, hseq⟩ := h.sync
    rcases h.rx a with ⟨_, hlog, hact⟩ | ⟨_, _, _, _, _, _, hat⟩
    · rw [fdMcacheSeqQuery, hseq]
      refine inv_advance hbase.diff hcr h hb m (fun ha => absurd ha hact) hm (fun ha => absurd ha hact) ?_
      rw [hlog]
      exact .joined
    · rw [hpc] at hat
      exact hat.elim
  | crReturn ha => exact inv_crReturn hbase.diff hcr h ha
  | wait pollMax frag hpc =>
    exact ⟨flow, inv_goto h (by rw [hpc]; nofun) fun x _ hpos _ => ⟨trivial, hpos⟩⟩
  | poll pc r hpc hbusy hs =>
    refine ⟨flow, inv_goto h (by rw [hpc]; nofun) fun x _ _ hat => ?_⟩
    rw [hpc] at hat
    exact rxInv_poll hbase.diff h hbusy hs hat
  | timeout e frag txSeq seqDiff pollMax hpc hp =>
    exact ⟨flow, inv_goto h (by rw [hpc]; nofun) fun _ _ _ _ => trivial⟩
  | overrun e pollMax frag txSeq seqDiff hpc hp hd =>
    obtain ⟨start, x, hstart, hx, hpos, hlog, hat⟩ := joined_of_ne_off h (a := a) (by rw [hpc]; nofun)
    rw [hpc] at hat
    obtain ⟨y, rfl, hskip, hy, hlag⟩ := (wait_done hat.1 hat.2 hp hb (hbefore x hx)).2 hd
    have hdepth : 128 ≤ cfg.depth.toNat := cfg.block_le
    refine inv_advance hbase.diff hcr h hb start hstart (by omega) (fun _ => ⟨x, by omega, hpos⟩) ?_
    rw [hpos]
    exact .overrun _ x y hlog (not_reliable_of_lag h hb hx hpos hlag) hskip
  | receive e pollMax frag txSeq seqDiff hpc hp hd =>
    refine ⟨flow, inv_goto h (by rw [hpc]; nofun) fun x hx _ hat => ?_⟩
    rw [hpc] at hat
    exact (wait_done hat.1 hat.2 hp hb (hbefore x hx)).1 hd
  | clobbered pollMax frag txSeq hpc htx hne =>
    obtain ⟨start, x, hstart, hx, hpos, hlog, hat⟩ := joined_of_ne_off h (a := a) (by rw [hpc]; nofun)
    rw [hpc] at hat
    rw [hbase.query, hpos] at htx
    have hne := (hbase.ne _ _).1 hne
    rw [hpos] at hne
    rcases came_later (h.mcache.came (cfg.line (cfg.seq x))) hat.2 with ⟨_, hsame, _⟩ | ⟨y, hseq, hskip, hy, hlag⟩
    · exact absurd (htx.trans hsame) hne
    · obtain rfl : txSeq = cfg.seq y := htx.trans hseq
      have hdepth : 128 ≤ cfg.depth.toNat := cfg.block_le
      have hy : y < s.begun := hy
      refine inv_advance hbase.diff hcr h hb start hstart (by omega) (fun _ => ⟨x, by omega, hpos⟩) ?_
      rw [hpos]
      exact .overrun _ x y hlog (not_reliable_of_lag h hb hx hpos hlag) hskip
  | accept pollMax frag txSeq hpc htx hne =>
    obtain ⟨start, x, hstart, hx, hpos, hlog, hat⟩ := joined_of_ne_off h (a := a) (by rw [hpc]; nofun)
    rw [hpc] at hat
    rw [hbase.query, hpos] at htx
    have hsame : txSeq = cfg.seq x := by
      refine Classical.byContradiction fun hnot => hne ((hbase.ne _ _).2 ?_)
      rw [hpos]
      exact hnot
    obtain ⟨rfl, hoff⟩ := hat
    have hlt : x < s.published := by
      rcases came_later (h.mcache.came (cfg.line (cfg.seq x))) hoff with ⟨hphase, _, hlt⟩ | ⟨y, hseq, hskip, hy, _⟩
      · exact published_of_written h hlt hphase
      · have hdepth : 128 ≤ cfg.depth.toNat := cfg.block_le
        have hy : y < s.begun := hy
        have := eq_of_seq (hseq.symm.trans (htx.symm.trans hsame)) (by omega) (by omega)
        omega
    rw [hpos, hbase.inc]
    have hone : cfg.seq x + 1 = cfg.seq (x + 1) := seq_add x 1
    rw [hone]
    exact inv_advance hbase.diff hcr h hb start hstart hlt (fun _ => ⟨x, Nat.le_succ x, hpos⟩) (.received _ x hlog)

/-- Receivers begin no publications. -/
theorem begun_rx {a : Nat} (hs : RxStep base a s t) : t.begun = s.begun := by
  cases hs <;> rfl

/-- Publications that are begun stay begun. -/
theorem begun_le (hs : TangoStep base args s t) : s.begun ≤ t.begun := by
  rcases hs with hs | ⟨a, hs⟩
  · cases hs with
    | send txCnt first r ht hn hs =>
      have hle : s.begun ≤ r.begun := begun_le_of_publish hs
      cases hs <;> exact hle
    | _ => exact Nat.le_refl _
  · exact Nat.le_of_eq (begun_rx hs).symm

/-- Every step of the system. -/
theorem inv_step (hbase : base.Documented) (hcr : ∀ rx ∈ rxs, rx.seqLaddr ≠ none → 1 ≤ rx.crMax.toInt)
    (h : TangoInv rxs args s cells flow) (hs : TangoStep base args s t) (hb : t.begun < 2 ^ 62) :
    ∃ cells' flow', TangoInv rxs args t cells' flow' := by
  rcases hs with hs | ⟨a, hs⟩
  · cases hs with
    | update f hl hs htx hrx hseq => exact ⟨cells, inv_update hbase hcr h hl hs htx hrx⟩
    | seqUpdate hl => exact ⟨cells, flow, inv_seqUpdate h hl⟩
    | burst txCnt hl hpc hcr hn => exact ⟨cells, flow, inv_burst h hl hpc hcr hn⟩
    | send txCnt first r ht hn hs => exact inv_send hbase hcr h ht hn hs (by cases hs <;> rfl) rfl hb
    | sent txCnt first ht hp hn => exact ⟨cells, flow, inv_sent hbase h ht hp hn⟩
  · exact ⟨cells, inv_rx hbase hcr h (begun_rx hs ▸ hb) hs⟩

/-- Where a run starts. -/
theorem inv_initial (h0 : s.Initial) : ∃ cells flow, TangoInv s.flow.fctl.rx args s cells flow := by
  have hready : s.producer = .ready := h0.mcache.producer
  have hnone : s.published = 0 := h0.mcache.published
  have hbegun : s.begun = 0 := (begun_ready hready).trans hnone
  have hseq0 : cfg.seq 0 = cfg.seq0 := BitVec.add_zero _
  have hrefl : McacheRun (fun a n => a - n) (fun a b => a - b) args (s.view .idle) (s.view .idle) := Relation.ReflTransGen.refl
  obtain ⟨cells, hsim, _⟩ := sim_run (fun _ _ => rfl) (fun _ _ => rfl) h0.mcache hrefl (by show s.begun < _; omega)
  have hahead : s.flowAhead = s.flow := by rw [TangoSys.flowAhead, h0.tx]
  refine ⟨cells, ⟨0, 0, fun _ => 0, fun _ => 0, none⟩, hsim, ?_, Inv.start _, hbegun.symm, ?_, ?_, ?_, ?_⟩
  · rw [hahead]
    refine ⟨rfl, h0.txSeq.trans hseq0.symm, ?_, ?_, ?_, ?_⟩
    · rw [h0.flow.crAvail]
      rfl
    · exact fun a ha => (h0.flow.rxSeq a ha).trans (h0.txSeq.trans hseq0.symm)
    · exact fun a ha => (h0.flow.seq a ha).trans (h0.txSeq.trans hseq0.symm)
    · rw [h0.flow.pc]
  · rw [h0.tx]
    exact ⟨hready, by rw [hnone, hseq0]; exact h0.txSeq⟩
  · intro n hn
    rw [hnone] at hn
    exact absurd hn (Nat.not_lt_zero n)
  · exact ⟨0, Nat.zero_le _, h0.seqSync.trans hseq0.symm⟩
  · intro a
    by_cases ha : s.flow.fctl.Active a
    · obtain ⟨hlog, pollMax, _, hrx⟩ := h0.reliable a ha
      refine Or.inr ⟨0, 0, fun _ => rfl, Nat.zero_le _, ?_, ?_, ?_⟩
      · exact (h0.flow.rxSeq a ha).trans (h0.txSeq.trans hseq0.symm)
      · rw [hlog, ← hseq0]
        exact .joined
      · rw [hrx]
        trivial
    · obtain ⟨hlog, hrx⟩ := h0.others a ha
      exact Or.inl ⟨hrx, hlog, ha⟩

/-- Every state of every run. -/
theorem inv_run (hbase : base.Documented) {s0 : TangoSys cfg} (h0 : s0.Initial)
    (hcr : ∀ rx ∈ s0.flow.fctl.rx, rx.seqLaddr ≠ none → 1 ≤ rx.crMax.toInt) (hrun : TangoRun base args s0 s)
    (hb : s.begun < 2 ^ 62) : ∃ cells flow, TangoInv s0.flow.fctl.rx args s cells flow := by
  induction hrun with
  | refl => exact inv_initial h0
  | tail _ hstep ih =>
    obtain ⟨cells, flow, h⟩ := ih (Nat.lt_of_le_of_lt (begun_le hstep) hb)
    exact inv_step hbase hcr h hstep hb

end Step

end TangoAux

end VerifyFiredancer
