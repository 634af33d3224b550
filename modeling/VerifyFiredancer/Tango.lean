import VerifyFiredancer.Mcache
import VerifyFiredancer.Fctl

/-!
# Tango: a transmitter and its receivers

The run loops that `fd_fctl.h` and `fd_mcache.h` are written for, put together: a transmitter that sends bursts of fragments
through a mcache when it has the credits for one, and receivers that wait for one fragment after the other, process what they
copied and then look at the line once more. Some receivers are reliable: they are active receivers of the fctl and publish their
positions. Any others join when they want, at the sequence number they find in `seq[0]` of the mcache, and take an overrun by
going on at the sequence number they found. The transmitter and the receivers go on at any time, with one access of shared
memory as a step.

What the loops call and the sources do not have (`fd_seq_inc` and the like) is a parameter.
-/

namespace VerifyFiredancer

/-- What the loops use of `fd_tango_base.h`, which is not part of the sources. -/
structure FdTangoBase where
  fdSeqInc : Ulong → Ulong → Ulong
  fdSeqDec : Ulong → Ulong → Ulong
  fdSeqDiff : Ulong → Ulong → Long
  fdSeqNe : Ulong → Ulong → Bool
  fdFragMetaSeqQuery : FdFragMeta → Ulong

/-- What is documented of it: sequence numbers wrap, and a query of a line reads its sequence number. -/
structure FdTangoBase.Documented (base : FdTangoBase) : Prop where
  inc : ∀ a n, base.fdSeqInc a n = a + n
  dec : ∀ a n, base.fdSeqDec a n = a - n
  diff : ∀ a b, base.fdSeqDiff a b = a - b
  ne : ∀ a b, base.fdSeqNe a b ↔ a ≠ b
  query : ∀ line, base.fdFragMetaSeqQuery line = line.seq

/-- Sequence numbers that wrap, and a query that reads the sequence number. -/
def FdTangoBase.words : FdTangoBase where
  fdSeqInc a n := a + n
  fdSeqDec a n := a - n
  fdSeqDiff a b := a - b
  fdSeqNe a b := a != b
  fdFragMetaSeqQuery line := line.seq

/-- They are as documented. -/
theorem FdTangoBase.words_documented : FdTangoBase.words.Documented :=
  ⟨fun _ _ => rfl, fun _ _ => rfl, fun _ _ => rfl, fun _ _ => bne_iff_ne, fun _ => rfl⟩

/-- `fd_mcache_seq_update`: `seq[0]` after it. -/
def fdMcacheSeqUpdate (_seq seq : Ulong) : Ulong := seq

/-- `fd_mcache_seq_query`. -/
def fdMcacheSeqQuery (seq : Ulong) : Ulong := seq

/-- Where the transmitter is in its run loop: between two bursts, or in a burst of `tx_cnt`, which began when `first` fragments
were published. -/
inductive TxPc where
  | loop
  | burst (txCnt : Ulong) (first : Nat)

/-- Where a receiver is: not there yet; at the top of its run loop; in the wait for `rx_seq`; processing what it received. -/
inductive RxPc where
  | off
  | loop (pollMax : Ulong)
  | wait (pc : WaitPc)
  | process (pollMax : Ulong) (frag : FdFragMeta)

/-- The wait is still going on. -/
def WaitPc.Busy : WaitPc → Prop
  | .idle | .done .. => False
  | .found .. | .copy .. | .decide .. => True

/-- What happens to a receiver: it joins at a sequence number, has received one, or takes an overrun and goes on at `tx_seq`. -/
inductive RxEvent where
  | joined (rxSeq : Ulong)
  | received (rxSeq : Ulong) (frag : FdFragMeta)
  | overrun (rxSeq txSeq : Ulong)
  deriving DecidableEq, Repr

/-- The system. Receivers have the addresses as names that they may publish at; `flow` has their `rx_seq`, besides `tx_seq`,
`cr_avail` and the fctl of the transmitter. `seqSync` is `seq[0]`. -/
structure TangoSys (cfg : McacheCfg) where
  flow : FctlSys
  mcache : Mcache cfg
  published : Nat
  producer : PublishPc
  tx : TxPc
  seqSync : Ulong
  rx : Nat → RxPc
  log : Nat → List RxEvent

variable {cfg : McacheCfg}

/-- The mcache as a receiver at `pc` of its wait sees it. -/
def TangoSys.view (s : TangoSys cfg) (pc : WaitPc) : McacheSys cfg where
  mcache := s.mcache
  published := s.published
  producer := s.producer
  consumer := pc

/-- How many publications the transmitter has begun. -/
def TangoSys.begun (s : TangoSys cfg) : Nat := (s.view .idle).begun

/-- A receiver goes on at `rxSeq`, with the event in its log. -/
def TangoSys.advance (s : TangoSys cfg) (a : Nat) (rxSeq pollMax : Ulong) (event : RxEvent) : TangoSys cfg :=
  { s with
    flow := { s.flow with rxSeq := Function.update s.flow.rxSeq a rxSeq }
    rx := Function.update s.rx a (.loop pollMax)
    log := Function.update s.log a (s.log a ++ [event]) }

/-- A receiver goes to another place in its loop. -/
def TangoSys.goto (s : TangoSys cfg) (a : Nat) (pc : RxPc) : TangoSys cfg := { s with rx := Function.update s.rx a pc }

/-- The steps of the transmitter. Between two bursts it does a step of `fd_fctl_tx_cr_update`, or updates `seq[0]`. If it has
credits for the worst burst it starts one, of at most that size; it publishes the fragments, and ends the burst. -/
inductive TxStep (base : FdTangoBase) (args : Nat → PublishArgs) : TangoSys cfg → TangoSys cfg → Prop
  | update (s : TangoSys cfg) (flow : FctlSys) (hl : s.tx = .loop) (hs : FctlStep base.fdSeqDiff s.flow flow)
      (htx : flow.txSeq = s.flow.txSeq) (hrx : flow.rxSeq = s.flow.rxSeq) (hseq : flow.seq = s.flow.seq) :
      TxStep base args s { s with flow := flow }
  | seqUpdate (s : TangoSys cfg) (hl : s.tx = .loop) :
      TxStep base args s { s with seqSync := fdMcacheSeqUpdate s.seqSync s.flow.txSeq }
  | burst (s : TangoSys cfg) (txCnt : Ulong) (hl : s.tx = .loop) (hpc : s.flow.pc = .run)
      (hcr : ¬s.flow.crAvail < s.flow.fctl.crBurst) (hn : txCnt ≤ s.flow.fctl.crBurst) :
      TxStep base args s { s with tx := .burst txCnt s.published }
  | send (s : TangoSys cfg) (txCnt : Ulong) (first : Nat) (t : McacheSys cfg) (ht : s.tx = .burst txCnt first)
      (hn : s.published < first + txCnt.toNat) (hs : PublishStep base.fdSeqDec args (s.view .idle) t) :
      TxStep base args s { s with mcache := t.mcache, published := t.published, producer := t.producer }
  | sent (s : TangoSys cfg) (txCnt : Ulong) (first : Nat) (ht : s.tx = .burst txCnt first)
      (hp : s.producer = .ready) (hn : s.published = first + txCnt.toNat) :
      TxStep base args s { s with
        flow := { s.flow with txSeq := base.fdSeqInc s.flow.txSeq txCnt, crAvail := s.flow.crAvail - txCnt }
        tx := .loop }

/-- The steps of the receiver `a`. -/
inductive RxStep (base : FdTangoBase) (a : Nat) : TangoSys cfg → TangoSys cfg → Prop
  | join (s : TangoSys cfg) (pollMax : Ulong) (hpc : s.rx a = .off) (hp : 0 < pollMax) :
      RxStep base a s (s.advance a (fdMcacheSeqQuery s.seqSync) pollMax (.joined (fdMcacheSeqQuery s.seqSync)))
  | crReturn (s : TangoSys cfg) (ha : s.flow.fctl.Active a) :
      RxStep base a s { s with flow := { s.flow with seq := fdFctlRxCrReturn s.flow.seq a (s.flow.rxSeq a) } }
  | wait (s : TangoSys cfg) (pollMax : Ulong) (frag : FdFragMeta) (hpc : s.rx a = .loop pollMax) :
      RxStep base a s (s.goto a (.wait (.found (s.flow.rxSeq a) pollMax frag)))
  | poll (s : TangoSys cfg) (pc : WaitPc) (t : McacheSys cfg) (hpc : s.rx a = .wait pc) (hb : pc.Busy)
      (hs : WaitStep base.fdSeqDiff (s.view pc) t) : RxStep base a s (s.goto a (.wait t.consumer))
  | timeout (s : TangoSys cfg) (e : Ulong) (frag : FdFragMeta) (txSeq : Ulong) (seqDiff : Long) (pollMax : Ulong)
      (hpc : s.rx a = .wait (.done e 0 frag txSeq seqDiff)) (hp : 0 < pollMax) :
      RxStep base a s (s.goto a (.loop pollMax))
  | overrun (s : TangoSys cfg) (e pollMax : Ulong) (frag : FdFragMeta) (txSeq : Ulong) (seqDiff : Long)
      (hpc : s.rx a = .wait (.done e pollMax frag txSeq seqDiff)) (hp : pollMax ≠ 0) (hd : seqDiff ≠ 0) :
      RxStep base a s (s.advance a txSeq pollMax (.overrun (s.flow.rxSeq a) txSeq))
  | receive (s : TangoSys cfg) (e pollMax : Ulong) (frag : FdFragMeta) (txSeq : Ulong) (seqDiff : Long)
      (hpc : s.rx a = .wait (.done e pollMax frag txSeq seqDiff)) (hp : pollMax ≠ 0) (hd : seqDiff = 0) :
      RxStep base a s (s.goto a (.process pollMax frag))
  | clobbered (s : TangoSys cfg) (pollMax : Ulong) (frag : FdFragMeta) (txSeq : Ulong) (hpc : s.rx a = .process pollMax frag)
      (htx : txSeq = base.fdFragMetaSeqQuery (s.mcache (cfg.line (s.flow.rxSeq a))))
      (hne : base.fdSeqNe txSeq (s.flow.rxSeq a)) :
      RxStep base a s (s.advance a txSeq pollMax (.overrun (s.flow.rxSeq a) txSeq))
  | accept (s : TangoSys cfg) (pollMax : Ulong) (frag : FdFragMeta) (txSeq : Ulong) (hpc : s.rx a = .process pollMax frag)
      (htx : txSeq = base.fdFragMetaSeqQuery (s.mcache (cfg.line (s.flow.rxSeq a))))
      (hne : ¬base.fdSeqNe txSeq (s.flow.rxSeq a)) :
      RxStep base a s (s.advance a (base.fdSeqInc (s.flow.rxSeq a) 1) pollMax (.received (s.flow.rxSeq a) frag))

/-- A step of the transmitter or of a receiver. -/
def TangoStep (base : FdTangoBase) (args : Nat → PublishArgs) (s t : TangoSys cfg) : Prop :=
  TxStep base args s t ∨ ∃ a, RxStep base a s t

/-- A run of the system. -/
abbrev TangoRun (base : FdTangoBase) (args : Nat → PublishArgs) : TangoSys cfg → TangoSys cfg → Prop :=
  Relation.ReflTransGen (TangoStep base args)

/-- Where a run starts: a new mcache whose `seq[0]` is `seq0`, a transmitter there without credits, and the reliable receivers
with it; all others are yet to join. -/
structure TangoSys.Initial (s : TangoSys cfg) : Prop where
  flow : s.flow.Initial
  mcache : (s.view .idle).Initial
  txSeq : s.flow.txSeq = cfg.seq0
  tx : s.tx = .loop
  seqSync : s.seqSync = cfg.seq0
  reliable : ∀ a, s.flow.fctl.Active a → s.log a = [.joined cfg.seq0] ∧ ∃ pollMax, 0 < pollMax ∧ s.rx a = .loop pollMax
  others : ∀ a, ¬s.flow.fctl.Active a → s.log a = [] ∧ s.rx a = .off

/-- A new system for a fctl, in which the reliable receivers have the given `poll_max`. -/
def TangoSys.new (cfg : McacheCfg) (fctl : FdFctl) (pollMax : Ulong) : TangoSys cfg where
  flow := ⟨fctl, .run, cfg.seq0, 0, fun _ => cfg.seq0, fun _ => cfg.seq0, fun _ => 0⟩
  mcache _ := ⟨cfg.seq0 - 1, 0, 0, 0, 7, 0, 0⟩
  published := 0
  producer := .ready
  tx := .loop
  seqSync := cfg.seq0
  rx a := if fctl.rx.any fun rx => rx.seqLaddr == some a then .loop pollMax else .off
  log a := if fctl.rx.any fun rx => rx.seqLaddr == some a then [.joined cfg.seq0] else []

end VerifyFiredancer
