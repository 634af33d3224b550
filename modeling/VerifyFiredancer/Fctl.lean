import VerifyFiredancer.Bits
import Mathlib.Logic.Function.Basic
import Mathlib.Logic.Relation

/-!
# Fctl: credit-based flow control

A transmitter may send as many sequence numbers as it has credits. It gets credits by asking its reliable receivers where they
are: a receiver publishes, at an address of its own, a sequence number before which it has consumed everything, and has a
maximum `cr_max` of sequence numbers it may lag. The functions of this file are those of `fd_fctl.h`; after them the transmitter
and its receivers as a system, in which the loop of `fd_fctl_cr_query` is one step for each receiver it reads, and the calls of a
transmitter among receivers that publish anything.

`fd_seq_diff` is not part of the sources, and is a parameter here. The published sequence numbers and the counters of slow
receivers are words of two memories.
-/

namespace VerifyFiredancer

/-- `FD_FCTL_RX_MAX_MAX`. -/
def fdFctlRxMaxMax : Nat := 65535

/-- `fd_fctl_private_rx_t`. A NULL `seq_laddr` is an inactive receiver. -/
structure FdFctlPrivateRx where
  crMax : Long
  seqLaddr : Option Nat
  slowLaddr : Nat
  deriving DecidableEq, Repr

/-- `fd_fctl_t`, with the receivers in use, `rx_cnt` of them. -/
structure FdFctl where
  inRefill : Int
  crBurst : Ulong
  crMax : Ulong
  crResume : Ulong
  crRefill : Ulong
  rx : List FdFctlPrivateRx
  rxCnt_le : rx.length ≤ fdFctlRxMaxMax

/-- `fd_fctl_rx_cr_return`: a receiver publishes its position. -/
def fdFctlRxCrReturn (seq : Nat → Ulong) (seqLaddr : Nat) (rxSeq : Ulong) : Nat → Ulong :=
  Function.update seq seqLaddr rxSeq

section Diff

variable (fdSeqDiff : Ulong → Ulong → Long)

/-- The loop body of `fd_fctl_cr_query` for one receiver, on `cr_query` and `rx_idx_slow`. -/
def fdFctlCrQueryRx (seq : Nat → Ulong) (txSeq : Ulong) (rx : FdFctlPrivateRx) (rxIdx : Ulong) (acc : Ulong × Ulong) :
    Ulong × Ulong :=
  match rx.seqLaddr with
  | none => acc
  | some seqLaddr =>
    let rxSeq := seq seqLaddr
    let rxCrQuery : Ulong := fdLongMax (rx.crMax - fdLongMax (fdSeqDiff txSeq rxSeq) 0) 0
    let rxIdxSlow := fdUlongIf (rxCrQuery < acc.1) rxIdx acc.2
    (fdUlongMin rxCrQuery acc.1, rxIdxSlow)

/-- The loop of `fd_fctl_cr_query` from the receiver `rxIdx` on. -/
def fdFctlCrQueryLoop (seq : Nat → Ulong) (txSeq : Ulong) : List FdFctlPrivateRx → Nat → Ulong × Ulong → Ulong × Ulong
  | [], _, acc => acc
  | rx :: rest, rxIdx, acc =>
    fdFctlCrQueryLoop seq txSeq rest (rxIdx + 1) (fdFctlCrQueryRx fdSeqDiff seq txSeq rx (BitVec.ofNat 64 rxIdx) acc)

/-- `fd_fctl_cr_query`: the credits, and the index of the slowest receiver. -/
def fdFctlCrQuery (seq : Nat → Ulong) (fctl : FdFctl) (txSeq : Ulong) : Ulong × Ulong :=
  fdFctlCrQueryLoop fdSeqDiff seq txSeq fctl.rx 0 (fctl.crMax, ulongMax)

/-- What `fd_fctl_tx_cr_update` does with the result of its query: the fctl, the counters of slow receivers and the credits
after it. -/
def fdFctlTxCrUpdateQueried (fctl : FdFctl) (slow : Nat → Ulong) (crAvail : Ulong) (inRefill : Int) (query : Ulong × Ulong) :
    FdFctl × (Nat → Ulong) × Ulong :=
  let (crQuery, rxIdxSlow) := query
  if fctl.crResume ≤ crQuery then ({ fctl with inRefill := 0 }, slow, crQuery)
  else if inRefill = 0 then
    let slow :=
      if rxIdxSlow ≠ ulongMax then
        match fctl.rx[rxIdxSlow.toNat]? with
        | some rx => Function.update slow rx.slowLaddr (slow rx.slowLaddr + 1)
        | none => slow
      else slow
    ({ fctl with inRefill := 1 }, slow, crAvail)
  else (fctl, slow, crAvail)

/-- The test of `fd_fctl_tx_cr_update` for a query: the credits are below `cr_refill`, or it is refilling already. -/
def FdFctl.Queries (fctl : FdFctl) (crAvail : Ulong) : Prop := crAvail < fctl.crRefill ∨ fctl.inRefill ≠ 0

instance (fctl : FdFctl) (crAvail : Ulong) : Decidable (fctl.Queries crAvail) := inferInstanceAs (Decidable (_ ∨ _))

/-- `fd_fctl_tx_cr_update`: the fctl, the counters of slow receivers and the credits after it. -/
def fdFctlTxCrUpdate (seq slow : Nat → Ulong) (fctl : FdFctl) (crAvail txSeq : Ulong) : FdFctl × (Nat → Ulong) × Ulong :=
  if fctl.Queries crAvail then
    fdFctlTxCrUpdateQueried fctl slow crAvail fctl.inRefill (fdFctlCrQuery fdSeqDiff seq fctl txSeq)
  else (fctl, slow, crAvail)

/-! ## The transmitter and its receivers -/

/-- Where the transmitter is: in its run loop, or in a query, with the `in_refill` it read, at the receiver `rxIdx`. -/
inductive FctlPc where
  | run
  | query (inRefill : Int) (rxIdx : Nat) (acc : Ulong × Ulong)

/-- A transmitter, and for every address a receiver may publish at, the position of that receiver and what is published. -/
structure FctlSys where
  fctl : FdFctl
  pc : FctlPc
  txSeq : Ulong
  crAvail : Ulong
  rxSeq : Nat → Ulong
  seq : Nat → Ulong
  slow : Nat → Ulong

/-- An active receiver of the fctl publishes at the address. -/
def FdFctl.Active (fctl : FdFctl) (a : Nat) : Prop := ∃ rx ∈ fctl.rx, rx.seqLaddr = some a

/-- The steps of the system. The transmitter sends, skips or starts an update, reads the next receiver of a query, and ends it;
an active receiver consumes some of what was sent, and publishes its position. -/
inductive FctlStep : FctlSys → FctlSys → Prop
  | send (s : FctlSys) (n : Ulong) (hpc : s.pc = .run) (hn : n ≤ s.crAvail) :
      FctlStep s { s with txSeq := s.txSeq + n, crAvail := s.crAvail - n }
  | skip (s : FctlSys) (hpc : s.pc = .run) (hq : ¬s.fctl.Queries s.crAvail) : FctlStep s s
  | start (s : FctlSys) (hpc : s.pc = .run) (hq : s.fctl.Queries s.crAvail) :
      FctlStep s { s with pc := .query s.fctl.inRefill 0 (s.fctl.crMax, ulongMax) }
  | read (s : FctlSys) (inRefill : Int) (rxIdx : Nat) (acc : Ulong × Ulong) (rx : FdFctlPrivateRx)
      (hpc : s.pc = .query inRefill rxIdx acc) (hrx : s.fctl.rx[rxIdx]? = some rx) :
      FctlStep s { s with
        pc := .query inRefill (rxIdx + 1) (fdFctlCrQueryRx fdSeqDiff s.seq s.txSeq rx (BitVec.ofNat 64 rxIdx) acc) }
  | finish (s : FctlSys) (inRefill : Int) (rxIdx : Nat) (acc : Ulong × Ulong)
      (hpc : s.pc = .query inRefill rxIdx acc) (hrx : s.fctl.rx.length ≤ rxIdx) :
      FctlStep s { s with
        fctl := (fdFctlTxCrUpdateQueried s.fctl s.slow s.crAvail inRefill acc).1
        slow := (fdFctlTxCrUpdateQueried s.fctl s.slow s.crAvail inRefill acc).2.1
        crAvail := (fdFctlTxCrUpdateQueried s.fctl s.slow s.crAvail inRefill acc).2.2
        pc := .run }
  | consume (s : FctlSys) (a : Nat) (n : Ulong) (ha : s.fctl.Active a) (hn : n ≤ s.txSeq - s.rxSeq a) :
      FctlStep s { s with rxSeq := Function.update s.rxSeq a (s.rxSeq a + n) }
  | publish (s : FctlSys) (a : Nat) (ha : s.fctl.Active a) :
      FctlStep s { s with seq := fdFctlRxCrReturn s.seq a (s.rxSeq a) }

/-- A run of the system. -/
abbrev FctlRun : FctlSys → FctlSys → Prop := Relation.ReflTransGen (FctlStep fdSeqDiff)

/-- Where a run starts: the transmitter has no credits, and every active receiver is and says it is where the transmitter is. -/
structure FctlSys.Initial (s : FctlSys) : Prop where
  pc : s.pc = .run
  crAvail : s.crAvail = 0
  rxSeq : ∀ a, s.fctl.Active a → s.rxSeq a = s.txSeq
  seq : ∀ a, s.fctl.Active a → s.seq a = s.txSeq

/-! ## Calls -/

/-- The loop of `fd_fctl_cr_query` while anything is published: `seqAt i` is what is published when the receiver `i` is read. -/
def fdFctlCrQueryLoopAt (seqAt : Nat → Nat → Ulong) (txSeq : Ulong) :
    List FdFctlPrivateRx → Nat → Ulong × Ulong → Ulong × Ulong
  | [], _, acc => acc
  | rx :: rest, rxIdx, acc =>
    fdFctlCrQueryLoopAt seqAt txSeq rest (rxIdx + 1) (fdFctlCrQueryRx fdSeqDiff (seqAt rxIdx) txSeq rx (BitVec.ofNat 64 rxIdx) acc)

/-- `fd_fctl_tx_cr_update` while anything is published. -/
def fdFctlTxCrUpdateAt (seqAt : Nat → Nat → Ulong) (slow : Nat → Ulong) (fctl : FdFctl) (crAvail txSeq : Ulong) :
    FdFctl × (Nat → Ulong) × Ulong :=
  if fctl.Queries crAvail then
    fdFctlTxCrUpdateQueried fctl slow crAvail fctl.inRefill
      (fdFctlCrQueryLoopAt fdSeqDiff seqAt txSeq fctl.rx 0 (fctl.crMax, ulongMax))
  else (fctl, slow, crAvail)

/-- A transmitter with its receivers, between two calls. -/
structure FctlTx where
  fctl : FdFctl
  slow : Nat → Ulong
  txSeq : Ulong
  crAvail : Ulong

/-- What a transmitter does: an update, with what is published during it, or a send of `n` sequence numbers. -/
inductive FctlOp where
  | update (seqAt : Nat → Nat → Ulong)
  | send (n : Ulong)

/-- One operation. A send takes credits that are there. -/
def FctlTx.step (s : FctlTx) : FctlOp → Option FctlTx
  | .update seqAt =>
    let (fctl, slow, crAvail) := fdFctlTxCrUpdateAt fdSeqDiff seqAt s.slow s.fctl s.crAvail s.txSeq
    some { s with fctl, slow, crAvail }
  | .send n => if n ≤ s.crAvail then some { s with txSeq := s.txSeq + n, crAvail := s.crAvail - n } else none

/-- A run of operations. -/
def FctlTx.run (s : FctlTx) (ops : List FctlOp) : Option FctlTx := ops.foldlM (FctlTx.step fdSeqDiff) s

end Diff

end VerifyFiredancer
