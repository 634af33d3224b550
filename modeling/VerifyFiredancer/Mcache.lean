import VerifyFiredancer.Bits
import VerifyFiredancer.Lib.PowerMask
import Mathlib.Logic.Function.Basic
import Mathlib.Logic.Relation

/-!
# Mcache: the cache of the most recent fragment metadata

A producer publishes the metadata of fragments in the order of their sequence numbers. The mcache is an array of `depth` lines,
and a sequence number has its line by its low bits. Nothing is locked: `fd_mcache_publish` marks a line with the sequence number
before the one it is going to publish, stores the fields and then the sequence number, and `FD_MCACHE_WAIT` reads the sequence
number of a line before and after it copies the line. The functions of this file are those of `fd_mcache.h` with
`FD_MCACHE_LG_INTERLEAVE` zero, and beside them the line index for any other; after them the producer and a consumer as a
system, one step for each access of memory.

`fd_seq_dec`, `fd_seq_diff` and `fd_frag_meta_seq_query` are not part of the sources, and are parameters here. `fd_frag_meta_t`
is not either; its fields are those that `fd_mcache_publish` stores, at the widths it casts them to.
-/

namespace VerifyFiredancer

/-- `FD_MCACHE_BLOCK`. -/
def fdMcacheBlock : Ulong := 128

/-- `fd_frag_meta_t`. -/
structure FdFragMeta where
  seq : Ulong
  sig : Ulong
  chunk : Uint
  sz : Ushort
  ctl : Ushort
  tsorig : Uint
  tspub : Uint
  deriving DecidableEq, Repr

/-- The fields of a `fd_frag_meta_t`, each of which is accessed atomically. -/
inductive FragField where
  | seq
  | sig
  | chunk
  | sz
  | ctl
  | tsorig
  | tspub
  deriving DecidableEq, Repr

/-- The fields of a line that `fd_mcache_publish` stores between its two stores of `seq`. -/
def FragField.body : List FragField := [.sig, .chunk, .sz, .ctl, .tsorig, .tspub]

/-- All fields of a line. -/
def FragField.all : List FragField := .seq :: FragField.body

/-- The value of a field. -/
def FdFragMeta.get (frag : FdFragMeta) : FragField → Nat
  | .seq => frag.seq.toNat
  | .sig => frag.sig.toNat
  | .chunk => frag.chunk.toNat
  | .sz => frag.sz.toNat
  | .ctl => frag.ctl.toNat
  | .tsorig => frag.tsorig.toNat
  | .tspub => frag.tspub.toNat

/-- A store of one field, with the value it has in `src`. -/
def FdFragMeta.store (dst : FdFragMeta) (f : FragField) (src : FdFragMeta) : FdFragMeta :=
  match f with
  | .seq => { dst with seq := src.seq }
  | .sig => { dst with sig := src.sig }
  | .chunk => { dst with chunk := src.chunk }
  | .sz => { dst with sz := src.sz }
  | .ctl => { dst with ctl := src.ctl }
  | .tsorig => { dst with tsorig := src.tsorig }
  | .tspub => { dst with tspub := src.tspub }

/-- The arguments of `fd_mcache_publish` that describe the fragment. -/
structure PublishArgs where
  sig : Ulong
  chunk : Ulong
  sz : Ulong
  ctl : Ulong
  tsorig : Ulong
  tspub : Ulong
  deriving DecidableEq, Repr

/-- The metadata that is published for `seq`: the arguments as `fd_mcache_publish` casts them. -/
def PublishArgs.frag (args : PublishArgs) (seq : Ulong) : FdFragMeta where
  seq := seq
  sig := args.sig
  chunk := args.chunk.setWidth 32
  sz := args.sz.setWidth 16
  ctl := args.ctl.setWidth 16
  tsorig := args.tsorig.setWidth 32
  tspub := args.tspub.setWidth 32

/-- `fd_mcache_line_idx`. -/
def fdMcacheLineIdx (seq depth : Ulong) : Ulong := seq &&& (depth - 1)

/-- `fd_mcache_line_idx` where `FD_MCACHE_LG_INTERLEAVE` is not zero. It and `FD_MCACHE_LG_BLOCK` are arguments here, and
`FD_MCACHE_BLOCK` is `2^FD_MCACHE_LG_BLOCK`. -/
def fdMcacheLineIdxInterleaved (lgBlock lgInterleave : Nat) (seq depth : Ulong) : Ulong :=
  let blockMask : Ulong := (1#64 <<< lgBlock) - 1
  let pageMask := (depth - 1) &&& ~~~blockMask
  let page := seq &&& pageMask
  let bank := (seq <<< lgInterleave) &&& blockMask
  let idx := (seq &&& blockMask) >>> (lgBlock - lgInterleave)
  page ||| bank ||| idx

/-- What a mcache is constructed with: a depth, "an integer power of 2 >= FD_MCACHE_BLOCK", and the sequence number that its
producer starts at. -/
structure McacheCfg where
  depth : Ulong
  seq0 : Ulong
  block_le : fdMcacheBlock ≤ depth
  pow2 : ∃ k, depth.toNat = 2 ^ k

namespace McacheAux

/-- The index of a line is the sequence number modulo the depth. -/
theorem lineIdx_toNat (cfg : McacheCfg) (seq : Ulong) :
    (fdMcacheLineIdx seq cfg.depth).toNat = seq.toNat % cfg.depth.toNat := by
  obtain ⟨k, hk⟩ := cfg.pow2
  rw [fdMcacheLineIdx, PowerMask.toNat_and_mask hk, hk]

end McacheAux

/-- The line of a sequence number, which is in `[0,depth)`. -/
def McacheCfg.line (cfg : McacheCfg) (seq : Ulong) : Fin cfg.depth.toNat :=
  ⟨(fdMcacheLineIdx seq cfg.depth).toNat, by
    rw [McacheAux.lineIdx_toNat]
    exact Nat.mod_lt _ (Nat.lt_of_lt_of_le (by decide) cfg.block_le)⟩

/-- The lines of a mcache. -/
abbrev Mcache (cfg : McacheCfg) : Type := Fin cfg.depth.toNat → FdFragMeta

/-- The `n`-th sequence number. -/
def McacheCfg.seq (cfg : McacheCfg) (n : Nat) : Ulong := cfg.seq0 + BitVec.ofNat 64 n

section Seq

variable (fdSeqDec : Ulong → Ulong → Ulong) (fdSeqDiff : Ulong → Ulong → Long)

/-- `fd_mcache_publish`. -/
def fdMcachePublish {cfg : McacheCfg} (mcache : Mcache cfg) (seq : Ulong) (args : PublishArgs) : Mcache cfg :=
  let line := mcache (cfg.line seq)
  let line := { line with seq := fdSeqDec seq 1 }
  let line := FragField.body.foldl (fun line f => line.store f (args.frag seq)) line
  let line := { line with seq := seq }
  Function.update mcache (cfg.line seq) line

/-- Publications one after the other: `args k` for the `k`-th sequence number, `n` of them from `seq0` on. -/
def mcachePublishes {cfg : McacheCfg} (args : Nat → PublishArgs) (mcache : Mcache cfg) : Nat → Mcache cfg
  | 0 => mcache
  | n + 1 => fdMcachePublish fdSeqDec (mcachePublishes args mcache n) (cfg.seq n) (args n)

/-- `fd_mcache_query`, where `fd_frag_meta_seq_query` is a parameter too. -/
def fdMcacheQuery (fdFragMetaSeqQuery : FdFragMeta → Ulong) {cfg : McacheCfg} (mcache : Mcache cfg) (seqQuery : Ulong) :
    Ulong :=
  fdFragMetaSeqQuery (mcache (cfg.line seqQuery))

/-- The end of a poll of `FD_MCACHE_WAIT`, where `pollMax` is decremented already: whether the wait is done. -/
def fdMcacheWaitDone (seqFound seqTest : Ulong) (seqDiff : Long) (pollMax : Ulong) : Bool :=
  (seqFound == seqTest && (0 : Long).sle seqDiff) || pollMax == 0

/-! ## The producer and a consumer -/

/-- Where the producer is: between two publications, or in one, with the fields it has yet to store. -/
inductive PublishPc where
  | ready
  | body (todo : List FragField)

/-- Where the consumer is: not waiting; at the read of `seq_found`; in the copy of the line, with the fields it has yet to copy;
at the decision; back from the wait. Each carries what the wait has computed by then. -/
inductive WaitPc where
  | idle
  | found (seqExpected pollMax : Ulong) (frag : FdFragMeta)
  | copy (seqExpected pollMax : Ulong) (frag : FdFragMeta) (seqFound : Ulong) (todo : List FragField)
  | decide (seqExpected pollMax : Ulong) (frag : FdFragMeta) (seqFound seqTest : Ulong)
  | done (seqExpected pollMax : Ulong) (frag : FdFragMeta) (seqFound : Ulong) (seqDiff : Long)

/-- A mcache, how many sequence numbers its producer has published, and where the producer and the consumer are. -/
structure McacheSys (cfg : McacheCfg) where
  mcache : Mcache cfg
  published : Nat
  producer : PublishPc
  consumer : WaitPc

variable {cfg : McacheCfg}

/-- How many publications the producer has begun. -/
def McacheSys.begun (s : McacheSys cfg) : Nat :=
  match s.producer with
  | .ready => s.published
  | .body _ => s.published + 1

/-- The steps of the producer that publishes `args n` for the `n`-th sequence number. The stores between the two fences of
`fd_mcache_publish` may come in any order. -/
inductive PublishStep (args : Nat → PublishArgs) : McacheSys cfg → McacheSys cfg → Prop
  | mark (s : McacheSys cfg) (hp : s.producer = .ready) :
      PublishStep args s { s with
        mcache := Function.update s.mcache (cfg.line (cfg.seq s.published))
          { s.mcache (cfg.line (cfg.seq s.published)) with seq := fdSeqDec (cfg.seq s.published) 1 }
        producer := .body FragField.body }
  | store (s : McacheSys cfg) (todo : List FragField) (f : FragField) (hp : s.producer = .body todo) (hf : f ∈ todo) :
      PublishStep args s { s with
        mcache := Function.update s.mcache (cfg.line (cfg.seq s.published))
          ((s.mcache (cfg.line (cfg.seq s.published))).store f ((args s.published).frag (cfg.seq s.published)))
        producer := .body (todo.erase f) }
  | stamp (s : McacheSys cfg) (hp : s.producer = .body []) :
      PublishStep args s { s with
        mcache := Function.update s.mcache (cfg.line (cfg.seq s.published))
          { s.mcache (cfg.line (cfg.seq s.published)) with seq := cfg.seq s.published }
        published := s.published + 1
        producer := .ready }

/-- The steps of the consumer. It starts a wait for any sequence number, with a positive `poll_max` and whatever its buffer
holds; the copy of a line, which the source does not take to be atomic, may go through the fields in any order. -/
inductive WaitStep : McacheSys cfg → McacheSys cfg → Prop
  | wait (s : McacheSys cfg) (seqExpected pollMax : Ulong) (frag : FdFragMeta)
      (hc : s.consumer = .idle ∨ ∃ e p m w d, s.consumer = .done e p m w d) (hp : 0 < pollMax) :
      WaitStep s { s with consumer := .found seqExpected pollMax frag }
  | found (s : McacheSys cfg) (seqExpected pollMax : Ulong) (frag : FdFragMeta)
      (hc : s.consumer = .found seqExpected pollMax frag) :
      WaitStep s { s with
        consumer := .copy seqExpected pollMax frag (s.mcache (cfg.line seqExpected)).seq FragField.all }
  | copy (s : McacheSys cfg) (seqExpected pollMax : Ulong) (frag : FdFragMeta) (seqFound : Ulong) (todo : List FragField)
      (f : FragField) (hc : s.consumer = .copy seqExpected pollMax frag seqFound todo) (hf : f ∈ todo) :
      WaitStep s { s with
        consumer := .copy seqExpected pollMax (frag.store f (s.mcache (cfg.line seqExpected))) seqFound (todo.erase f) }
  | test (s : McacheSys cfg) (seqExpected pollMax : Ulong) (frag : FdFragMeta) (seqFound : Ulong)
      (hc : s.consumer = .copy seqExpected pollMax frag seqFound []) :
      WaitStep s { s with consumer := .decide seqExpected pollMax frag seqFound (s.mcache (cfg.line seqExpected)).seq }
  | decide (s : McacheSys cfg) (seqExpected pollMax : Ulong) (frag : FdFragMeta) (seqFound seqTest : Ulong)
      (hc : s.consumer = .decide seqExpected pollMax frag seqFound seqTest) :
      WaitStep s { s with
        consumer :=
          if fdMcacheWaitDone seqFound seqTest (fdSeqDiff seqFound seqExpected) (pollMax - 1) then
            .done seqExpected (pollMax - 1) frag seqFound (fdSeqDiff seqFound seqExpected)
          else .found seqExpected (pollMax - 1) frag }

/-- A step of the producer or of the consumer. -/
def McacheStep (args : Nat → PublishArgs) (s t : McacheSys cfg) : Prop :=
  PublishStep fdSeqDec args s t ∨ WaitStep fdSeqDiff s t

/-- A run of the system. -/
abbrev McacheRun (args : Nat → PublishArgs) : McacheSys cfg → McacheSys cfg → Prop :=
  Relation.ReflTransGen (McacheStep fdSeqDec fdSeqDiff args)

/-- A new mcache, nothing published and nobody waiting: every line holds a sequence number before `seq0`, by at most `2^62`. -/
structure McacheSys.Initial (s : McacheSys cfg) : Prop where
  published : s.published = 0
  producer : s.producer = .ready
  consumer : s.consumer = .idle
  before : ∀ i, ∃ j, 1 ≤ j ∧ j ≤ 2 ^ 62 ∧ (s.mcache i).seq = cfg.seq0 - BitVec.ofNat 64 j

end Seq

end VerifyFiredancer
