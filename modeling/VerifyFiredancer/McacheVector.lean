import VerifyFiredancer.Mcache
import Mathlib.Data.List.Basic

/-!
# Mcache: publications and waits by vectors

`fd_mcache_publish` and `FD_MCACHE_WAIT` have variants that access a line by parts of several fields: `fd_mcache_publish_sse` and
`FD_MCACHE_WAIT_SSE` by its two halves `sse0` and `sse1`, `fd_mcache_publish_avx` and `FD_MCACHE_WAIT_AVX` as a whole, and
`FD_MCACHE_WAIT_REG` field by field into registers. The targets they are for access such a part atomically. A variant is the list of
the parts it accesses; the fields of a half are those that `fd_frag_meta_sse0` and `fd_frag_meta_sse1` take.
-/

namespace VerifyFiredancer

/-- The fields of `sse0`. -/
def FragField.sse0 : List FragField := [.seq, .sig]

/-- The fields of `sse1`. -/
def FragField.sse1 : List FragField := [.chunk, .sz, .ctl, .tsorig, .tspub]

/-- Stores of several fields, with the values they have in `src`. -/
def FdFragMeta.storeAll (dst : FdFragMeta) (fs : List FragField) (src : FdFragMeta) : FdFragMeta :=
  fs.foldl (fun line f => line.store f src) dst

/-- How a line is published: the body fields that are stored with the mark, and after it the parts, one store each; or all of it
in one store. -/
structure PublishAccess where
  mark : List FragField
  parts : List (List FragField)
  whole : Bool
  mark_nodup : mark.Nodup
  mark_subset : ∀ f ∈ mark, f ∈ FragField.body
  parts_nodup : ∀ part ∈ parts, part.Nodup
  todo : FragField.body.diff mark = parts.flatten

/-- `fd_mcache_publish`. -/
def PublishAccess.scalar : PublishAccess where
  mark := []
  parts := FragField.body.map fun f => [f]
  whole := false
  mark_nodup := by decide
  mark_subset := by decide
  parts_nodup := by decide
  todo := by decide

/-- `fd_mcache_publish_sse`. -/
def PublishAccess.sse : PublishAccess where
  mark := [.sig]
  parts := [FragField.sse1]
  whole := false
  mark_nodup := by decide
  mark_subset := by decide
  parts_nodup := by decide
  todo := by decide

/-- `fd_mcache_publish_avx`. -/
def PublishAccess.avx : PublishAccess where
  mark := FragField.body
  parts := []
  whole := true
  mark_nodup := by decide
  mark_subset := by decide
  parts_nodup := by decide
  todo := by decide

/-- How a wait reads its line: the fields it reads with `seq_found`, and after them the parts, one read each; a wait that reads the
line at once reads no sequence number again. -/
structure WaitAccess where
  first : List FragField
  parts : List (List FragField)
  whole : Bool
  first_nodup : first.Nodup
  parts_nodup : ∀ part ∈ parts, part.Nodup
  todo : FragField.all.diff first = parts.flatten
  whole_parts : whole → parts = []

/-- `FD_MCACHE_WAIT`. -/
def WaitAccess.meta : WaitAccess where
  first := []
  parts := FragField.all.map fun f => [f]
  whole := false
  first_nodup := by decide
  parts_nodup := by decide
  todo := by decide
  whole_parts := by decide

/-- `FD_MCACHE_WAIT_REG`. It has no register for the sequence number of the line, which is `seq_found`. -/
def WaitAccess.reg : WaitAccess where
  first := [.seq]
  parts := FragField.body.map fun f => [f]
  whole := false
  first_nodup := by decide
  parts_nodup := by decide
  todo := by decide
  whole_parts := by decide

/-- `FD_MCACHE_WAIT_SSE`. -/
def WaitAccess.sse : WaitAccess where
  first := FragField.sse0
  parts := [FragField.sse1]
  whole := false
  first_nodup := by decide
  parts_nodup := by decide
  todo := by decide
  whole_parts := by decide

/-- `FD_MCACHE_WAIT_AVX`. -/
def WaitAccess.avx : WaitAccess where
  first := FragField.all
  parts := []
  whole := true
  first_nodup := by decide
  parts_nodup := by decide
  todo := by decide
  whole_parts := by decide

section Seq

variable (fdSeqDec : Ulong → Ulong → Ulong) (fdSeqDiff : Ulong → Ulong → Long) {cfg : McacheCfg}

/-- A publication that nothing comes between: the mark with its fields, the parts, and the sequence number. -/
def fdMcachePublishBy (access : PublishAccess) (mcache : Mcache cfg) (seq : Ulong) (args : PublishArgs) : Mcache cfg :=
  if access.whole then Function.update mcache (cfg.line seq) (args.frag seq)
  else
    let line := mcache (cfg.line seq)
    let line := ({ line with seq := fdSeqDec seq 1 } : FdFragMeta).storeAll access.mark (args.frag seq)
    let line := access.parts.foldl (fun line part => line.storeAll part (args.frag seq)) line
    Function.update mcache (cfg.line seq) { line with seq := seq }

/-- `fd_mcache_publish_sse`. -/
def fdMcachePublishSse (mcache : Mcache cfg) (seq : Ulong) (args : PublishArgs) : Mcache cfg :=
  fdMcachePublishBy fdSeqDec .sse mcache seq args

/-- `fd_mcache_publish_avx`. -/
def fdMcachePublishAvx (mcache : Mcache cfg) (seq : Ulong) (args : PublishArgs) : Mcache cfg :=
  fdMcachePublishBy fdSeqDec .avx mcache seq args

/-- The steps of a producer that publishes so. -/
inductive PublishByStep (access : PublishAccess) (args : Nat → PublishArgs) : McacheSys cfg → McacheSys cfg → Prop
  | mark (s : McacheSys cfg) (hw : access.whole = false) (hp : s.producer = .ready) :
      PublishByStep access args s { s with
        mcache := Function.update s.mcache (cfg.line (cfg.seq s.published))
          (({ s.mcache (cfg.line (cfg.seq s.published)) with seq := fdSeqDec (cfg.seq s.published) 1 } : FdFragMeta).storeAll
            access.mark ((args s.published).frag (cfg.seq s.published)))
        producer := .body (FragField.body.diff access.mark) }
  | store (s : McacheSys cfg) (todo part : List FragField) (hw : access.whole = false) (hp : s.producer = .body todo)
      (hpart : part ∈ access.parts) (hsub : ∀ f ∈ part, f ∈ todo) :
      PublishByStep access args s { s with
        mcache := Function.update s.mcache (cfg.line (cfg.seq s.published))
          ((s.mcache (cfg.line (cfg.seq s.published))).storeAll part ((args s.published).frag (cfg.seq s.published)))
        producer := .body (todo.diff part) }
  | stamp (s : McacheSys cfg) (hw : access.whole = false) (hp : s.producer = .body []) :
      PublishByStep access args s { s with
        mcache := Function.update s.mcache (cfg.line (cfg.seq s.published))
          { s.mcache (cfg.line (cfg.seq s.published)) with seq := cfg.seq s.published }
        published := s.published + 1
        producer := .ready }
  | whole (s : McacheSys cfg) (hw : access.whole = true) (hp : s.producer = .ready) :
      PublishByStep access args s { s with
        mcache := Function.update s.mcache (cfg.line (cfg.seq s.published)) ((args s.published).frag (cfg.seq s.published))
        published := s.published + 1 }

/-- The steps of a consumer that waits so. -/
inductive WaitByStep (access : WaitAccess) : McacheSys cfg → McacheSys cfg → Prop
  | wait (s : McacheSys cfg) (seqExpected pollMax : Ulong) (frag : FdFragMeta)
      (hc : s.consumer = .idle ∨ ∃ e p m w d, s.consumer = .done e p m w d) (hp : 0 < pollMax) :
      WaitByStep access s { s with consumer := .found seqExpected pollMax frag }
  | found (s : McacheSys cfg) (seqExpected pollMax : Ulong) (frag : FdFragMeta) (hw : access.whole = false)
      (hc : s.consumer = .found seqExpected pollMax frag) :
      WaitByStep access s { s with
        consumer := .copy seqExpected pollMax (frag.storeAll access.first (s.mcache (cfg.line seqExpected)))
          (s.mcache (cfg.line seqExpected)).seq (FragField.all.diff access.first) }
  | copy (s : McacheSys cfg) (seqExpected pollMax : Ulong) (frag : FdFragMeta) (seqFound : Ulong) (todo part : List FragField)
      (hc : s.consumer = .copy seqExpected pollMax frag seqFound todo) (hpart : part ∈ access.parts)
      (hsub : ∀ f ∈ part, f ∈ todo) :
      WaitByStep access s { s with
        consumer := .copy seqExpected pollMax (frag.storeAll part (s.mcache (cfg.line seqExpected))) seqFound
          (todo.diff part) }
  | test (s : McacheSys cfg) (seqExpected pollMax : Ulong) (frag : FdFragMeta) (seqFound : Ulong)
      (hc : s.consumer = .copy seqExpected pollMax frag seqFound []) :
      WaitByStep access s { s with
        consumer := .decide seqExpected pollMax frag seqFound (s.mcache (cfg.line seqExpected)).seq }
  | whole (s : McacheSys cfg) (seqExpected pollMax : Ulong) (frag : FdFragMeta) (hw : access.whole = true)
      (hc : s.consumer = .found seqExpected pollMax frag) :
      WaitByStep access s { s with
        consumer := .decide seqExpected pollMax (frag.storeAll access.first (s.mcache (cfg.line seqExpected)))
          (s.mcache (cfg.line seqExpected)).seq (s.mcache (cfg.line seqExpected)).seq }
  | decide (s : McacheSys cfg) (seqExpected pollMax : Ulong) (frag : FdFragMeta) (seqFound seqTest : Ulong)
      (hc : s.consumer = .decide seqExpected pollMax frag seqFound seqTest) :
      WaitByStep access s { s with
        consumer :=
          if fdMcacheWaitDone seqFound seqTest (fdSeqDiff seqFound seqExpected) (pollMax - 1) then
            .done seqExpected (pollMax - 1) frag seqFound (fdSeqDiff seqFound seqExpected)
          else .found seqExpected (pollMax - 1) frag }

/-- A step of such a producer or consumer. -/
def McacheByStep (pub : PublishAccess) (wait : WaitAccess) (args : Nat → PublishArgs) (s t : McacheSys cfg) : Prop :=
  PublishByStep fdSeqDec pub args s t ∨ WaitByStep fdSeqDiff wait s t

/-- A run of the system with them. -/
abbrev McacheByRun (pub : PublishAccess) (wait : WaitAccess) (args : Nat → PublishArgs) : McacheSys cfg → McacheSys cfg → Prop :=
  Relation.ReflTransGen (McacheByStep fdSeqDec fdSeqDiff pub wait args)

end Seq

end VerifyFiredancer
