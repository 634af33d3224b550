import VerifyFiredancer.Bits
import VerifyFiredancer.Lib.ObjectHeap

/-!
# FseqOverride: an fseq in two objects

For the model checker the sequence word of an fseq is not part of the object that is shared. The stub `fseq_override.c` keeps two
objects in globals, the header `hidden` and the word array `g_ul_ptr`, and a join of the header gives the array. The accessors
are those of `fd_fseq.h`, which find what they look for at fixed places around the pointer that a join gave.

An object is an array of words. `fd_fseq_new` and `fd_fseq_align` are not part of the sources: the first formats the words of
the header and returns it, and is a parameter here; the second is `FD_FSEQ_ALIGN`. The allocation of `bounded_malloc_havoc`
succeeds unless it is of nothing, as the stub assumes.
-/

namespace VerifyFiredancer

open ObjectHeap

/-- `FD_FSEQ_MAGIC`, `FD_FSEQ_ALIGN` and `FD_FSEQ_APP_FOOTPRINT`. -/
def fdFseqMagic : Ulong := 0xf17eda2c37f5ec00
def fdFseqAlign : Ulong := 128
def fdFseqAppFootprint : Nat := 96

/-- The size of a `ulong`, and that of an `fd_fseq_shmem_t`, which is aligned to `FD_FSEQ_ALIGN`. -/
def sizeofUlong : Ulong := 8
def sizeofFdFseqShmem : Ulong := 128

/-- What is decided outside of the sources: what new words hold, where the header is, and how it is formatted. -/
structure FseqEnv where
  havoc : Nat → Ulong
  hiddenAddr : Ulong
  format : List Ulong → Ulong → List Ulong

/-- The heap and the globals. -/
structure FseqState where
  heap : ObjHeap Ulong
  gUlPtr : Ptr
  hidden : Ptr

/-- Where a run starts. -/
def FseqState.init : FseqState := ⟨[], none, none⟩

section Stub

variable (env : FseqEnv)

/-- `bounded_malloc_havoc`, of words. -/
def boundedMallocHavocWords (heap : ObjHeap Ulong) (size : Ulong) : ObjHeap Ulong × Ptr :=
  if size = 0 then (heap, none)
  else
    let (heap, p) := alloc heap ((List.range (size.toNat / 8)).map env.havoc)
    (heap, some p)

/-- `initialize_bounded_seq`: the state after it and the array. -/
def initializeBoundedSeq (s : FseqState) (size seq0 : Ulong) : Option (FseqState × Ptr) := do
  if s.gUlPtr = none then
    let (heap, gUlPtr) := boundedMallocHavocWords env s.heap ((size + 1) * sizeofUlong)
    let heap ← store heap gUlPtr seq0
    return ({ s with heap, gUlPtr }, gUlPtr)
  else return (s, s.gUlPtr)

/-- `allocate_fseq`. -/
def allocateFseq (s : FseqState) : FseqState :=
  if s.hidden = none then
    let (heap, hidden) := boundedMallocHavocWords env s.heap sizeofFdFseqShmem
    { s with heap, hidden }
  else s

/-- `fd_fseq_new`, of a header. -/
def fdFseqNew (s : FseqState) (shmem : Ptr) (seq0 : Ulong) : Option (FseqState × Ptr) := do
  let p ← shmem
  let ws ← s.heap[p.obj]?
  return ({ s with heap := s.heap.set p.obj (env.format ws seq0) }, shmem)

/-- `fd_fseq_join`. A read of the magic may fail. -/
def fdFseqJoin (s : FseqState) (shfseq : Ptr) : Option Ptr :=
  if shfseq = none then some none
  else if env.hiddenAddr &&& (fdFseqAlign - 1) ≠ 0 then some none
  else do
    let magic ← load s.heap shfseq
    if magic ≠ fdFseqMagic then return none else return s.gUlPtr

end Stub

/-- `fd_fseq_leave`. -/
def fdFseqLeave (s : FseqState) (fseq : Ptr) : Ptr := if fseq = none then none else s.hidden

/-- `fd_fseq_app_laddr`, `fd_fseq_seq0`, `fd_fseq_query` and `fd_fseq_update`. -/
def fdFseqAppLaddr (fseq : Ptr) : Ptr := fseq.map (·.add 2)
def fdFseqSeq0 (heap : ObjHeap Ulong) (fseq : Ptr) : Option Ulong := load heap (fseq.map (·.add (-1)))
def fdFseqQuery (heap : ObjHeap Ulong) (fseq : Ptr) : Option Ulong := load heap fseq
def fdFseqUpdate (heap : ObjHeap Ulong) (fseq : Ptr) (seq : Ulong) : Option (ObjHeap Ulong) := store heap fseq seq

/-- A run: an fseq is allocated, formatted and joined, and then updated. It gives the state, the header that was joined and the
pointer that the join gave. -/
def fseqRun (env : FseqEnv) (size seq0 : Ulong) (updates : List Ulong) : Option (FseqState × Ptr × Ptr) := do
  let s := allocateFseq env FseqState.init
  let (s, _) ← initializeBoundedSeq env s size seq0
  let (s, shfseq) ← fdFseqNew env s s.hidden seq0
  let fseq ← fdFseqJoin env s shfseq
  let heap ← updates.foldlM (fun heap seq => fdFseqUpdate heap fseq seq) s.heap
  return ({ s with heap }, shfseq, fseq)

end VerifyFiredancer
