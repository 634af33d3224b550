import VerifyFiredancer.Bits
import VerifyFiredancer.Lib.BlockHeap
import VerifyFiredancer.Lib.Harness

/-!
# SeaAllocators: allocators for a model checker

The allocators of `sea_allocators.c` and `proof_allocators.c`, as they are built without `__CRAB__` and `__KLEE__`: some layers
over `malloc`, which may decide to fail, round the size up, fill the block with any bytes, or free another block first.

What is decided outside of the sources is an environment: whether `nd_malloc_is_fail()` holds, where `malloc` puts a block, if
anywhere, and the bytes `memhavoc` writes. A block it gives is fresh, which is part of the value.
-/

namespace VerifyFiredancer

open BlockHeap Harness

/-- The decisions that a call depends on. -/
structure AllocEnv where
  ndMallocIsFail : Bool
  malloc : (h : Heap Uchar) → (n : Nat) → Option { a : Nat // h.Fresh (2 ^ 64) ⟨a, n⟩ }
  havoc : Nat → Uchar

/-- What a call does: the pointer it returns, the heap after it, and the ranges it wrote. -/
structure Alloc where
  ptr : Nat
  heap : Heap Uchar
  writes : List Block

variable (env : AllocEnv)

/-- `malloc`. -/
def libcMalloc (h : Heap Uchar) (sz : Ulong) : Alloc :=
  match env.malloc h sz.toNat with
  | none => ⟨0, h, []⟩
  | some a => ⟨a, h.add ⟨a, sz.toNat⟩ a.2, []⟩

/-- `memhavoc( data, size )` after a call that returned `data`. -/
def memhavoc (r : Alloc) (size : Ulong) : Alloc :=
  { r with
    heap := r.heap.fill ⟨r.ptr, size.toNat⟩ env.havoc
    writes := r.writes ++ [⟨r.ptr, size.toNat⟩] }

/-- `sea_malloc`. -/
def seaMalloc (h : Heap Uchar) (sz : Ulong) : Alloc := if env.ndMallocIsFail then ⟨0, h, []⟩ else libcMalloc env h sz

/-- `AWS_ALIGN_ROUND_UP`. -/
def awsAlignRoundUp (value alignment : Ulong) : Ulong := (value + (alignment - 1)) &&& ~~~(alignment - 1)

/-- `sea_malloc_aligned`. An `intmax_t` has 8 bytes. -/
def seaMallocAligned (h : Heap Uchar) (sz : Ulong) : Alloc := seaMalloc env h (awsAlignRoundUp sz 8)

/-- `sea_malloc_havoc`. -/
def seaMallocHavoc (h : Heap Uchar) (sz : Ulong) : Alloc := memhavoc env (seaMalloc env h sz) sz

/-- `sea_malloc_aligned_havoc`. -/
def seaMallocAlignedHavoc (h : Heap Uchar) (sz : Ulong) : Alloc := memhavoc env (seaMallocAligned env h sz) sz

/-- `sea_free`. -/
def seaFree (h : Heap Uchar) (ptr : Nat) : Heap Uchar := h.free ptr

/-- `sea_realloc`. -/
def seaRealloc (h : Heap Uchar) (ptr : Nat) (sz : Ulong) : Alloc := seaMalloc env (if ptr ≠ 0 then seaFree h ptr else h) sz

/-- `realloc`. -/
def libcRealloc (h : Heap Uchar) (ptr : Nat) (newSize : Ulong) : Alloc := seaRealloc env h ptr newSize

/-- `can_fail_malloc_havoc`. -/
def canFailMallocHavoc (h : Heap Uchar) (size : Ulong) : Alloc := if size = 0 then ⟨0, h, []⟩ else seaMallocHavoc env h size

/-- `sea_malloc_safe`. -/
def seaMallocSafe (h : Heap Uchar) (sz : Ulong) : Outcome Alloc := do
  let data := libcMalloc env h sz
  assume (data.ptr ≠ 0)
  return data

/-- `sea_malloc_havoc_safe`. -/
def seaMallocHavocSafe (h : Heap Uchar) (sz : Ulong) : Outcome Alloc := do
  let data := seaMallocHavoc env h sz
  assume (data.ptr ≠ 0)
  return data

/-- `sea_malloc_aligned_safe`. -/
def seaMallocAlignedSafe (h : Heap Uchar) (sz : Ulong) : Outcome Alloc := do
  let data := seaMallocAligned env h sz
  assume (data.ptr ≠ 0)
  return data

/-- `bounded_malloc_havoc`. -/
def boundedMallocHavoc (h : Heap Uchar) (size : Ulong) : Outcome Alloc :=
  if size = 0 then return ⟨0, h, []⟩ else seaMallocHavocSafe env h size

end VerifyFiredancer
