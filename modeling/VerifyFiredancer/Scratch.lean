import VerifyFiredancer.Bits

/-!
# Scratch: layouts at compile time, allocations at run time

Two families of macros of `fd_bits.h` place regions of given alignments and sizes one after the other: `FD_LAYOUT_INIT`,
`FD_LAYOUT_APPEND` and `FD_LAYOUT_FINI` compute the footprint of all, `FD_SCRATCH_ALLOC_INIT`, `FD_SCRATCH_ALLOC_APPEND` and
`FD_SCRATCH_ALLOC_FINI` give the addresses from a base on. Both compute in 64 bits.

`FD_LOG_ERR` logs its message and does not return: an append either logs one or has a result.
-/

namespace VerifyFiredancer

/-- `fd_ulong_align_up`. -/
def fdUlongAlignUp (x a : Ulong) : Ulong :=
  let a := a - 1
  (x + a) &&& ~~~a

/-- The macro `FD_ULONG_ALIGN_UP`. -/
def fdUlongAlignUpMacro (x a : Ulong) : Ulong := (x + (a - 1)) &&& ~~~(a - 1)

/-- `FD_LAYOUT_INIT`. -/
def fdLayoutInit : Ulong := 0

/-- `FD_LAYOUT_APPEND`. -/
def fdLayoutAppend (l a s : Ulong) : Ulong := fdUlongAlignUpMacro l a + s

/-- `FD_LAYOUT_FINI`. -/
def fdLayoutFini (l a : Ulong) : Ulong := fdUlongAlignUpMacro l a

/-- `FD_SCRATCH_ALLOC_INIT`: where the allocations go on. -/
def fdScratchAllocInit (base : Ulong) : Ulong := base

/-- `FD_SCRATCH_ALLOC_APPEND`, of an operation with the name `layout` that goes on at `next`: the address it returns and where
the allocations go on, or the message it logs. -/
def fdScratchAllocAppend (layout : String) (next align sz : Ulong) : Except String (Ulong × Ulong) :=
  let scratchAlloc := fdUlongAlignUp next align
  if scratchAlloc + sz < scratchAlloc then
    .error ("FD_SCRATCH_ALLOC_APPEND( " ++ layout ++ ", " ++ toString align.toNat ++ ", " ++ toString sz.toNat ++ " ) overflowed")
  else .ok (scratchAlloc, scratchAlloc + sz)

/-- `FD_SCRATCH_ALLOC_FINI`. -/
def fdScratchAllocFini (next align : Ulong) : Ulong := fdUlongAlignUpMacro next align

/-! ## Sequences -/

/-- A region to append. Its alignment is a power of 2. -/
structure AppendReq where
  align : Ulong
  sz : Ulong
  pow2 : ∃ k, align.toNat = 2 ^ k

/-- A region that was appended, at an address. -/
structure ScratchRegion extends AppendReq where
  ptr : Ulong

/-- Appends to a layout, one after the other. -/
def fdLayoutAppends (l : Ulong) (reqs : List AppendReq) : Ulong := reqs.foldl (fun l r => fdLayoutAppend l r.align r.sz) l

/-- Where each of these appends puts its region: where the layout ends after it, less the size. -/
def fdLayoutOffsets : Ulong → List AppendReq → List Ulong
  | _, [] => []
  | l, r :: rs => (fdLayoutAppend l r.align r.sz - r.sz) :: fdLayoutOffsets (fdLayoutAppend l r.align r.sz) rs

/-- Appends to a scratch allocation until one logs an error: the regions that were returned, and where the allocations go on or
the message. -/
def fdScratchAllocAppends (layout : String) : Ulong → List AppendReq → List ScratchRegion × Except String Ulong
  | next, [] => ([], .ok next)
  | next, r :: rs =>
    match fdScratchAllocAppend layout next r.align r.sz with
    | .error msg => ([], .error msg)
    | .ok (ptr, next) =>
      let (regions, res) := fdScratchAllocAppends layout next rs
      ({ r with ptr } :: regions, res)

end VerifyFiredancer
