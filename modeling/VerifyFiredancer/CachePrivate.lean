import VerifyFiredancer.Bits

/-!
# CachePrivate: from a header to its cache and back

An mcache and a dcache are handed out as the address of their cache, and the header is recovered from that. The functions of
`fd_mcache_private.h` and `fd_dcache_private.h` do it twice: by pointer arithmetic, where the cache follows the header, and under
`__SEAHORN__`, where the header holds a pointer to its cache and two globals hold the headers last seen. The two files differ in
names only; here each function is the one of its family.

An address is a word. The size of a header, and the pointer to its cache that a header holds, are parameters.
-/

namespace VerifyFiredancer

/-! ## Under `__SEAHORN__` -/

/-- The globals of a family: `glb_mcahe_const_ptr` and `glb_mcahe_ptr`, or `glb_dcahe_const_ptr` and `glb_dcahe_ptr`. -/
structure CacheGlobals where
  glbConstPtr : Ulong
  glbPtr : Ulong
  deriving DecidableEq, Repr

namespace Seahorn

def privateCacheConst (cacheOf : Ulong → Ulong) (glb : CacheGlobals) (hdr : Ulong) : CacheGlobals × Ulong :=
  ({ glb with glbConstPtr := hdr }, cacheOf hdr)

def privateCache (cacheOf : Ulong → Ulong) (glb : CacheGlobals) (hdr : Ulong) : CacheGlobals × Ulong :=
  ({ glb with glbPtr := hdr }, cacheOf hdr)

/-- Both recover the header from the one global, whatever the cache. -/
def privateHdrConst (glb : CacheGlobals) (_cache : Ulong) : Ulong := glb.glbPtr
def privateHdr (glb : CacheGlobals) (_cache : Ulong) : Ulong := glb.glbPtr

/-- `fd_mcache_private_cache_const`, `fd_mcache_private_mcache`, `fd_mcache_private_hdr_const` and `fd_mcache_private_hdr`. -/
def fdMcachePrivateCacheConst (metaOf : Ulong → Ulong) := privateCacheConst metaOf
def fdMcachePrivateMcache (metaOf : Ulong → Ulong) := privateCache metaOf
def fdMcachePrivateHdrConst := privateHdrConst
def fdMcachePrivateHdr := privateHdr

/-- `fd_dcache_private_cache_const`, `fd_dcache_private_dcache`, `fd_dcache_private_hdr_const` and `fd_dcache_private_hdr`. -/
def fdDcachePrivateCacheConst (dataOf : Ulong → Ulong) := privateCacheConst dataOf
def fdDcachePrivateDcache (dataOf : Ulong → Ulong) := privateCache dataOf
def fdDcachePrivateHdrConst := privateHdrConst
def fdDcachePrivateHdr := privateHdr

end Seahorn

/-! ## By pointer arithmetic -/

namespace Pointer

/-- `(hdr+1UL)`. -/
def privateCache (sizeofHdr hdr : Ulong) : Ulong := hdr + sizeofHdr

/-- `((ulong)cache) - sizeof(hdr)`. -/
def privateHdr (sizeofHdr cache : Ulong) : Ulong := cache - sizeofHdr

/-- `fd_mcache_private_cache_const`, `fd_mcache_private_mcache`, `fd_mcache_private_hdr_const` and `fd_mcache_private_hdr`. -/
def fdMcachePrivateCacheConst (sizeofHdr : Ulong) := privateCache sizeofHdr
def fdMcachePrivateMcache (sizeofHdr : Ulong) := privateCache sizeofHdr
def fdMcachePrivateHdrConst (sizeofHdr : Ulong) := privateHdr sizeofHdr
def fdMcachePrivateHdr (sizeofHdr : Ulong) := privateHdr sizeofHdr

/-- `fd_dcache_private_cache_const`, `fd_dcache_private_dcache`, `fd_dcache_private_hdr_const` and `fd_dcache_private_hdr`. -/
def fdDcachePrivateCacheConst (sizeofHdr : Ulong) := privateCache sizeofHdr
def fdDcachePrivateDcache (sizeofHdr : Ulong) := privateCache sizeofHdr
def fdDcachePrivateHdrConst (sizeofHdr : Ulong) := privateHdr sizeofHdr
def fdDcachePrivateHdr (sizeofHdr : Ulong) := privateHdr sizeofHdr

end Pointer

/-! ## Sequences of calls -/

/-- The four functions of a family in one of the variants, over the globals it has. -/
structure CacheVariant (S : Type) where
  cacheConst : S → Ulong → S × Ulong
  cache : S → Ulong → S × Ulong
  hdrConst : S → Ulong → Ulong
  hdr : S → Ulong → Ulong

def mcacheSeahorn (metaOf : Ulong → Ulong) : CacheVariant CacheGlobals where
  cacheConst := Seahorn.fdMcachePrivateCacheConst metaOf
  cache := Seahorn.fdMcachePrivateMcache metaOf
  hdrConst := Seahorn.fdMcachePrivateHdrConst
  hdr := Seahorn.fdMcachePrivateHdr

def dcacheSeahorn (dataOf : Ulong → Ulong) : CacheVariant CacheGlobals where
  cacheConst := Seahorn.fdDcachePrivateCacheConst dataOf
  cache := Seahorn.fdDcachePrivateDcache dataOf
  hdrConst := Seahorn.fdDcachePrivateHdrConst
  hdr := Seahorn.fdDcachePrivateHdr

def mcachePointer (sizeofHdr : Ulong) : CacheVariant Unit where
  cacheConst := fun _ hdr => ((), Pointer.fdMcachePrivateCacheConst sizeofHdr hdr)
  cache := fun _ hdr => ((), Pointer.fdMcachePrivateMcache sizeofHdr hdr)
  hdrConst := fun _ => Pointer.fdMcachePrivateHdrConst sizeofHdr
  hdr := fun _ => Pointer.fdMcachePrivateHdr sizeofHdr

def dcachePointer (sizeofHdr : Ulong) : CacheVariant Unit where
  cacheConst := fun _ hdr => ((), Pointer.fdDcachePrivateCacheConst sizeofHdr hdr)
  cache := fun _ hdr => ((), Pointer.fdDcachePrivateDcache sizeofHdr hdr)
  hdrConst := fun _ => Pointer.fdDcachePrivateHdrConst sizeofHdr
  hdr := fun _ => Pointer.fdDcachePrivateHdr sizeofHdr

/-- A call of one of the four functions. -/
inductive CacheCall where
  | cacheConst (hdr : Ulong)
  | cache (hdr : Ulong)
  | hdrConst (cache : Ulong)
  | hdr (cache : Ulong)
  deriving DecidableEq, Repr

/-- A pointer to a cache, and the header and the function it was obtained with. -/
structure ObtainedCache where
  const : Bool
  hdr : Ulong
  cache : Ulong
  deriving DecidableEq, Repr

/-- The globals, and the pointers obtained so far. -/
structure CacheSys (S : Type) where
  glb : S
  obtained : List ObtainedCache

section Calls

variable {S : Type} (v : CacheVariant S)

/-- One call. Recovering a header changes nothing. -/
def cacheStep (s : CacheSys S) : CacheCall → CacheSys S
  | .cacheConst hdr =>
    let (glb, cache) := v.cacheConst s.glb hdr
    { glb := glb, obtained := ⟨true, hdr, cache⟩ :: s.obtained }
  | .cache hdr =>
    let (glb, cache) := v.cache s.glb hdr
    { glb := glb, obtained := ⟨false, hdr, cache⟩ :: s.obtained }
  | .hdrConst _ => s
  | .hdr _ => s

/-- A sequence of calls. -/
def cacheCalls (s : CacheSys S) (calls : List CacheCall) : CacheSys S := calls.foldl (cacheStep v) s

end Calls

end VerifyFiredancer
