import VerifyFiredancer.Tcache
import VerifyFiredancer.Scratch
import VerifyFiredancer.Lib.Layout

/-!
# Tcache: the region of a tcache in memory

The functions and the macros of `fd_tcache.h` as they access memory: on pointers to the ring and to the map of a tcache that is
one region of a memory, as the accessors of a build without `__SEAHORN__` give them. The region has a header of four words, the
ring right after it and the map right after the ring.

A memory is the list of its words and a pointer is the index of a word. As for the arrays of the unpacked fields, an access
outside of the memory has no result, and neither has a loop that takes more rounds than its `fuel`.
-/

namespace VerifyFiredancer

/-- `FD_TCACHE_ALIGN`. -/
def fdTcacheAlign : Ulong := 128

/-- `FD_TCACHE_FOOTPRINT`. -/
def fdTcacheFootprint (depth mapCnt : Ulong) : Ulong :=
  fdLayoutFini (fdLayoutAppend fdLayoutInit fdTcacheAlign ((4 + depth + mapCnt) * 8)) fdTcacheAlign

/-- A read `a[i]` of the memory. -/
def ldWord (mem : List Ulong) (a : Nat) (i : Ulong) : Option Ulong := mem[a + i.toNat]?

/-- A write `a[i] = v` of the memory. -/
def stWord (mem : List Ulong) (a : Nat) (i v : Ulong) : Option (List Ulong) :=
  if a + i.toNat < mem.length then some (mem.set (a + i.toNat) v) else none

/-! ## Accessors -/

/-- `fd_tcache_depth`: the word of the header after `magic`. -/
def fdTcacheDepth (mem : List Ulong) (tcache : Nat) : Option Ulong := ldWord mem tcache 1

/-- `fd_tcache_map_cnt`. -/
def fdTcacheMapCnt (mem : List Ulong) (tcache : Nat) : Option Ulong := ldWord mem tcache 2

/-- `fd_tcache_oldest_laddr`. -/
def fdTcacheOldestLaddr (tcache : Nat) : Nat := tcache + 3

/-- `fd_tcache_ring_laddr`. -/
def fdTcacheRingLaddr (tcache : Nat) : Nat := tcache + 4

/-- `fd_tcache_map_laddr`. -/
def fdTcacheMapLaddr (mem : List Ulong) (tcache : Nat) : Option Nat := do
  let depth ← fdTcacheDepth mem tcache
  return tcache + 4 + depth.toNat

/-! ## Operations -/

/-- The loops of `fd_tcache_reset`, of the array at `a`. -/
def fdTcacheResetLoopAt (mem : List Ulong) (a : Nat) (cnt : Ulong) : Option (List Ulong) :=
  (List.range cnt.toNat).foldlM (fun mem idx => stWord mem a (BitVec.ofNat 64 idx) fdTcacheTagNull) mem

/-- `fd_tcache_reset`: the memory and the value to use for oldest. -/
def fdTcacheResetAt (mem : List Ulong) (ring : Nat) (depth : Ulong) (map : Nat) (mapCnt : Ulong) :
    Option (List Ulong × Ulong) := do
  let mem ← fdTcacheResetLoopAt mem ring depth
  let mem ← fdTcacheResetLoopAt mem map mapCnt
  return (mem, 0)

/-- The loop of `FD_TCACHE_QUERY`, at `mapIdx`. -/
def fdTcacheQueryLoopAt (mem : List Ulong) (map : Nat) (mapCnt tag : Ulong) : Nat → Ulong → Option (Bool × Ulong)
  | 0, _ => none
  | fuel + 1, mapIdx => do
    let mapTag ← ldWord mem map mapIdx
    let found := tag == mapTag
    if found || fdTcacheTagIsNull mapTag then return (found, mapIdx)
    else fdTcacheQueryLoopAt mem map mapCnt tag fuel (fdTcacheMapNext mapIdx mapCnt)

/-- `FD_TCACHE_QUERY`: `found` and `map_idx`. -/
def fdTcacheQueryAt (fuel : Nat) (mem : List Ulong) (map : Nat) (mapCnt tag : Ulong) : Option (Bool × Ulong) :=
  fdTcacheQueryLoopAt mem map mapCnt tag fuel (fdTcacheMapStart tag mapCnt)

/-- The inner loop of `fd_tcache_remove`: the slot and the tag to move into the hole, if there is one. -/
def fdTcacheRemoveScanAt (mem : List Ulong) (map : Nat) (mapCnt hole : Ulong) : Nat → Ulong → Option (Option (Ulong × Ulong))
  | 0, _ => none
  | fuel + 1, slot => do
    let slot := fdTcacheMapNext slot mapCnt
    let tag ← ldWord mem map slot
    if fdTcacheTagIsNull tag then return none
    else
      let start := fdTcacheMapStart tag mapCnt
      if !((hole < start && start ≤ slot) || (slot < hole && (hole < start || start ≤ slot))) then return some (slot, tag)
      else fdTcacheRemoveScanAt mem map mapCnt hole fuel slot

/-- The outer loop of `fd_tcache_remove`, from the slot to empty. -/
def fdTcacheRemoveLoopAt (map : Nat) (mapCnt : Ulong) (scanFuel : Nat) : Nat → List Ulong → Ulong → Option (List Ulong)
  | 0, _, _ => none
  | fuel + 1, mem, slot => do
    let mem ← stWord mem map slot fdTcacheTagNull
    let hole := slot
    match ← fdTcacheRemoveScanAt mem map mapCnt hole scanFuel slot with
    | none => return mem
    | some (slot, tag) =>
      let mem ← stWord mem map hole tag
      fdTcacheRemoveLoopAt map mapCnt scanFuel fuel mem slot

/-- `fd_tcache_remove`. -/
def fdTcacheRemoveAt (fuel : Nat) (mem : List Ulong) (map : Nat) (mapCnt tag : Ulong) : Option (List Ulong) := do
  if !fdTcacheTagIsNull tag then
    let (found, slot) ← fdTcacheQueryAt fuel mem map mapCnt tag
    if found then fdTcacheRemoveLoopAt map mapCnt fuel fuel mem slot
    else return mem
  else return mem

/-- `FD_TCACHE_INSERT`: `dup`, `oldest` and the memory after it. -/
def fdTcacheInsertAt (fuel : Nat) (mem : List Ulong) (oldest : Ulong) (ring : Nat) (depth : Ulong) (map : Nat)
    (mapCnt tag : Ulong) : Option (Bool × Ulong × List Ulong) := do
  let (dup, mapIdx) ← fdTcacheQueryAt fuel mem map mapCnt tag
  if !dup then
    let mem ← stWord mem map mapIdx tag
    let tagOldest ← ldWord mem ring oldest
    let mem ← stWord mem ring oldest tag
    let oldest := oldest + 1
    let oldest := if depth ≤ oldest then 0 else oldest
    let mem ← fdTcacheRemoveAt fuel mem map mapCnt tagOldest
    return (dup, oldest, mem)
  else return (dup, oldest, mem)

/-! ## Runs -/

/-- One operation on the tcache at a pointer, whose user reads oldest at `oldest_laddr` and updates it there: the memory after
it, and the `dup` of an insert. -/
def tcacheStepAt (fuel : Nat) (tcache : Nat) (mem : List Ulong) : TcacheOp → Option (List Ulong × Bool)
  | .reset => do
    let depth ← fdTcacheDepth mem tcache
    let mapCnt ← fdTcacheMapCnt mem tcache
    let map ← fdTcacheMapLaddr mem tcache
    let (mem, oldest) ← fdTcacheResetAt mem (fdTcacheRingLaddr tcache) depth map mapCnt
    let mem ← stWord mem (fdTcacheOldestLaddr tcache) 0 oldest
    return (mem, false)
  | .insert tag => do
    let depth ← fdTcacheDepth mem tcache
    let mapCnt ← fdTcacheMapCnt mem tcache
    let map ← fdTcacheMapLaddr mem tcache
    let oldest ← ldWord mem (fdTcacheOldestLaddr tcache) 0
    let (dup, oldest, mem) ← fdTcacheInsertAt fuel mem oldest (fdTcacheRingLaddr tcache) depth map mapCnt tag
    let mem ← stWord mem (fdTcacheOldestLaddr tcache) 0 oldest
    return (mem, dup)
  | .remove tag => do
    let mapCnt ← fdTcacheMapCnt mem tcache
    let map ← fdTcacheMapLaddr mem tcache
    let mem ← fdTcacheRemoveAt fuel mem map mapCnt tag
    return (mem, false)

/-- Operations one after the other, with the log of them. -/
def tcacheRunAt (fuel : Nat) (tcache : Nat) : List Ulong → TcacheLog → List TcacheOp → Option (List Ulong × TcacheLog)
  | mem, log, [] => some (mem, log)
  | mem, log, op :: ops => do
    let (mem, dup) ← tcacheStepAt fuel tcache mem op
    tcacheRunAt fuel tcache mem (log ++ [(op, dup)]) ops

/-- A region of memory for a tcache of a depth and a map size, as `FD_TCACHE_FOOTPRINT` assumes them: the header has the depth
and the map size, the footprint is not larger than `ULONG_MAX`, and its bytes are in the memory. -/
structure TcacheRegion (mem : List Ulong) (tcache : Nat) (depth mapCnt : Ulong) : Prop where
  depth_eq : fdTcacheDepth mem tcache = some depth
  mapCnt_eq : fdTcacheMapCnt mem tcache = some mapCnt
  depth_pos : 0 < depth.toNat
  pow2 : ∃ k, mapCnt.toNat = 2 ^ k
  room : depth.toNat + 2 ≤ mapCnt.toNat
  fits : Layout.alignUp ((4 + depth.toNat + mapCnt.toNat) * 8) 128 < 2 ^ 64
  inside : tcache + (fdTcacheFootprint depth mapCnt).toNat / 8 ≤ mem.length

/-- The unpacked fields of the tcache at a pointer. -/
def FdTcache.unpack (mem : List Ulong) (tcache : Nat) (depth mapCnt : Ulong) : FdTcache where
  depth := depth
  mapCnt := mapCnt
  oldest := mem.getD (fdTcacheOldestLaddr tcache) 0
  ring := (mem.drop (fdTcacheRingLaddr tcache)).take depth.toNat
  map := (mem.drop (fdTcacheRingLaddr tcache + depth.toNat)).take mapCnt.toNat

end VerifyFiredancer
