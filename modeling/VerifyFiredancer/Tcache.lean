import VerifyFiredancer.Bits
import Mathlib.Data.List.Basic

/-!
# Tcache: a cache of the most recent tags

A tcache keeps a history of its `depth` most recently inserted tags in a cyclic ring and the set of the tags it holds in a
linearly probed map of `map_cnt` slots. The definitions of this file are the functions and the macros of `fd_tcache.h`, on the
unpacked fields as there.

An array is the list of its words; a read or a write outside of it has no result, and a `for(;;)` loop has none when it takes
more rounds than its `fuel`. So a result says that every access was in bounds and every loop ended, and of
`fd_tcache_map_cnt_default` that nothing overflowed.
-/

namespace VerifyFiredancer

/-- `FD_TCACHE_TAG_NULL`. -/
def fdTcacheTagNull : Ulong := 0

/-- `fd_tcache_tag_is_null`. -/
def fdTcacheTagIsNull (tag : Ulong) : Bool := tag == fdTcacheTagNull

/-- `FD_TCACHE_SPARSE_DEFAULT`. -/
def fdTcacheSparseDefault : Int := 2

/-- `x + 1UL`, without a result when it wraps. -/
def incUlong (x : Ulong) : Option Ulong := if x = ulongMax then none else some (x + 1)

/-- `x + y` of two `int`, without a result when it overflows. -/
def addInt (x y : Int) : Option Int := if -2 ^ 31 ≤ x + y ∧ x + y < 2 ^ 31 then some (x + y) else none

/-- `1UL << n`, without a result when `n` is not a count of bits that a `ulong` can be shifted by. -/
def shlUlong (n : Int) : Option Ulong := if 0 ≤ n ∧ n < 64 then some (1#64 <<< n.toNat) else none

/-- `fd_tcache_map_cnt_default`. `fd_ulong_find_msb` is not part of the sources. -/
def fdTcacheMapCntDefault (fdUlongFindMsb : Ulong → Int) (depth : Ulong) : Option Ulong := do
  if depth = 0 then return 0
  if depth = ulongMax then return 0
  let lgMapCnt ← addInt (fdUlongFindMsb (← incUlong depth)) fdTcacheSparseDefault
  if 63 < lgMapCnt then return 0
  shlUlong lgMapCnt

/-- A read `a[i]`. -/
def ldUlong (a : List Ulong) (i : Ulong) : Option Ulong := a[i.toNat]?

/-- A write `a[i] = v`. -/
def stUlong (a : List Ulong) (i v : Ulong) : Option (List Ulong) :=
  if i.toNat < a.length then some (a.set i.toNat v) else none

/-- The loops of `fd_tcache_reset`: the first `cnt` words of an array are set to null. -/
def fdTcacheResetLoop (a : List Ulong) (cnt : Ulong) : Option (List Ulong) :=
  (List.range cnt.toNat).foldlM (fun a idx => stUlong a (BitVec.ofNat 64 idx) fdTcacheTagNull) a

/-- `fd_tcache_reset`: the ring, the map and the value to use for oldest. -/
def fdTcacheReset (ring : List Ulong) (depth : Ulong) (map : List Ulong) (mapCnt : Ulong) :
    Option (List Ulong × List Ulong × Ulong) := do
  let ring ← fdTcacheResetLoop ring depth
  let map ← fdTcacheResetLoop map mapCnt
  return (ring, map, 0)

/-- `fd_tcache_map_start`. -/
def fdTcacheMapStart (tag mapCnt : Ulong) : Ulong := tag &&& (mapCnt - 1)

/-- `fd_tcache_map_next`. -/
def fdTcacheMapNext (idx mapCnt : Ulong) : Ulong := (idx + 1) &&& (mapCnt - 1)

/-- The loop of `FD_TCACHE_QUERY`, at `mapIdx`. -/
def fdTcacheQueryLoop (map : List Ulong) (mapCnt tag : Ulong) : Nat → Ulong → Option (Bool × Ulong)
  | 0, _ => none
  | fuel + 1, mapIdx => do
    let mapTag ← ldUlong map mapIdx
    let found := tag == mapTag
    if found || fdTcacheTagIsNull mapTag then return (found, mapIdx)
    else fdTcacheQueryLoop map mapCnt tag fuel (fdTcacheMapNext mapIdx mapCnt)

/-- `FD_TCACHE_QUERY`: `found` and `map_idx`. -/
def fdTcacheQuery (fuel : Nat) (map : List Ulong) (mapCnt tag : Ulong) : Option (Bool × Ulong) :=
  fdTcacheQueryLoop map mapCnt tag fuel (fdTcacheMapStart tag mapCnt)

/-- The inner loop of `fd_tcache_remove`: the slot and the tag to move into the hole, if there is one. -/
def fdTcacheRemoveScan (map : List Ulong) (mapCnt hole : Ulong) : Nat → Ulong → Option (Option (Ulong × Ulong))
  | 0, _ => none
  | fuel + 1, slot => do
    let slot := fdTcacheMapNext slot mapCnt
    let tag ← ldUlong map slot
    if fdTcacheTagIsNull tag then return none
    else
      let start := fdTcacheMapStart tag mapCnt
      if !((hole < start && start ≤ slot) || (slot < hole && (hole < start || start ≤ slot))) then return some (slot, tag)
      else fdTcacheRemoveScan map mapCnt hole fuel slot

/-- The outer loop of `fd_tcache_remove`, from the slot to empty. -/
def fdTcacheRemoveLoop (mapCnt : Ulong) (scanFuel : Nat) : Nat → List Ulong → Ulong → Option (List Ulong)
  | 0, _, _ => none
  | fuel + 1, map, slot => do
    let map ← stUlong map slot fdTcacheTagNull
    let hole := slot
    match ← fdTcacheRemoveScan map mapCnt hole scanFuel slot with
    | none => return map
    | some (slot, tag) =>
      let map ← stUlong map hole tag
      fdTcacheRemoveLoop mapCnt scanFuel fuel map slot

/-- `fd_tcache_remove`. -/
def fdTcacheRemove (fuel : Nat) (map : List Ulong) (mapCnt tag : Ulong) : Option (List Ulong) := do
  if !fdTcacheTagIsNull tag then
    let (found, slot) ← fdTcacheQuery fuel map mapCnt tag
    if found then fdTcacheRemoveLoop mapCnt fuel fuel map slot
    else return map
  else return map

/-- `FD_TCACHE_INSERT`: `dup`, `oldest`, and the ring and the map after it. -/
def fdTcacheInsert (fuel : Nat) (oldest : Ulong) (ring : List Ulong) (depth : Ulong) (map : List Ulong) (mapCnt tag : Ulong) :
    Option (Bool × Ulong × List Ulong × List Ulong) := do
  let (dup, mapIdx) ← fdTcacheQuery fuel map mapCnt tag
  if !dup then
    let map ← stUlong map mapIdx tag
    let tagOldest ← ldUlong ring oldest
    let ring ← stUlong ring oldest tag
    let oldest := oldest + 1
    let oldest := if depth ≤ oldest then 0 else oldest
    let map ← fdTcacheRemove fuel map mapCnt tagOldest
    return (dup, oldest, ring, map)
  else return (dup, oldest, ring, map)

/-! ## Runs -/

/-- The unpacked fields of a tcache. -/
structure FdTcache where
  depth : Ulong
  mapCnt : Ulong
  oldest : Ulong
  ring : List Ulong
  map : List Ulong
  deriving DecidableEq, Repr

/-- What a user of a tcache does to it. -/
inductive TcacheOp where
  | reset
  | insert (tag : Ulong)
  | remove (tag : Ulong)
  deriving DecidableEq, Repr

/-- One operation: the tcache after it, and the `dup` of an insert. -/
def FdTcache.step (fuel : Nat) (s : FdTcache) : TcacheOp → Option (FdTcache × Bool)
  | .reset => do
    let (ring, map, oldest) ← fdTcacheReset s.ring s.depth s.map s.mapCnt
    return ({ s with oldest, ring, map }, false)
  | .insert tag => do
    let (dup, oldest, ring, map) ← fdTcacheInsert fuel s.oldest s.ring s.depth s.map s.mapCnt tag
    return ({ s with oldest, ring, map }, dup)
  | .remove tag => do
    let map ← fdTcacheRemove fuel s.map s.mapCnt tag
    return ({ s with map }, false)

/-- The operations done so far, each with its `dup`. -/
abbrev TcacheLog : Type := List (TcacheOp × Bool)

/-- Operations one after the other, with the log of them. -/
def FdTcache.run (fuel : Nat) : FdTcache → TcacheLog → List TcacheOp → Option (FdTcache × TcacheLog)
  | s, log, [] => some (s, log)
  | s, log, op :: ops => do
    let (s, dup) ← s.step fuel op
    FdTcache.run fuel s (log ++ [(op, dup)]) ops

/-- The tags whose insert was not a duplicate, the newest last. -/
def TcacheLog.inserted (log : TcacheLog) : List Ulong :=
  log.filterMap fun e =>
    match e with
    | (.insert tag, false) => some tag
    | _ => none

/-- The geometry a tcache assumes: a positive depth, and a map of a power of two of slots, two more than the depth at least;
the arrays have the sizes they are indexed by. -/
structure FdTcache.Shaped (s : FdTcache) : Prop where
  depth_pos : 0 < s.depth.toNat
  pow2 : ∃ k, s.mapCnt.toNat = 2 ^ k
  room : s.depth.toNat + 2 ≤ s.mapCnt.toNat
  ring_len : s.ring.length = s.depth.toNat
  map_len : s.map.length = s.mapCnt.toNat

end VerifyFiredancer
