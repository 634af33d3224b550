import VerifyFiredancer.Tcache
import VerifyFiredancer.Lib.Harness

/-!
# Tcache: what the abstract interpreter sees of it

In a build with `__CRAB__` a probe of the map of a tcache does not compute where it starts and where it goes on:
`fd_tcache_map_start` and `fd_tcache_map_next` of `fd_tcache.h` draw any slot of the map. The functions that probe are those of
`fd_tcache.h`, over these two.

The values drawn are a list. A run for which none is left, or in which a loop takes more rounds than its `fuel`, is cut; an access
outside of an array fails.
-/

namespace VerifyFiredancer

open Harness

/-- The values still to draw. -/
abbrev Draws : Type := List Ulong

/-- `nd_ulong` of `nd_clam.c`: a signed value that is not negative. -/
def ndUlong : Draws → Outcome (Ulong × Draws)
  | [] => .pruned
  | res :: nd => do
    assume (0 ≤ res.toInt)
    return (res, nd)

/-- An access to an array, which fails outside of it. -/
def access {α : Type} : Option α → Outcome α
  | none => .failed
  | some a => .done a

/-- `fd_tcache_map_start`. -/
def fdTcacheMapStartCrab (_tag mapCnt : Ulong) (nd : Draws) : Outcome (Ulong × Draws) := do
  let (start, nd) ← ndUlong nd
  assume (start < mapCnt)
  return (start, nd)

/-- `fd_tcache_map_next`. -/
def fdTcacheMapNextCrab (_idx mapCnt : Ulong) (nd : Draws) : Outcome (Ulong × Draws) := do
  let (next, nd) ← ndUlong nd
  assume (next < mapCnt)
  return (next, nd)

/-- The loop of `FD_TCACHE_QUERY`, at `mapIdx`. -/
def fdTcacheQueryLoopCrab (map : List Ulong) (mapCnt tag : Ulong) : Nat → Ulong → Draws → Outcome ((Bool × Ulong) × Draws)
  | 0, _, _ => .pruned
  | fuel + 1, mapIdx, nd => do
    let mapTag ← access (ldUlong map mapIdx)
    let found := tag == mapTag
    if found || fdTcacheTagIsNull mapTag then return ((found, mapIdx), nd)
    else
      let (mapIdx, nd) ← fdTcacheMapNextCrab mapIdx mapCnt nd
      fdTcacheQueryLoopCrab map mapCnt tag fuel mapIdx nd

/-- `FD_TCACHE_QUERY`: `found` and `map_idx`. -/
def fdTcacheQueryCrab (fuel : Nat) (map : List Ulong) (mapCnt tag : Ulong) (nd : Draws) :
    Outcome ((Bool × Ulong) × Draws) := do
  let (mapIdx, nd) ← fdTcacheMapStartCrab tag mapCnt nd
  fdTcacheQueryLoopCrab map mapCnt tag fuel mapIdx nd

/-- The inner loop of `fd_tcache_remove`: the slot and the tag to move into the hole, if there is one. -/
def fdTcacheRemoveScanCrab (map : List Ulong) (mapCnt hole : Ulong) :
    Nat → Ulong → Draws → Outcome (Option (Ulong × Ulong) × Draws)
  | 0, _, _ => .pruned
  | fuel + 1, slot, nd => do
    let (slot, nd) ← fdTcacheMapNextCrab slot mapCnt nd
    let tag ← access (ldUlong map slot)
    if fdTcacheTagIsNull tag then return (none, nd)
    else
      let (start, nd) ← fdTcacheMapStartCrab tag mapCnt nd
      if !((hole < start && start ≤ slot) || (slot < hole && (hole < start || start ≤ slot))) then
        return (some (slot, tag), nd)
      else fdTcacheRemoveScanCrab map mapCnt hole fuel slot nd

/-- The outer loop of `fd_tcache_remove`, from the slot to empty. -/
def fdTcacheRemoveLoopCrab (mapCnt : Ulong) (scanFuel : Nat) :
    Nat → List Ulong → Ulong → Draws → Outcome (List Ulong × Draws)
  | 0, _, _, _ => .pruned
  | fuel + 1, map, slot, nd => do
    let map ← access (stUlong map slot fdTcacheTagNull)
    let hole := slot
    let (moved, nd) ← fdTcacheRemoveScanCrab map mapCnt hole scanFuel slot nd
    match moved with
    | none => return (map, nd)
    | some (slot, tag) =>
      let map ← access (stUlong map hole tag)
      fdTcacheRemoveLoopCrab mapCnt scanFuel fuel map slot nd

/-- `fd_tcache_remove`. -/
def fdTcacheRemoveCrab (fuel : Nat) (map : List Ulong) (mapCnt tag : Ulong) (nd : Draws) : Outcome (List Ulong × Draws) := do
  if !fdTcacheTagIsNull tag then
    let ((found, slot), nd) ← fdTcacheQueryCrab fuel map mapCnt tag nd
    if found then fdTcacheRemoveLoopCrab mapCnt fuel fuel map slot nd
    else return (map, nd)
  else return (map, nd)

/-- `FD_TCACHE_INSERT`: `dup`, `oldest`, and the ring and the map after it. -/
def fdTcacheInsertCrab (fuel : Nat) (oldest : Ulong) (ring : List Ulong) (depth : Ulong) (map : List Ulong)
    (mapCnt tag : Ulong) (nd : Draws) : Outcome ((Bool × Ulong × List Ulong × List Ulong) × Draws) := do
  let ((dup, mapIdx), nd) ← fdTcacheQueryCrab fuel map mapCnt tag nd
  if !dup then
    let map ← access (stUlong map mapIdx tag)
    let tagOldest ← access (ldUlong ring oldest)
    let ring ← access (stUlong ring oldest tag)
    let oldest := oldest + 1
    let oldest := if depth ≤ oldest then 0 else oldest
    let (map, nd) ← fdTcacheRemoveCrab fuel map mapCnt tagOldest nd
    return ((dup, oldest, ring, map), nd)
  else return ((dup, oldest, ring, map), nd)

/-! ## Runs -/

/-- One operation. A reset draws nothing. -/
def FdTcache.stepCrab (fuel : Nat) (s : FdTcache) (op : TcacheOp) (nd : Draws) : Outcome ((FdTcache × Bool) × Draws) :=
  match op with
  | .reset => do
    let (ring, map, oldest) ← access (fdTcacheReset s.ring s.depth s.map s.mapCnt)
    return (({ s with oldest, ring, map }, false), nd)
  | .insert tag => do
    let ((dup, oldest, ring, map), nd) ← fdTcacheInsertCrab fuel s.oldest s.ring s.depth s.map s.mapCnt tag nd
    return (({ s with oldest, ring, map }, dup), nd)
  | .remove tag => do
    let (map, nd) ← fdTcacheRemoveCrab fuel s.map s.mapCnt tag nd
    return (({ s with map }, false), nd)

/-- Operations one after the other, with the log of them. -/
def FdTcache.runCrab (fuel : Nat) : FdTcache → TcacheLog → List TcacheOp → Draws → Outcome ((FdTcache × TcacheLog) × Draws)
  | s, log, [], nd => .done ((s, log), nd)
  | s, log, op :: ops, nd => do
    let ((s, dup), nd) ← s.stepCrab fuel op nd
    FdTcache.runCrab fuel s (log ++ [(op, dup)]) ops nd

end VerifyFiredancer
