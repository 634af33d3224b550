import VerifyFiredancer.Bits

/-!
# Pod: the header, and the iterator over key-val pairs

A pod is a region of at most `max` bytes that starts with three svw encoded values of one width: `max`, `used` and `cnt`. The
width is the one `max` needs, so that the other two, which are at most `max`, can be rewritten in place. Key-val pairs follow
the header, up to `used`; a pair is the size of its key, the key, a type byte, the size of its value and the value, both sizes
svw encoded.

Every accessor and the iterator derive the width again from the first byte of the header (`fd_ulong_svw_dec_sz`). The source has
the iterator twice, by value and, under `__SEAHORN__`, by pointer. The loop is the `for` of the documented usage over the one by
value, with a number of rounds it may take. The functions by pointer are given the iterator they write and tell, after it, the
addresses they read.
-/

namespace VerifyFiredancer

open ByteMem

/-- `FD_POD_FOOTPRINT_MIN`. -/
def fdPodFootprintMin : Ulong := 3

/-- `fd_pod_footprint`. -/
def fdPodFootprint (max : Ulong) : Ulong := if fdPodFootprintMin ≤ max then max else 0

/-- `fd_pod_new`: formats the region at `shmem` as an empty pod. -/
def fdPodNew (m : Mem) (shmem : Option Nat) (max : Ulong) : Mem × Option Nat :=
  match shmem with
  | none => (m, none)
  | some pod =>
    if fdPodFootprint max = 0 then (m, none)
    else
      let csz := fdUlongSvwEncSz max
      let m := (fdUlongSvwEncFixed m pod csz max).1
      let m := (fdUlongSvwEncFixed m (pod + csz.toNat) csz (3 * csz)).1
      let m := (fdUlongSvwEncFixed m (pod + (csz * 2).toNat) csz 0).1
      (m, some pod)

/-! ## Accessors -/

/-- `fd_pod_max`. -/
def fdPodMax (m : Mem) (pod : Nat) : Ulong :=
  let csz := fdUlongSvwDecSz m pod
  fdUlongSvwDecFixed m pod csz

/-- `fd_pod_used`. -/
def fdPodUsed (m : Mem) (pod : Nat) : Ulong :=
  let csz := fdUlongSvwDecSz m pod
  fdUlongSvwDecFixed m (pod + csz.toNat) csz

/-- `fd_pod_cnt`. -/
def fdPodCnt (m : Mem) (pod : Nat) : Ulong :=
  let csz := fdUlongSvwDecSz m pod
  fdUlongSvwDecFixed m (pod + (2 * csz).toNat) csz

/-- `fd_pod_avail`. -/
def fdPodAvail (m : Mem) (pod : Nat) : Ulong :=
  let csz := fdUlongSvwDecSz m pod
  fdUlongSvwDecFixed m pod csz - fdUlongSvwDecFixed m (pod + csz.toNat) csz

/-- `fd_pod_reset`: throws away all pairs. -/
def fdPodReset (m : Mem) (pod : Option Nat) : Mem × Option Nat :=
  match pod with
  | none => (m, none)
  | some pod =>
    let csz := fdUlongSvwDecSz m pod
    let m := (fdUlongSvwEncFixed m (pod + csz.toNat) csz (3 * csz)).1
    let m := (fdUlongSvwEncFixed m (pod + (csz * 2).toNat) csz 0).1
    (m, some pod)

/-! ## The iterator -/

/-- `fd_pod_info_t`, what the iterator tells of a pair. `parent` is NULL outside a recursive listing. -/
structure FdPodInfo where
  keySz : Ulong
  key : Nat
  valType : Int
  valSz : Ulong
  val : Nat
  parent : Option Nat
  deriving DecidableEq, Repr

/-- `fd_pod_iter_t`. -/
structure FdPodIter where
  cursor : Nat
  stop : Nat
  deriving DecidableEq, Repr

/-- `fd_pod_iter_init`. For a NULL pod both pointers are NULL, address zero. -/
def fdPodIterInit (m : Mem) (pod : Option Nat) : FdPodIter :=
  match pod with
  | none => { cursor := 0, stop := 0 }
  | some pod =>
    let csz := fdUlongSvwDecSz m pod
    { cursor := pod + (csz * 3).toNat, stop := pod + (fdUlongSvwDecFixed m (pod + csz.toNat) csz).toNat }

/-- `fd_pod_iter_done`. -/
def fdPodIterDone (iter : FdPodIter) : Bool := decide (iter.stop ≤ iter.cursor)

/-- `fd_pod_iter_next`: skips the current key, type and value. -/
def fdPodIterNext (m : Mem) (iter : FdPodIter) : FdPodIter :=
  let cursor := iter.cursor
  let ksz := fdUlongSvwDecSz m cursor
  let keySz := fdUlongSvwDecFixed m cursor ksz
  let cursor := cursor + (ksz + keySz).toNat
  let cursor := cursor + 1
  let vsz := fdUlongSvwDecSz m cursor
  let valSz := fdUlongSvwDecFixed m cursor vsz
  let cursor := cursor + (vsz + valSz).toNat
  { iter with cursor := cursor }

/-- `fd_pod_iter_info`: unpacks the current key, type and value. -/
def fdPodIterInfo (m : Mem) (iter : FdPodIter) : FdPodInfo :=
  let cursor := iter.cursor
  let ksz := fdUlongSvwDecSz m cursor
  let keySz := fdUlongSvwDecFixed m cursor ksz
  let cursor := cursor + ksz.toNat
  let key := cursor
  let cursor := cursor + keySz.toNat
  let valType := ((m cursor).toNat : Int)
  let cursor := cursor + 1
  let vsz := fdUlongSvwDecSz m cursor
  let valSz := fdUlongSvwDecFixed m cursor vsz
  let cursor := cursor + vsz.toNat
  { keySz, key, valType, valSz, val := cursor, parent := none }

/-- The documented loop over an iterator: the infos it collects and the iterator it ends with, within `fuel` rounds. -/
def fdPodIterLoop (m : Mem) : Nat → FdPodIter → Option (List FdPodInfo × FdPodIter)
  | 0, _ => none
  | fuel + 1, iter =>
    if fdPodIterDone iter then some ([], iter)
    else (fdPodIterLoop m fuel (fdPodIterNext m iter)).map fun r => (fdPodIterInfo m iter :: r.1, r.2)

/-! ## The iterator by pointer -/

/-- The addresses that `fd_ulong_svw_dec_sz` reads. -/
def svwDecSzReads (b : Nat) : List Nat := [b]

/-- The addresses that `fd_ulong_svw_dec_fixed` reads. -/
def svwDecFixedReads (b : Nat) (csz : Ulong) : List Nat := List.range' b csz.toNat

/-- `fd_pod_iter_init`, by pointer. The branch for a NULL pod does not leave the function: it goes on at address zero. -/
def fdPodIterInitPtr (m : Mem) (pod : Option Nat) (iter : FdPodIter) : FdPodIter × List Nat :=
  let iter :=
    match pod with
    | none => { iter with cursor := 0, stop := 0 }
    | some _ => iter
  let pod := pod.getD 0
  let csz := fdUlongSvwDecSz m pod
  let iter := { iter with cursor := pod + (csz * 3).toNat }
  let iter := { iter with stop := pod + (fdUlongSvwDecFixed m (pod + csz.toNat) csz).toNat }
  (iter, svwDecSzReads pod ++ svwDecFixedReads (pod + csz.toNat) csz)

/-- `fd_pod_iter_done`, by pointer. -/
def fdPodIterDonePtr (iter : FdPodIter) : Bool := decide (iter.stop ≤ iter.cursor)

/-- `fd_pod_iter_next`, by pointer. -/
def fdPodIterNextPtr (m : Mem) (iter : FdPodIter) : FdPodIter × List Nat :=
  let cursor := iter.cursor
  let ksz := fdUlongSvwDecSz m cursor
  let keySz := fdUlongSvwDecFixed m cursor ksz
  let keyReads := svwDecSzReads cursor ++ svwDecFixedReads cursor ksz
  let cursor := cursor + (ksz + keySz).toNat
  let cursor := cursor + 1
  let vsz := fdUlongSvwDecSz m cursor
  let valSz := fdUlongSvwDecFixed m cursor vsz
  let valReads := svwDecSzReads cursor ++ svwDecFixedReads cursor vsz
  let cursor := cursor + (vsz + valSz).toNat
  ({ iter with cursor := cursor }, keyReads ++ valReads)

/-- The iterator by pointer after `n` steps from a pod, and the addresses read on the way. -/
def fdPodIterPtrSteps (m : Mem) (pod : Option Nat) (iter : FdPodIter) : Nat → FdPodIter × List Nat
  | 0 => fdPodIterInitPtr m pod iter
  | n + 1 =>
    let (iter, reads) := fdPodIterPtrSteps m pod iter n
    let (iter, reads') := fdPodIterNextPtr m iter
    (iter, reads ++ reads')

/-- The iterator by value after `n` steps from a pod. -/
def fdPodIterSteps (m : Mem) (pod : Option Nat) : Nat → FdPodIter
  | 0 => fdPodIterInit m pod
  | n + 1 => fdPodIterNext m (fdPodIterSteps m pod n)

/-! ## The layout of key-val pairs -/

/-- A key-val pair: the bytes of the key before its terminating NUL, the type byte and the bytes of the value. -/
structure PodPair where
  key : List Uchar
  valType : Uchar
  val : List Uchar
  deriving DecidableEq, Repr

/-- The bytes of a key in the pod, with the terminating NUL. -/
def PodPair.keyBytes (p : PodPair) : List Uchar := p.key ++ [0]

/-- `key_sz`, which is `strlen(key)+1`. -/
def PodPair.keySz (p : PodPair) : Ulong := BitVec.ofNat 64 p.keyBytes.length

/-- `val_sz`. -/
def PodPair.valSz (p : PodPair) : Ulong := BitVec.ofNat 64 p.val.length

/-! The places of the parts of a pair laid out at `c`, and the place after it. -/

def PodPair.keyAt (p : PodPair) (c : Nat) : Nat := c + (fdUlongSvwEncSz p.keySz).toNat
def PodPair.typeAt (p : PodPair) (c : Nat) : Nat := p.keyAt c + p.keyBytes.length
def PodPair.valSzAt (p : PodPair) (c : Nat) : Nat := p.typeAt c + 1
def PodPair.valAt (p : PodPair) (c : Nat) : Nat := p.valSzAt c + (fdUlongSvwEncSz p.valSz).toNat
def PodPair.next (p : PodPair) (c : Nat) : Nat := p.valAt c + p.val.length

/-- What there is to tell of a pair laid out at `c`. -/
def PodPair.infoAt (p : PodPair) (c : Nat) : FdPodInfo :=
  { keySz := p.keySz, key := p.keyAt c, valType := (p.valType.toNat : Int), valSz := p.valSz, val := p.valAt c, parent := none }

/-- What there is to tell of pairs laid out one after the other from `c` on. -/
def podInfos : Nat → List PodPair → List FdPodInfo
  | _, [] => []
  | c, p :: ps => p.infoAt c :: podInfos (p.next c) ps

/-- The end of pairs laid out one after the other from `c` on. -/
def podPairsEnd : Nat → List PodPair → Nat
  | c, [] => c
  | c, p :: ps => podPairsEnd (p.next c) ps

/-- A pair laid out at `c`: svw size of the key, key, type, svw size of the value, value. -/
def podPutPair (m : Mem) (c : Nat) (p : PodPair) : Mem × Nat :=
  let (m, c) := fdUlongSvwEnc m c p.keySz
  let m := storeBytes m c p.keyBytes
  let c := c + p.keyBytes.length
  let m := storeUchar m c p.valType
  let c := c + 1
  let (m, c) := fdUlongSvwEnc m c p.valSz
  let m := storeBytes m c p.val
  (m, c + p.val.length)

/-- Pairs laid out one after the other. -/
def podPutPairs : Mem → Nat → List PodPair → Mem × Nat
  | m, c, [] => (m, c)
  | m, c, p :: ps =>
    let (m, c) := podPutPair m c p
    podPutPairs m c ps

/-- A pod of size `max` that holds `ps`: a new header, the pairs, `used` set to the end of the last one and `cnt` to `cnt`. -/
def podLayout (m : Mem) (pod : Nat) (max cnt : Ulong) (ps : List PodPair) : Mem :=
  let csz := fdUlongSvwEncSz max
  let m := (fdPodNew m (some pod) max).1
  let (m, c) := podPutPairs m (pod + (3 * csz).toNat) ps
  let m := (fdUlongSvwEncFixed m (pod + csz.toNat) csz (BitVec.ofNat 64 (c - pod))).1
  (fdUlongSvwEncFixed m (pod + (2 * csz).toNat) csz cnt).1

end VerifyFiredancer
