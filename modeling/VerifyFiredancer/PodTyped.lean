import VerifyFiredancer.Pod

/-!
# PodTyped: the inserts and queries of integers

An insert of an integer allocates room for its svw encoding in the pod and writes it there; the query finds it by its path and
decodes it. Signed types are zig-zag coded first, the 128-bit types are written as two words, the low one first. The macros
`FD_POD_IMPL` of `fd_pod.h` give each type its functions; here these are a common body applied to what they differ in.

`fd_pod_alloc` and `fd_pod_query` are not part of the sources, and are parameters here. A path is the address of a cstr, the query
gives an error code and an info.
-/

namespace VerifyFiredancer

open ByteMem

/-- The `FD_POD_VAL_TYPE_*` of the integers that are svw encoded. -/
def fdPodValTypeShort : Int := 5
def fdPodValTypeInt : Int := 6
def fdPodValTypeLong : Int := 7
def fdPodValTypeInt128 : Int := 8
def fdPodValTypeUshort : Int := 10
def fdPodValTypeUint : Int := 11
def fdPodValTypeUlong : Int := 12
def fdPodValTypeUint128 : Int := 13

/-- The two words of a 128-bit one: `(ulong)val` and `(ulong)(val>>64)`. -/
def loWord (val : Uint128) : Ulong := val.setWidth 64
def hiWord (val : Uint128) : Ulong := (val >>> 64).setWidth 64

section Insert

variable (fdPodAlloc : Mem → Nat → Nat → Int → Ulong → Mem × Ulong)

/-- An insert of one word. -/
def podInsertSvw (valType : Int) (u : Ulong) (m : Mem) (pod path : Nat) : Mem × Ulong :=
  let valSz := fdUlongSvwEncSz u
  let (m, off) := fdPodAlloc m pod path valType valSz
  if off = 0 then (m, 0)
  else ((fdUlongSvwEnc m (pod + off.toNat) u).1, off)

/-- An insert of two words. -/
def podInsertSvw128 (valType : Int) (u : Uint128) (m : Mem) (pod path : Nat) : Mem × Ulong :=
  let lo := loWord u
  let hi := hiWord u
  let valSz := fdUlongSvwEncSz lo + fdUlongSvwEncSz hi
  let (m, off) := fdPodAlloc m pod path valType valSz
  if off = 0 then (m, 0)
  else
    let (m, b) := fdUlongSvwEnc m (pod + off.toNat) lo
    ((fdUlongSvwEnc m b hi).1, off)

def fdPodInsertUshort (m : Mem) (pod path : Nat) (val : Ushort) : Mem × Ulong :=
  podInsertSvw fdPodAlloc fdPodValTypeUshort (val.setWidth 64) m pod path

def fdPodInsertUint (m : Mem) (pod path : Nat) (val : Uint) : Mem × Ulong :=
  podInsertSvw fdPodAlloc fdPodValTypeUint (val.setWidth 64) m pod path

def fdPodInsertUlong (m : Mem) (pod path : Nat) (val : Ulong) : Mem × Ulong :=
  podInsertSvw fdPodAlloc fdPodValTypeUlong val m pod path

def fdPodInsertShort (m : Mem) (pod path : Nat) (val : Short) : Mem × Ulong :=
  podInsertSvw fdPodAlloc fdPodValTypeShort (fdLongZzEnc (val.signExtend 64)) m pod path

def fdPodInsertInt (m : Mem) (pod path : Nat) (val : Sint) : Mem × Ulong :=
  podInsertSvw fdPodAlloc fdPodValTypeInt (fdLongZzEnc (val.signExtend 64)) m pod path

def fdPodInsertLong (m : Mem) (pod path : Nat) (val : Long) : Mem × Ulong :=
  podInsertSvw fdPodAlloc fdPodValTypeLong (fdLongZzEnc val) m pod path

def fdPodInsertUint128 (m : Mem) (pod path : Nat) (val : Uint128) : Mem × Ulong :=
  podInsertSvw128 fdPodAlloc fdPodValTypeUint128 val m pod path

def fdPodInsertInt128 (m : Mem) (pod path : Nat) (val : Int128) : Mem × Ulong :=
  podInsertSvw128 fdPodAlloc fdPodValTypeInt128 (fdInt128ZzEnc val) m pod path

end Insert

section Query

variable (fdPodQuery : Mem → Nat → Nat → Int × FdPodInfo)

/-- A query for one word, from which `ofWord` makes the value. -/
def podQuerySvw {T : Type} (valType : Int) (ofWord : Ulong → T) (m : Mem) (pod path : Nat) (dflt : T) : T :=
  let (err, info) := fdPodQuery m pod path
  if err ≠ 0 ∨ info.valType ≠ valType then dflt
  else ofWord (fdUlongSvwDec m info.val).1

/-- A query for two words, the low one first, from which `ofWords` makes the value. -/
def podQuerySvw128 {T : Type} (valType : Int) (ofWords : Uint128 → T) (m : Mem) (pod path : Nat) (dflt : T) : T :=
  let (err, info) := fdPodQuery m pod path
  if err ≠ 0 ∨ info.valType ≠ valType then dflt
  else
    let (lo, b) := fdUlongSvwDec m info.val
    let (hi, _) := fdUlongSvwDec m b
    ofWords (hi ++ lo : BitVec (64 + 64))

def fdPodQueryUshort : Mem → Nat → Nat → Ushort → Ushort := podQuerySvw fdPodQuery fdPodValTypeUshort (·.setWidth 16)

def fdPodQueryUint : Mem → Nat → Nat → Uint → Uint := podQuerySvw fdPodQuery fdPodValTypeUint (·.setWidth 32)

def fdPodQueryUlong : Mem → Nat → Nat → Ulong → Ulong := podQuerySvw fdPodQuery fdPodValTypeUlong id

def fdPodQueryShort : Mem → Nat → Nat → Short → Short :=
  podQuerySvw fdPodQuery fdPodValTypeShort fun u => (fdLongZzDec u).setWidth 16

def fdPodQueryInt : Mem → Nat → Nat → Sint → Sint :=
  podQuerySvw fdPodQuery fdPodValTypeInt fun u => (fdLongZzDec u).setWidth 32

def fdPodQueryLong : Mem → Nat → Nat → Long → Long := podQuerySvw fdPodQuery fdPodValTypeLong fdLongZzDec

def fdPodQueryUint128 : Mem → Nat → Nat → Uint128 → Uint128 := podQuerySvw128 fdPodQuery fdPodValTypeUint128 id

def fdPodQueryInt128 : Mem → Nat → Nat → Int128 → Int128 := podQuerySvw128 fdPodQuery fdPodValTypeInt128 fdInt128ZzDec

end Query

/-! ## Values of any of the types -/

/-- A value, with its type. -/
inductive PodVal where
  | ushort (val : Ushort)
  | uint (val : Uint)
  | ulong (val : Ulong)
  | short (val : Short)
  | int (val : Sint)
  | long (val : Long)
  | uint128 (val : Uint128)
  | int128 (val : Int128)
  deriving DecidableEq, Repr

namespace PodVal

/-- The `FD_POD_VAL_TYPE_*` of its type. -/
def valType : PodVal → Int
  | ushort _ => fdPodValTypeUshort
  | uint _ => fdPodValTypeUint
  | ulong _ => fdPodValTypeUlong
  | short _ => fdPodValTypeShort
  | int _ => fdPodValTypeInt
  | long _ => fdPodValTypeLong
  | uint128 _ => fdPodValTypeUint128
  | int128 _ => fdPodValTypeInt128

/-- The words that its insert encodes. -/
def words : PodVal → List Ulong
  | ushort val => [val.setWidth 64]
  | uint val => [val.setWidth 64]
  | ulong val => [val]
  | short val => [fdLongZzEnc (val.signExtend 64)]
  | int val => [fdLongZzEnc (val.signExtend 64)]
  | long val => [fdLongZzEnc val]
  | uint128 val => [loWord val, hiWord val]
  | int128 val => [loWord (fdInt128ZzEnc val), hiWord (fdInt128ZzEnc val)]

/-- The `val_sz` that its insert computes. -/
def valSz (v : PodVal) : Ulong := v.words.foldr (fun u sz => fdUlongSvwEncSz u + sz) 0

/-- The insert of its type. -/
def insert (fdPodAlloc : Mem → Nat → Nat → Int → Ulong → Mem × Ulong) (m : Mem) (pod path : Nat) : PodVal → Mem × Ulong
  | ushort val => fdPodInsertUshort fdPodAlloc m pod path val
  | uint val => fdPodInsertUint fdPodAlloc m pod path val
  | ulong val => fdPodInsertUlong fdPodAlloc m pod path val
  | short val => fdPodInsertShort fdPodAlloc m pod path val
  | int val => fdPodInsertInt fdPodAlloc m pod path val
  | long val => fdPodInsertLong fdPodAlloc m pod path val
  | uint128 val => fdPodInsertUint128 fdPodAlloc m pod path val
  | int128 val => fdPodInsertInt128 fdPodAlloc m pod path val

/-- The query of its type gives the value, whatever the default. -/
def IsQueried (fdPodQuery : Mem → Nat → Nat → Int × FdPodInfo) (m : Mem) (pod path : Nat) : PodVal → Prop
  | ushort val => ∀ dflt, fdPodQueryUshort fdPodQuery m pod path dflt = val
  | uint val => ∀ dflt, fdPodQueryUint fdPodQuery m pod path dflt = val
  | ulong val => ∀ dflt, fdPodQueryUlong fdPodQuery m pod path dflt = val
  | short val => ∀ dflt, fdPodQueryShort fdPodQuery m pod path dflt = val
  | int val => ∀ dflt, fdPodQueryInt fdPodQuery m pod path dflt = val
  | long val => ∀ dflt, fdPodQueryLong fdPodQuery m pod path dflt = val
  | uint128 val => ∀ dflt, fdPodQueryUint128 fdPodQuery m pod path dflt = val
  | int128 val => ∀ dflt, fdPodQueryInt128 fdPodQuery m pod path dflt = val

end PodVal

end VerifyFiredancer
