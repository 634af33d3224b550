import VerifyFiredancer.Bits
import VerifyFiredancer.Lib.ReadScan

/-!
# UnalignedAccess: the styles of unaligned loads

`fd_bits.h` loads the `n` bytes at an address into a word in one of two styles, chosen by `FD_UNALIGNED_ACCESS_STYLE`: by
`memcpy` into a local of the type, or by direct accesses that are put together. Both have fast variants, which may read some
bytes past the end. A load is a computation that logs the addresses it reads.
-/

namespace VerifyFiredancer

open ByteMem ReadScan

/-- The `n` bytes at `p`, as a number. -/
def readLE (p : Nat) : Nat → Rd Uchar Nat
  | 0 => pure 0
  | n + 1 => do
    let b ← read p
    let r ← readLE (p + 1) n
    return b.toNat + 256 * r

/-- `*(uchar const *)p`, cast to a type of `w` bits. -/
def castUchar (w p : Nat) : Rd Uchar (BitVec w) := do
  let b ← read p
  return b.setWidth w

/-- A load and a mask. -/
def maskLoad {w : Nat} (load : Nat → Rd Uchar (BitVec w)) (mask : BitVec w) (p : Nat) : Rd Uchar (BitVec w) := do
  let t ← load p
  return t &&& mask

/-! ## By `memcpy` -/

namespace Memcpy

/-- `memcpy( &t, p, n )` for a local `t` of `w` bits, which is zero before when it has more than `n` bytes, and a cast to `v`
bits. -/
def memcpyTmp (w n v p : Nat) : Rd Uchar (BitVec v) := do
  let t ← readLE p n
  return (BitVec.ofNat w t).setWidth v

def fdUcharLoad1 : Nat → Rd Uchar Uchar := castUchar 8

def fdUshortLoad1 : Nat → Rd Uchar Ushort := castUchar 16
def fdUshortLoad2 : Nat → Rd Uchar Ushort := memcpyTmp 16 2 16

def fdUintLoad1 : Nat → Rd Uchar Uint := castUchar 32
def fdUintLoad2 : Nat → Rd Uchar Uint := memcpyTmp 16 2 32
def fdUintLoad3 : Nat → Rd Uchar Uint := memcpyTmp 32 3 32
def fdUintLoad4 : Nat → Rd Uchar Uint := memcpyTmp 32 4 32

def fdUlongLoad1 : Nat → Rd Uchar Ulong := castUchar 64
def fdUlongLoad2 : Nat → Rd Uchar Ulong := memcpyTmp 16 2 64
def fdUlongLoad3 : Nat → Rd Uchar Ulong := memcpyTmp 32 3 64
def fdUlongLoad4 : Nat → Rd Uchar Ulong := memcpyTmp 32 4 64
def fdUlongLoad5 : Nat → Rd Uchar Ulong := memcpyTmp 64 5 64
def fdUlongLoad6 : Nat → Rd Uchar Ulong := memcpyTmp 64 6 64
def fdUlongLoad7 : Nat → Rd Uchar Ulong := memcpyTmp 64 7 64
def fdUlongLoad8 : Nat → Rd Uchar Ulong := memcpyTmp 64 8 64

/-- The fast variants that are not the plain ones. -/
def fdUintLoad3Fast : Nat → Rd Uchar Uint := maskLoad (memcpyTmp 32 4 32) 0x00ffffff
def fdUlongLoad3Fast : Nat → Rd Uchar Ulong := maskLoad (memcpyTmp 32 4 64) 0x0000000000ffffff
def fdUlongLoad5Fast : Nat → Rd Uchar Ulong := maskLoad (memcpyTmp 64 8 64) 0x000000ffffffffff
def fdUlongLoad6Fast : Nat → Rd Uchar Ulong := maskLoad (memcpyTmp 64 8 64) 0x0000ffffffffffff
def fdUlongLoad7Fast : Nat → Rd Uchar Ulong := maskLoad (memcpyTmp 64 8 64) 0x00ffffffffffffff

end Memcpy

/-! ## By direct access -/

namespace Direct

/-- `*(T const *)p` for a type `T` of `w` bits, cast to `v` bits. -/
def deref (w v p : Nat) : Rd Uchar (BitVec v) := do
  let t ← readLE p (w / 8)
  return (BitVec.ofNat w t).setWidth v

/-- A load at `p` and one of the bytes from `p + i` on, shifted above the others. -/
def orLoad {w : Nat} (lo hi : Nat → Rd Uchar (BitVec w)) (i s p : Nat) : Rd Uchar (BitVec w) := do
  let l ← lo p
  let h ← hi (p + i)
  return l ||| h <<< s

def fdUcharLoad1 : Nat → Rd Uchar Uchar := castUchar 8

def fdUshortLoad1 : Nat → Rd Uchar Ushort := castUchar 16
def fdUshortLoad2 : Nat → Rd Uchar Ushort := deref 16 16

def fdUintLoad1 : Nat → Rd Uchar Uint := castUchar 32
def fdUintLoad2 : Nat → Rd Uchar Uint := deref 16 32
def fdUintLoad3 : Nat → Rd Uchar Uint := orLoad fdUintLoad2 fdUintLoad1 2 16
def fdUintLoad4 : Nat → Rd Uchar Uint := deref 32 32

def fdUlongLoad1 : Nat → Rd Uchar Ulong := castUchar 64
def fdUlongLoad2 : Nat → Rd Uchar Ulong := deref 16 64
def fdUlongLoad3 : Nat → Rd Uchar Ulong := orLoad fdUlongLoad2 fdUlongLoad1 2 16
def fdUlongLoad4 : Nat → Rd Uchar Ulong := deref 32 64
def fdUlongLoad5 : Nat → Rd Uchar Ulong := orLoad fdUlongLoad4 fdUlongLoad1 4 32
def fdUlongLoad6 : Nat → Rd Uchar Ulong := orLoad fdUlongLoad4 fdUlongLoad2 4 32
def fdUlongLoad7 : Nat → Rd Uchar Ulong := orLoad fdUlongLoad6 fdUlongLoad1 6 48
def fdUlongLoad8 : Nat → Rd Uchar Ulong := deref 64 64

/-- The fast variants that are not the plain ones. -/
def fdUintLoad3Fast : Nat → Rd Uchar Uint := maskLoad (deref 32 32) 0x00ffffff
def fdUlongLoad3Fast : Nat → Rd Uchar Ulong := maskLoad (deref 32 64) 0x0000000000ffffff
def fdUlongLoad5Fast : Nat → Rd Uchar Ulong := maskLoad (deref 64 64) 0x000000ffffffffff
def fdUlongLoad6Fast : Nat → Rd Uchar Ulong := maskLoad (deref 64 64) 0x0000ffffffffffff
def fdUlongLoad7Fast : Nat → Rd Uchar Ulong := maskLoad (deref 64 64) 0x00ffffffffffffff

end Direct

/-! ## The family -/

/-- The loads: a type and a number of bytes. -/
inductive FdLoad where
  | ucharLoad1
  | ushortLoad1
  | ushortLoad2
  | uintLoad1
  | uintLoad2
  | uintLoad3
  | uintLoad4
  | ulongLoad1
  | ulongLoad2
  | ulongLoad3
  | ulongLoad4
  | ulongLoad5
  | ulongLoad6
  | ulongLoad7
  | ulongLoad8
  deriving DecidableEq, Repr

namespace FdLoad

/-- The bits of the type. -/
def bits : FdLoad → Nat
  | ucharLoad1 => 8
  | ushortLoad1 | ushortLoad2 => 16
  | uintLoad1 | uintLoad2 | uintLoad3 | uintLoad4 => 32
  | ulongLoad1 | ulongLoad2 | ulongLoad3 | ulongLoad4 | ulongLoad5 | ulongLoad6 | ulongLoad7 | ulongLoad8 => 64

/-- The bytes that are loaded. -/
def bytes : FdLoad → Nat
  | ucharLoad1 | ushortLoad1 | uintLoad1 | ulongLoad1 => 1
  | ushortLoad2 | uintLoad2 | ulongLoad2 => 2
  | uintLoad3 | ulongLoad3 => 3
  | uintLoad4 | ulongLoad4 => 4
  | ulongLoad5 => 5
  | ulongLoad6 => 6
  | ulongLoad7 => 7
  | ulongLoad8 => 8

/-- The bytes that a fast load may read past the end, by the comments at the fast variants. -/
def tailRead : FdLoad → Nat
  | uintLoad3 | ulongLoad3 => 1
  | ulongLoad5 => 3
  | ulongLoad6 => 2
  | ulongLoad7 => 1
  | _ => 0

/-- The load by `memcpy`. -/
def memcpy : (l : FdLoad) → Nat → Rd Uchar (BitVec l.bits)
  | ucharLoad1 => Memcpy.fdUcharLoad1
  | ushortLoad1 => Memcpy.fdUshortLoad1
  | ushortLoad2 => Memcpy.fdUshortLoad2
  | uintLoad1 => Memcpy.fdUintLoad1
  | uintLoad2 => Memcpy.fdUintLoad2
  | uintLoad3 => Memcpy.fdUintLoad3
  | uintLoad4 => Memcpy.fdUintLoad4
  | ulongLoad1 => Memcpy.fdUlongLoad1
  | ulongLoad2 => Memcpy.fdUlongLoad2
  | ulongLoad3 => Memcpy.fdUlongLoad3
  | ulongLoad4 => Memcpy.fdUlongLoad4
  | ulongLoad5 => Memcpy.fdUlongLoad5
  | ulongLoad6 => Memcpy.fdUlongLoad6
  | ulongLoad7 => Memcpy.fdUlongLoad7
  | ulongLoad8 => Memcpy.fdUlongLoad8

/-- The fast load by `memcpy`; most are the plain ones. -/
def memcpyFast : (l : FdLoad) → Nat → Rd Uchar (BitVec l.bits)
  | uintLoad3 => Memcpy.fdUintLoad3Fast
  | ulongLoad3 => Memcpy.fdUlongLoad3Fast
  | ulongLoad5 => Memcpy.fdUlongLoad5Fast
  | ulongLoad6 => Memcpy.fdUlongLoad6Fast
  | ulongLoad7 => Memcpy.fdUlongLoad7Fast
  | l => l.memcpy

/-- The load by direct access. -/
def direct : (l : FdLoad) → Nat → Rd Uchar (BitVec l.bits)
  | ucharLoad1 => Direct.fdUcharLoad1
  | ushortLoad1 => Direct.fdUshortLoad1
  | ushortLoad2 => Direct.fdUshortLoad2
  | uintLoad1 => Direct.fdUintLoad1
  | uintLoad2 => Direct.fdUintLoad2
  | uintLoad3 => Direct.fdUintLoad3
  | uintLoad4 => Direct.fdUintLoad4
  | ulongLoad1 => Direct.fdUlongLoad1
  | ulongLoad2 => Direct.fdUlongLoad2
  | ulongLoad3 => Direct.fdUlongLoad3
  | ulongLoad4 => Direct.fdUlongLoad4
  | ulongLoad5 => Direct.fdUlongLoad5
  | ulongLoad6 => Direct.fdUlongLoad6
  | ulongLoad7 => Direct.fdUlongLoad7
  | ulongLoad8 => Direct.fdUlongLoad8

/-- The fast load by direct access; most are the plain ones. -/
def directFast : (l : FdLoad) → Nat → Rd Uchar (BitVec l.bits)
  | uintLoad3 => Direct.fdUintLoad3Fast
  | ulongLoad3 => Direct.fdUlongLoad3Fast
  | ulongLoad5 => Direct.fdUlongLoad5Fast
  | ulongLoad6 => Direct.fdUlongLoad6Fast
  | ulongLoad7 => Direct.fdUlongLoad7Fast
  | l => l.direct

end FdLoad

end VerifyFiredancer
