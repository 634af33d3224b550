import VerifyFiredancer.Lib.ByteMem
import Mathlib.Data.List.Basic

/-!
# Bits: the machine words and the symmetric variable width code

The symmetric variable width ("svw") code of `fd_bits.h` writes a 64-bit value in 1, 2, 3, 4, 5, 8 or 9 bytes. Both ends of an
encoded value carry a tag that names its width, so that a stream of them can be read in either direction. The definitions of
this file are the functions of the source, width by width and in the order of the source's tests.

An address is a natural number, and a pointer that may be NULL is an `Option Nat`. The stores are the unaligned little endian
stores of `FD_STORE`, and `fd_ulong_load_n` reads `n` bytes and zeroes the rest. The source's `CRAB_ASSUME` is empty outside
the abstract interpreter's build and its `assume` on the decoded width is met by every entry of the table it follows
(`SvwAux.decSz_eq`), so neither appears here.
-/

namespace VerifyFiredancer

open ByteMem

/-- `uchar`, `ushort`, `uint`, `ulong` and `uint128`: the unsigned words of the source. -/
abbrev Uchar : Type := BitVec 8
abbrev Ushort : Type := BitVec 16
abbrev Uint : Type := BitVec 32
abbrev Ulong : Type := BitVec 64
abbrev Uint128 : Type := BitVec 128

/-- `short`, `int`, `long` and `int128`: words the source compares, shifts and extends as signed numbers. -/
abbrev Short : Type := BitVec 16
abbrev Sint : Type := BitVec 32
abbrev Long : Type := BitVec 64
abbrev Int128 : Type := BitVec 128

/-- `ULONG_MAX`. -/
def ulongMax : Ulong := BitVec.allOnes 64

/-- `LONG_MAX`. -/
def longMax : Nat := 2 ^ 63 - 1

/-- `fd_long_max`, `fd_ulong_min` and `fd_ulong_if`. -/
def fdLongMax (x y : Long) : Long := if y.slt x then x else y
def fdUlongMin (x y : Ulong) : Ulong := if x < y then x else y
def fdUlongIf (c : Bool) (t f : Ulong) : Ulong := if c then t else f

/-- The families `fd_##T##_zz_enc` and `fd_##T##_zz_dec`, on words of `w` bits. -/
def fdZzEnc {w : Nat} (x : BitVec w) : BitVec w := x.sshiftRight (w - 1) ^^^ x <<< 1
def fdZzDec {w : Nat} (x : BitVec w) : BitVec w := x >>> 1 ^^^ -(x &&& 1)

/-- `fd_long_zz_enc`, `fd_long_zz_dec`, `fd_int128_zz_enc` and `fd_int128_zz_dec`. -/
def fdLongZzEnc : Long → Ulong := fdZzEnc
def fdLongZzDec : Ulong → Long := fdZzDec
def fdInt128ZzEnc : Int128 → Uint128 := fdZzEnc
def fdInt128ZzDec : Uint128 → Int128 := fdZzDec

/-! ## Unaligned access -/

/-- A store of one byte, `b[0] = v`. -/
def storeUchar (m : Mem) (dst : Nat) (v : Uchar) : Mem := storeLE m dst 1 v.toNat

/-- `FD_STORE( ushort, dst, val )`. -/
def fdStoreUshort (m : Mem) (dst : Nat) (val : Ushort) : Mem := storeLE m dst 2 val.toNat

/-- `FD_STORE( uint, dst, val )`. -/
def fdStoreUint (m : Mem) (dst : Nat) (val : Uint) : Mem := storeLE m dst 4 val.toNat

/-- `FD_STORE( ulong, dst, val )`. -/
def fdStoreUlong (m : Mem) (dst : Nat) (val : Ulong) : Mem := storeLE m dst 8 val.toNat

/-- The family `fd_ulong_load_n`: `n` bytes into the low bytes of a `ulong`, the rest zero. -/
def fdUlongLoad (n : Nat) (m : Mem) (p : Nat) : Ulong := BitVec.ofNat 64 (loadLE m p n)

def fdUlongLoad1 : Mem → Nat → Ulong := fdUlongLoad 1
def fdUlongLoad2 : Mem → Nat → Ulong := fdUlongLoad 2
def fdUlongLoad4 : Mem → Nat → Ulong := fdUlongLoad 4
def fdUlongLoad8 : Mem → Nat → Ulong := fdUlongLoad 8

/-! ## The symmetric variable width code -/

/-- `fd_ulong_svw_enc_sz`: the number of bytes needed to encode `x`. -/
def fdUlongSvwEncSz (x : Ulong) : Ulong :=
  if x < 1#64 <<< 6 then 1
  else if x < 1#64 <<< 10 then 2
  else if x < 1#64 <<< 18 then 3
  else if x < 1#64 <<< 24 then 4
  else if x < 1#64 <<< 32 then 5
  else if x < 1#64 <<< 56 then 8
  else 9

/-- `fd_ulong_svw_enc`: appends `x` to the byte stream at `b` and gives the next location. -/
def fdUlongSvwEnc (m : Mem) (b : Nat) (x : Ulong) : Mem × Nat :=
  if x < 1#64 <<< 6 then
    (storeUchar m b ((x <<< 1).setWidth 8), b + 1)
  else if x < 1#64 <<< 10 then
    (fdStoreUshort m b ((0x8001#64 ||| (x <<< 3)).setWidth 16), b + 2)
  else if x < 1#64 <<< 18 then
    (storeUchar (fdStoreUshort m b ((0x5#64 ||| (x <<< 3)).setWidth 16)) (b + 2) ((0xa0#64 ||| (x >>> 13)).setWidth 8), b + 3)
  else if x < 1#64 <<< 24 then
    (fdStoreUint m b ((0xc0000003#64 ||| (x <<< 4)).setWidth 32), b + 4)
  else if x < 1#64 <<< 32 then
    (storeUchar (fdStoreUint m b ((0xb#64 ||| (x <<< 4)).setWidth 32)) (b + 4) ((0xd0#64 ||| (x >>> 28)).setWidth 8), b + 5)
  else if x < 1#64 <<< 56 then
    (fdStoreUlong m b (0xe000000000000007#64 ||| (x <<< 4)), b + 8)
  else
    (storeUchar (fdStoreUlong m b (0xf#64 ||| (x <<< 4))) (b + 8) ((0xf0#64 ||| (x >>> 60)).setWidth 8), b + 9)

/-- `fd_ulong_svw_enc_fixed`: appends `x` to the byte stream at `b` in `csz` bytes. The last branch is the `csz==9UL` one. -/
def fdUlongSvwEncFixed (m : Mem) (b : Nat) (csz x : Ulong) : Mem × Nat :=
  let m' :=
    if csz = 1 then
      storeUchar m b ((x <<< 1).setWidth 8)
    else if csz = 2 then
      fdStoreUshort m b ((0x8001#64 ||| (x <<< 3)).setWidth 16)
    else if csz = 3 then
      storeUchar (fdStoreUshort m b ((0x5#64 ||| (x <<< 3)).setWidth 16)) (b + 2) ((0xa0#64 ||| (x >>> 13)).setWidth 8)
    else if csz = 4 then
      fdStoreUint m b ((0xc0000003#64 ||| (x <<< 4)).setWidth 32)
    else if csz = 5 then
      storeUchar (fdStoreUint m b ((0xb#64 ||| (x <<< 4)).setWidth 32)) (b + 4) ((0xd0#64 ||| (x >>> 28)).setWidth 8)
    else if csz = 8 then
      fdStoreUlong m b (0xe000000000000007#64 ||| (x <<< 4))
    else
      storeUchar (fdStoreUlong m b (0xf#64 ||| (x <<< 4))) (b + 8) ((0xf0#64 ||| (x >>> 60)).setWidth 8)
  (m', b + csz.toNat)

/-- The packed table of widths that both size decoders index, four bits a width. -/
def svwSzTable : Ulong := 0x9854332211111111

/-- `fd_ulong_svw_dec_sz`: the width of the encoded value whose first byte is at `b`. -/
def fdUlongSvwDecSz (m : Mem) (b : Nat) : Ulong :=
  (svwSzTable >>> ((((m b).setWidth 64 : Ulong) >>> 4) <<< 2)) &&& 15

/-- `fd_ulong_svw_dec_tail_sz`: the width of the encoded value whose last byte is just before `b`. -/
def fdUlongSvwDecTailSz (m : Mem) (b : Nat) : Ulong :=
  (svwSzTable >>> ((((m (b - 1)).setWidth 64 : Ulong) >>> 4) <<< 2)) &&& 15

/-- `fd_ulong_svw_dec_fixed`: the value encoded in the `csz` bytes at `b`. The last branch is the `csz==9UL` one. -/
def fdUlongSvwDecFixed (m : Mem) (b : Nat) (csz : Ulong) : Ulong :=
  if csz = 1 then fdUlongLoad1 m b >>> 1
  else if csz = 2 then (fdUlongLoad2 m b >>> 3) &&& 1023
  else if csz = 3 then (fdUlongLoad2 m b >>> 3) ||| ((((m (b + 2)).setWidth 64) &&& 0x1f) <<< 13)
  else if csz = 4 then (fdUlongLoad4 m b >>> 4) &&& 16777215
  else if csz = 5 then (fdUlongLoad4 m b >>> 4) ||| ((((m (b + 4)).setWidth 64) &&& 0x0f) <<< 28)
  else if csz = 8 then (fdUlongLoad8 m b >>> 4) &&& 72057594037927935
  else (fdUlongLoad8 m b >>> 4) ||| (((m (b + 8)).setWidth 64) <<< 60)

/-- `fd_ulong_svw_dec`: the value whose first byte is at `b` and the location after it. -/
def fdUlongSvwDec (m : Mem) (b : Nat) : Ulong × Nat :=
  let csz := fdUlongSvwDecSz m b
  (fdUlongSvwDecFixed m b csz, b + csz.toNat)

/-- `fd_ulong_svw_dec_tail`: the value whose last byte is just before `b` and the location of its first byte. -/
def fdUlongSvwDecTail (m : Mem) (b : Nat) : Ulong × Nat :=
  let csz := fdUlongSvwDecTailSz m b
  let b := b - csz.toNat
  (fdUlongSvwDecFixed m b csz, b)

/-! ## Streams -/

/-- Values appended one after the other to the byte stream at `b`. -/
def svwEncStream : Mem → Nat → List Ulong → Mem × Nat
  | m, b, [] => (m, b)
  | m, b, x :: xs =>
    let (m, b) := fdUlongSvwEnc m b x
    svwEncStream m b xs

/-- `k` values read forward, one after the other, from the byte stream at `b`. -/
def svwDecStream (m : Mem) : Nat → Nat → List Ulong × Nat
  | 0, b => ([], b)
  | k + 1, b =>
    let (x, b) := fdUlongSvwDec m b
    let (xs, b) := svwDecStream m k b
    (x :: xs, b)

/-- `k` values read backward, one after the other, from the byte stream that ends at `b`. -/
def svwDecTailStream (m : Mem) : Nat → Nat → List Ulong × Nat
  | 0, b => ([], b)
  | k + 1, b =>
    let (x, b) := fdUlongSvwDecTail m b
    let (xs, b) := svwDecTailStream m k b
    (x :: xs, b)

end VerifyFiredancer
