import VerifyFiredancer.Bits
import VerifyFiredancer.Lib.Smear

/-!
# BitsImpl: functions on single integers

`fd_bits.h` defines most of its functions by macros, once for every integer type. `fdTExtract` and so on are the bodies of
`FD_SRC_UTIL_BITS_FD_BITS_IMPL` with the type `T` as an argument. An operand that is narrower than `int` is promoted: it is
extended to 32 bits, by its sign if it has one, the operation is one on 32 bits, and the cast to `T` drops the bits above.

A bit index or a count of bits is an `int` in the source and a natural number here, which is all that the functions are defined
for.
-/

namespace VerifyFiredancer

/-- The widths of `uchar`, `ushort`, `uint`, `ulong` and `uint128`, and of `schar`, `short`, `int`, `long` and `int128`. -/
inductive IntWidth where
  | w8
  | w16
  | w32
  | w64
  | w128
  deriving DecidableEq, Repr

namespace IntWidth

/-- `w` of the macros. -/
def bits : IntWidth → Nat
  | w8 => 8
  | w16 => 16
  | w32 => 32
  | w64 => 64
  | w128 => 128

/-- A value of the type. -/
abbrev Word (T : IntWidth) : Type := BitVec T.bits

/-- A value as an operand, at the width the operation is done in. -/
abbrev Operand (T : IntWidth) : Type := BitVec (max T.bits 32)

/-- The promotion of an unsigned operand. -/
def promote (T : IntWidth) (x : T.Word) : T.Operand := x.setWidth _

/-- The promotion of a signed operand. -/
def promoteSigned (T : IntWidth) (x : T.Word) : T.Operand := x.signExtend _

/-- The cast of a result, `(T)` or `(UT)`. -/
def cast (T : IntWidth) (x : T.Operand) : T.Word := x.setWidth _

end IntWidth

variable (T : IntWidth)

/-! ## Bit fields -/

/-- `fd_##T##_mask_lsb`. -/
def fdTMaskLsb (n : Nat) : T.Word :=
  T.cast (T.promote (if n < T.bits then 1 else 0) <<< (n &&& (T.bits - 1)) - T.promote 1)

/-- `fd_##T##_clear_lsb`. -/
def fdTClearLsb (x : T.Word) (n : Nat) : T.Word := T.cast (T.promote x &&& ~~~T.promote (fdTMaskLsb T n))

/-- `fd_##T##_set_lsb`. -/
def fdTSetLsb (x : T.Word) (n : Nat) : T.Word := T.cast (T.promote x ||| T.promote (fdTMaskLsb T n))

/-- `fd_##T##_flip_lsb`. -/
def fdTFlipLsb (x : T.Word) (n : Nat) : T.Word := T.cast (T.promote x ^^^ T.promote (fdTMaskLsb T n))

/-- `fd_##T##_extract_lsb`. -/
def fdTExtractLsb (x : T.Word) (n : Nat) : T.Word := T.cast (T.promote x &&& T.promote (fdTMaskLsb T n))

/-- `fd_##T##_insert_lsb`. -/
def fdTInsertLsb (x : T.Word) (n : Nat) (y : T.Word) : T.Word := T.cast (T.promote (fdTClearLsb T x n) ||| T.promote y)

/-- `fd_##T##_mask`. -/
def fdTMask (l h : Nat) : T.Word := T.cast (T.promote (fdTMaskLsb T (h - l + 1)) <<< l)

/-- `fd_##T##_clear`. -/
def fdTClear (x : T.Word) (l h : Nat) : T.Word := T.cast (T.promote x &&& ~~~T.promote (fdTMask T l h))

/-- `fd_##T##_extract`. -/
def fdTExtract (x : T.Word) (l h : Nat) : T.Word := T.cast (T.promote x >>> l &&& T.promote (fdTMaskLsb T (h - l + 1)))

/-- `fd_##T##_insert`. -/
def fdTInsert (x : T.Word) (l h : Nat) (y : T.Word) : T.Word := T.cast (T.promote (fdTClear T x l h) ||| T.promote y <<< l)

/-! ## Zig-zag -/

/-- `fd_##T##_zz_enc`. -/
def fdTZzEnc (x : T.Word) : T.Word :=
  T.cast (T.promote (T.cast ((T.promoteSigned x).sshiftRight (T.bits - 1))) ^^^ T.promote x <<< 1)

/-- `fd_##T##_zz_dec`. -/
def fdTZzDec (x : T.Word) : T.Word := T.cast (T.promote x >>> 1 ^^^ -(T.promote x &&& T.promote 1))

/-! ## Powers of two -/

/-- The functions `fd_##T##_pow2_up`, by the shifts they make. Those of the narrow types compute in `uint`. -/
def fdTPow2Up (shifts : List Nat) (x : T.Word) : T.Word :=
  let x := T.promote x
  let x := x - 1
  let x := Smear.smear x shifts
  let x := x + 1
  T.cast x

/-- The functions `fd_##T##_pow2_dn`. -/
def fdTPow2Dn (shifts : List Nat) (x : T.Word) : T.Word :=
  let x := T.promote x
  let x := x >>> 1
  let x := Smear.smear x shifts
  let x := x + 1
  T.cast x

/-- `fd_uchar_pow2_up` and `fd_uchar_pow2_dn`. -/
def fdUcharPow2Up : Uchar → Uchar := fdTPow2Up .w8 [1, 2, 4]
def fdUcharPow2Dn : Uchar → Uchar := fdTPow2Dn .w8 [1, 2, 4]

/-- `fd_ushort_pow2_up` and `fd_ushort_pow2_dn`. -/
def fdUshortPow2Up : Ushort → Ushort := fdTPow2Up .w16 [1, 2, 4, 8]
def fdUshortPow2Dn : Ushort → Ushort := fdTPow2Dn .w16 [1, 2, 4, 8]

/-- `fd_uint_pow2_up` and `fd_uint_pow2_dn`. -/
def fdUintPow2Up : Uint → Uint := fdTPow2Up .w32 [1, 2, 4, 8, 16]
def fdUintPow2Dn : Uint → Uint := fdTPow2Dn .w32 [1, 2, 4, 8, 16]

/-- `fd_ulong_pow2_up` and `fd_ulong_pow2_dn`. -/
def fdUlongPow2Up : Ulong → Ulong := fdTPow2Up .w64 [1, 2, 4, 8, 16, 32]
def fdUlongPow2Dn : Ulong → Ulong := fdTPow2Dn .w64 [1, 2, 4, 8, 16, 32]

/-- `fd_uint128_pow2_up` and `fd_uint128_pow2_dn`. -/
def fdUint128Pow2Up : Uint128 → Uint128 := fdTPow2Up .w128 [1, 2, 4, 8, 16, 32, 64]
def fdUint128Pow2Dn : Uint128 → Uint128 := fdTPow2Dn .w128 [1, 2, 4, 8, 16, 32, 64]

/-! ## Hashes -/

/-- `fd_uint_hash`. -/
def fdUintHash (x : Uint) : Uint :=
  let x := x ^^^ x >>> 16
  let x := x * 0x85ebca6b
  let x := x ^^^ x >>> 13
  let x := x * 0xc2b2ae35
  x ^^^ x >>> 16

/-- `fd_ulong_hash`. -/
def fdUlongHash (x : Ulong) : Ulong :=
  let x := x ^^^ x >>> 33
  let x := x * 0xff51afd7ed558ccd
  let x := x ^^^ x >>> 33
  let x := x * 0xc4ceb9fe1a85ec53
  x ^^^ x >>> 33

/-- `fd_uint_hash_inverse`. -/
def fdUintHashInverse (x : Uint) : Uint :=
  let x := x ^^^ x >>> 16
  let x := x * 0x7ed1b41d
  let x := x ^^^ (x >>> 13 ^^^ x >>> 26)
  let x := x * 0xa5cb9243
  x ^^^ x >>> 16

/-- `fd_ulong_hash_inverse`. -/
def fdUlongHashInverse (x : Ulong) : Ulong :=
  let x := x ^^^ x >>> 33
  let x := x * 0x9cb4b2f8129337db
  let x := x ^^^ x >>> 33
  let x := x * 0x4f74430c22a54005
  x ^^^ x >>> 33

/-! ## Decimal digits -/

/-- The loop of `fd_##T##_base10_dig_cnt`, with the product of `thresh` by ten as an argument; none when it takes more rounds
than its `fuel`. -/
def fdBase10DigCntLoop (times10 : Ulong → Ulong) (M x : Ulong) : Nat → Ulong → Ulong → Option Ulong
  | 0, _, _ => none
  | fuel + 1, cnt, thresh =>
    if x < thresh then some cnt
    else
      let cnt := cnt + 1
      let thresh := times10 thresh
      if cnt < M then fdBase10DigCntLoop times10 M x fuel cnt thresh else some cnt

/-- `fd_##T##_base10_dig_cnt` of `(ulong)_x`. -/
def fdTBase10DigCnt (times10 : Ulong → Ulong) (M : Ulong) (fuel : Nat) (x : Ulong) : Option Ulong :=
  fdBase10DigCntLoop times10 M x fuel 1 10

/-- `thresh *= 10UL`. -/
def ulongTimes10 (thresh : Ulong) : Ulong := thresh * 10

/-- `fd_uchar_base10_dig_cnt`, `fd_ushort_base10_dig_cnt`, `fd_uint_base10_dig_cnt` and `fd_ulong_base10_dig_cnt`. -/
def fdUcharBase10DigCnt (fuel : Nat) (x : Uchar) : Option Ulong := fdTBase10DigCnt ulongTimes10 3 fuel (x.setWidth 64)
def fdUshortBase10DigCnt (fuel : Nat) (x : Ushort) : Option Ulong := fdTBase10DigCnt ulongTimes10 5 fuel (x.setWidth 64)
def fdUintBase10DigCnt (fuel : Nat) (x : Uint) : Option Ulong := fdTBase10DigCnt ulongTimes10 10 fuel (x.setWidth 64)
def fdUlongBase10DigCnt (fuel : Nat) (x : Ulong) : Option Ulong := fdTBase10DigCnt ulongTimes10 20 fuel x

/-! ## Counts of bits -/

/-- `fd_##T##_is_pow2`. -/
def fdTIsPow2 (x : T.Word) : Bool := x != 0 && T.promote x &&& (T.promote x - T.promote 1) == 0

/-- `fd_##T##_pow2`. -/
def fdTPow2 (n : Nat) : T.Word := T.cast (T.promote (if n < T.bits then 1 else 0) <<< (n &&& (T.bits - 1)))

/-- `fd_##T##_lsb`. -/
def fdTLsb (x : T.Word) : T.Word := T.cast (T.promote x ^^^ (T.promote x &&& (T.promote x - T.promote 1)))

/-- `fd_##T##_pop_lsb`. -/
def fdTPopLsb (x : T.Word) : T.Word := T.cast (T.promote x &&& (T.promote x - T.promote 1))

/-- `__builtin_popcount` and `__builtin_popcountl`. -/
def builtinPopcount {w : Nat} (x : BitVec w) : Nat := (List.range w).countP x.getLsbD

/-- `fd_uchar_popcnt`, `fd_ushort_popcnt`, `fd_uint_popcnt`, `fd_ulong_popcnt` and `fd_uint128_popcnt`. -/
def fdUcharPopcnt (x : Uchar) : Nat := builtinPopcount (x.setWidth 32)
def fdUshortPopcnt (x : Ushort) : Nat := builtinPopcount (x.setWidth 32)
def fdUintPopcnt (x : Uint) : Nat := builtinPopcount x
def fdUlongPopcnt (x : Ulong) : Nat := builtinPopcount x
def fdUint128Popcnt (x : Uint128) : Nat := builtinPopcount (x.setWidth 64) + builtinPopcount ((x >>> 64).setWidth 64)

/-- They are the family `fd_##T##_popcnt`. -/
def fdTPopcnt : (T : IntWidth) → T.Word → Nat
  | .w8 => fdUcharPopcnt
  | .w16 => fdUshortPopcnt
  | .w32 => fdUintPopcnt
  | .w64 => fdUlongPopcnt
  | .w128 => fdUint128Popcnt

/-! ## Alignment -/

/-- `fd_##T##_is_aligned`. -/
def fdTIsAligned (x a : T.Word) : Bool :=
  let a := a - 1
  T.promote x &&& T.promote a == 0

/-- `fd_##T##_alignment`. -/
def fdTAlignment (x a : T.Word) : T.Word :=
  let a := a - 1
  T.cast (T.promote x &&& T.promote a)

/-- `fd_##T##_align_dn`. -/
def fdTAlignDn (x a : T.Word) : T.Word :=
  let a := a - 1
  T.cast (T.promote x &&& ~~~T.promote a)

/-- `fd_##T##_align_up`. -/
def fdTAlignUp (x a : T.Word) : T.Word :=
  let a := a - 1
  T.cast ((T.promote x + T.promote a) &&& ~~~T.promote a)

/-! ## Shifts and rotations -/

/-- `fd_##T##_shift_right`. -/
def fdTShiftRight (x : T.Word) (n : Nat) : T.Word :=
  T.cast (T.promote (if T.bits - 1 < n then 0 else x) >>> (n &&& (T.bits - 1)))

/-- `n&(w-1)`, for an `int` that may be negative. -/
def andBits (n : Sint) : Nat := (n &&& BitVec.ofNat 32 (T.bits - 1)).toNat

/-- `fd_##T##_rotate_left`. -/
def fdTRotateLeft (x : T.Word) (n : Sint) : T.Word :=
  T.cast (T.promote x <<< andBits T n ||| T.promote x >>> andBits T (-n))

/-- `fd_##T##_rotate_right`. -/
def fdTRotateRight (x : T.Word) (n : Sint) : T.Word :=
  T.cast (T.promote x >>> andBits T n ||| T.promote x <<< andBits T (-n))

/-! ## Signed words, and the same for machines whose right shift does not extend the sign -/

/-- `fd_##T##_abs`. -/
def fdTAbs (x : T.Word) : T.Word :=
  let m := T.cast ((T.promoteSigned x).sshiftRight (T.bits - 1))
  T.cast ((T.promote x + T.promote m) ^^^ T.promote m)

/-- `fd_##T##_shift_right` of a signed type. -/
def fdTShiftRightSigned (x : T.Word) (n : Nat) : T.Word :=
  T.cast ((T.promoteSigned x).sshiftRight (if T.bits - 1 < n then T.bits - 1 else n))

/-- `fd_##T##_abs` of the comment. -/
def fdTAbsPortable (x : T.Word) : T.Word :=
  let u := x
  let m := T.cast (-(T.promote u >>> (T.bits - 1)))
  T.cast ((T.promote u + T.promote m) ^^^ T.promote m)

/-- `fd_##T##_shift_right` of the comment. -/
def fdTShiftRightPortable (x : T.Word) (n : Nat) : T.Word :=
  let u := x
  let m := T.cast (-(T.promote u >>> (T.bits - 1)))
  T.cast (T.promote (fdTShiftRight T (T.cast (T.promote u ^^^ T.promote m)) n) ^^^ T.promote m)

/-- `fd_##T##_zz_enc` of the comment. -/
def fdTZzEncPortable (x : T.Word) : T.Word :=
  let u := x
  T.cast (-(T.promote u >>> (T.bits - 1)) ^^^ T.promote u <<< 1)

end VerifyFiredancer
