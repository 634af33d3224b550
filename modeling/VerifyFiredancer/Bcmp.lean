import VerifyFiredancer.Bits
import VerifyFiredancer.Lib.ReadScan
import Mathlib.Logic.Function.Basic

/-!
# Bcmp: the memory functions of the C library, for a model checker

The functions of `bcmp.c`. The comparisons and `memchr` are loops that read a memory and stop early: each is a scan, first up to
the bound `sea_max_buffer_size()` with a guard, so that a model checker can unroll it, and then over the rest. `memmove` and
`memcpy` are those of the `__SYMBIOTIC__` build, on a state with the memory, what was read, and the two cursors.

Addresses are numbers, and so are sizes and indices, none of which passes the size it is compared with.
-/

namespace VerifyFiredancer

open ByteMem ReadScan

/-- `NULL`. -/
def null : Nat := 0

/-! ## Comparisons -/

/-- The two loops of a function over the indices below `n`, the first of them pre-unrolled for `maxBufferSize`. -/
def unrolledLoops {α : Type} (maxBufferSize n : Nat) (body : Nat → Rd Uchar (Option α)) : Rd Uchar (Option α) :=
  orElse (scan (fun i => if i < n then body i else pure none) maxBufferSize 0) (scan body (n - maxBufferSize) maxBufferSize)

/-- `bcmp`. -/
def bcmp (maxBufferSize s1 s2 n : Nat) : Rd Uchar Int := do
  if s1 = s2 then return 0
  else if s1 = null ∨ s2 = null then return 1
  else
    let r ← unrolledLoops maxBufferSize n fun i => do
      let b1 ← read (s1 + i)
      let b2 ← read (s2 + i)
      return if b1 ≠ b2 then some 1 else none
    return r.getD 0

/-- `memcmp`. -/
def memcmp (maxBufferSize s1 s2 n : Nat) : Rd Uchar Int := do
  if s1 = s2 then return 0
  else
    let r ← unrolledLoops maxBufferSize n fun i => do
      let b1 ← read (s1 + i)
      let b2 ← read (s2 + i)
      return if b1 ≠ b2 then some (if b1 < b2 then -1 else 1) else none
    return r.getD 0

/-- `memchr`. The local `p`, which the loops read through, is declared and never given a value: it is a parameter. The source
uses `str` only to assert that its `n` bytes can be read. -/
def memchr (maxBufferSize p : Nat) (_str : Nat) (c : BitVec 32) (n : Nat) : Rd Uchar Nat := do
  let ch : Uchar := c.setWidth 8
  let r ← unrolledLoops maxBufferSize n fun i => do
    let b ← read (p + i)
    return if b = ch then some (p + i) else none
  return r.getD null

/-- `strncmp`. -/
def strncmp (maxBufferSize str1 str2 n : Nat) : Rd Uchar Int := do
  let r ← scan (fun i => do
    let c1 ← read (str1 + i)
    if c1 = 0 then return some (← memcmp maxBufferSize str1 str2 i)
    else
      let c2 ← read (str2 + i)
      if c2 = 0 then return some (← memcmp maxBufferSize str1 str2 i) else return none) n 0
  match r with
  | some r => return r
  | none => memcmp maxBufferSize str1 str2 n

/-! ## Copies -/

/-- A memory, the addresses that were read, and the cursors of a copy. -/
structure Move where
  mem : Mem
  reads : List Nat
  tmpTo : Nat
  tmpFrom : Nat

/-- The loop of `memcpy`, with the cursors before the bytes. -/
def Move.memcpyLoop : Nat → Move → Move
  | 0, s => s
  | n + 1, s => Move.memcpyLoop n
    { mem := Function.update s.mem s.tmpTo (s.mem s.tmpFrom)
      reads := s.reads ++ [s.tmpFrom]
      tmpTo := s.tmpTo + 1
      tmpFrom := s.tmpFrom + 1 }

/-- `memcpy`. -/
def memcpy (m : Mem) (dest src n : Nat) : Move := Move.memcpyLoop n ⟨m, [], dest, src⟩

/-- `*--tmp_to = *--tmp_from`, `n` times. -/
def Move.bytes : Nat → Move → Move
  | 0, s => s
  | n + 1, s => Move.bytes n
    { mem := Function.update s.mem (s.tmpTo - 1) (s.mem (s.tmpFrom - 1))
      reads := s.reads ++ [s.tmpFrom - 1]
      tmpTo := s.tmpTo - 1
      tmpFrom := s.tmpFrom - 1 }

/-- The loop at `copy_chunks`. The offsets are those of words of 4 bytes, an `unsigned long` has 8. -/
def Move.chunks : Nat → Move → Move
  | 0, s => s
  | n + 1, s =>
    let tmp1 := loadLE s.mem (s.tmpFrom - 4) 8
    let tmp2 := loadLE s.mem (s.tmpFrom - 8) 8
    Move.chunks n
      { mem := storeLE (storeLE s.mem (s.tmpTo - 4) 8 tmp1) (s.tmpTo - 8) 8 tmp2
        reads := s.reads ++ List.range' (s.tmpFrom - 4) 8 ++ List.range' (s.tmpFrom - 8) 8
        tmpTo := s.tmpTo - 8
        tmpFrom := s.tmpFrom - 8 }

/-- From `lessthan8` on. -/
def Move.lessthan8 (n : Nat) (s : Move) : Move :=
  let n := n % 8
  if 4 ≤ n then
    Move.bytes (n - 4)
      { mem := storeLE s.mem (s.tmpTo - 4) 8 (loadLE s.mem (s.tmpFrom - 4) 8)
        reads := s.reads ++ List.range' (s.tmpFrom - 4) 8
        tmpTo := s.tmpTo - 4
        tmpFrom := s.tmpFrom - 4 }
  else Move.bytes n s

/-- From `align` on. -/
def Move.align (rem n : Nat) (s : Move) : Move :=
  let rem := 4 - rem
  let n := n - rem
  let s := s.bytes rem
  let chunks := n / 8
  if chunks ≠ 0 then (s.chunks chunks).lessthan8 n else s.lessthan8 n

/-- `memmove`, with `dst` and `src` for its `to` and `from`. -/
def memmove (m : Mem) (dst src n : Nat) : Move :=
  if dst ≤ src then memcpy m dst src n
  else
    let chunks := n / 8
    let s : Move := ⟨m, [], dst + n, src + n⟩
    if chunks = 0 then s.lessthan8 n
    else
      let rem := s.tmpTo % 4
      if rem ≠ 0 then s.align rem n else (s.chunks chunks).lessthan8 n

end VerifyFiredancer
