import VerifyFiredancer.Bits

/-!
# Chacha20rng: random words, and random numbers below a bound

`fd_chacha20rng_ulong` takes 8 bytes at a time from a ring of keystream bytes, and refills the ring when it is empty.
`fd_chacha20rng_ulong_roll` draws such words until one is accepted, and maps it to a number below `n`. The functions are those of
`fd_chacha20rng.h`, with a number of draws that the loop of the roll may take.

The refill and `fd_ulong_find_msb` are not part of the sources, and are parameters here. The key is only read by the refill and
is left out of the state. A run is a number of calls of `fd_chacha20rng_ulong`.
-/

namespace VerifyFiredancer

open ByteMem

/-- `FD_CHACHA20RNG_MODE_MOD` and `FD_CHACHA20RNG_MODE_SHIFT`. -/
def fdChacha20rngModeMod : Int := 1
def fdChacha20rngModeShift : Int := 2

/-- `FD_CHACHA20RNG_BUFSZ`, without AVX. -/
def fdChacha20rngBufsz : Ulong := 256

/-- `fd_chacha20rng_t`: the ring, how many bytes were consumed and produced, and the mode. -/
structure FdChacha20rng where
  buf : Mem
  bufOff : Ulong
  bufFill : Ulong
  mode : Int

/-- `fd_chacha20rng_avail`. -/
def fdChacha20rngAvail (rng : FdChacha20rng) : Ulong := rng.bufFill - rng.bufOff

section Refill

variable (fdChacha20rngPrivateRefill : FdChacha20rng → FdChacha20rng)

/-- `fd_chacha20rng_ulong`. -/
def fdChacha20rngUlong (rng : FdChacha20rng) : FdChacha20rng × Ulong :=
  let rng := if fdChacha20rngAvail rng < 8 then fdChacha20rngPrivateRefill rng else rng
  let x := fdUlongLoad8 rng.buf (rng.bufOff % fdChacha20rngBufsz).toNat
  ({ rng with bufOff := rng.bufOff + 8 }, x)

variable (fdUlongFindMsb : Ulong → Int)

/-- The `zone` of `fd_chacha20rng_ulong_roll`. The bound is positive: for 0 the source divides by 0. -/
def fdChacha20rngRollZone (mode : Int) (n : Ulong) : Ulong :=
  fdUlongIf (mode == fdChacha20rngModeMod) (ulongMax - (ulongMax - n + 1) % n) ((n <<< (63 - fdUlongFindMsb n).toNat) - 1)

/-- One attempt of `fd_chacha20rng_ulong_roll`: the high word of the product when the low word is in the zone. -/
def fdChacha20rngRollDraw (n zone v : Ulong) : Option Ulong :=
  let res : BitVec 128 := v.setWidth 128 * n.setWidth 128
  let hi : Ulong := (res >>> 64).setWidth 64
  let lo : Ulong := res.setWidth 64
  if lo ≤ zone then some hi else none

/-- The loop of `fd_chacha20rng_ulong_roll`, within `fuel` attempts. -/
def fdChacha20rngRollLoop (n zone : Ulong) : Nat → FdChacha20rng → Option (FdChacha20rng × Ulong)
  | 0, _ => none
  | fuel + 1, rng =>
    let (rng, v) := fdChacha20rngUlong fdChacha20rngPrivateRefill rng
    match fdChacha20rngRollDraw n zone v with
    | some hi => some (rng, hi)
    | none => fdChacha20rngRollLoop n zone fuel rng

/-- `fd_chacha20rng_ulong_roll`, within `fuel` attempts. -/
def fdChacha20rngUlongRoll (fuel : Nat) (rng : FdChacha20rng) (n : Ulong) : Option (FdChacha20rng × Ulong) :=
  fdChacha20rngRollLoop fdChacha20rngPrivateRefill n (fdChacha20rngRollZone fdUlongFindMsb rng.mode n) fuel rng

end Refill

/-! ## Runs -/

section Runs

variable (refills : Nat → FdChacha20rng → FdChacha20rng) (rng : FdChacha20rng)

/-- The state after `n` calls of `fd_chacha20rng_ulong`, the refill of each of which may do something else. -/
def FdChacha20rng.after : Nat → FdChacha20rng
  | 0 => rng
  | n + 1 => (fdChacha20rngUlong (refills n) (FdChacha20rng.after n)).1

/-- The word that the call after `n` calls returns. -/
def FdChacha20rng.word (n : Nat) : Ulong := (fdChacha20rngUlong (refills n) (rng.after refills n)).2

/-- How many bytes `n` calls have produced. -/
def FdChacha20rng.produced : Nat → Nat
  | 0 => 0
  | n + 1 => FdChacha20rng.produced n + ((rng.after refills (n + 1)).bufFill - (rng.after refills n).bufFill).toNat

end Runs

/-! ## Calls of both -/

/-- A call of a user: a word, or a number below a bound. -/
inductive RngCall where
  | ulong
  | roll (n : Ulong)
  deriving DecidableEq, Repr

section Calls

variable (fdChacha20rngPrivateRefill : FdChacha20rng → FdChacha20rng) (fdUlongFindMsb : Ulong → Int)

/-- One call, of a roll within `fuel` attempts. -/
def FdChacha20rng.call (fuel : Nat) (rng : FdChacha20rng) : RngCall → Option (FdChacha20rng × Ulong)
  | .ulong => some (fdChacha20rngUlong fdChacha20rngPrivateRefill rng)
  | .roll n => fdChacha20rngUlongRoll fdChacha20rngPrivateRefill fdUlongFindMsb fuel rng n

/-- Calls one after the other, with what they return. -/
def FdChacha20rng.calls (fuel : Nat) : FdChacha20rng → List RngCall → Option (FdChacha20rng × List Ulong)
  | rng, [] => some (rng, [])
  | rng, c :: cs => do
    let (rng, r) ← rng.call fdChacha20rngPrivateRefill fdUlongFindMsb fuel c
    let (rng, rs) ← FdChacha20rng.calls fuel rng cs
    return (rng, r :: rs)

end Calls

end VerifyFiredancer
