import Mathlib.Logic.Equiv.Basic

/-!
# Mixers

The steps that integer hashes are made of, as permutations of the words of `w` bits. To add a word shifted right to itself is
undone by adding the shifts by the multiples of the count again, of which one is left when the count is half of the width, and
two when it is a third (`xorShift`, `xorShift₂`). To multiply by a constant is undone by its inverse (`times`). A hash that is
such steps one after the other has its inverse step by step, which is `Equiv.symm`.
-/

namespace Mixer

variable {w : Nat}

/-- Shifts add up. -/
theorem ushiftRight_add (x : BitVec w) (m n : Nat) : x >>> m >>> n = x >>> (m + n) := (BitVec.shiftRight_add x m n).symm

/-- A shift by the width or more leaves nothing. -/
theorem xor_ushiftRight_of_le (x y : BitVec w) {n : Nat} (h : w ≤ n) : x ^^^ y >>> n = x := by
  rw [BitVec.ushiftRight_eq_zero h, BitVec.xor_zero]

/-- A summand that is added twice is gone. -/
theorem xor_cancel (x a y : BitVec w) : x ^^^ a ^^^ (a ^^^ y) = x ^^^ y := by
  rw [BitVec.xor_assoc, ← BitVec.xor_assoc a a y, BitVec.xor_self, BitVec.zero_xor]

/-- The word shifted right by at least half of the width is added: the same step undoes it. -/
def xorShift (s : Nat) (h : w ≤ 2 * s) : Equiv.Perm (BitVec w) :=
  have hinv : Function.LeftInverse (fun x : BitVec w => x ^^^ x >>> s) fun x => x ^^^ x >>> s := by
    intro x
    have hadd : w ≤ s + s := by omega
    dsimp only
    rw [BitVec.ushiftRight_xor_distrib, ushiftRight_add, xor_cancel, xor_ushiftRight_of_le _ _ hadd]
  ⟨fun x => x ^^^ x >>> s, fun x => x ^^^ x >>> s, hinv, hinv⟩

/-- The word shifted right by at least a third of the width is added. -/
def xorShift₂ (s : Nat) (h : w ≤ 3 * s) : Equiv.Perm (BitVec w) where
  toFun x := x ^^^ x >>> s
  invFun x := x ^^^ (x >>> s ^^^ x >>> (2 * s))
  left_inv := by
    intro x
    have h2 : s + 2 * s = 3 * s := by omega
    have h3 : s + s = 2 * s := by omega
    dsimp only
    rw [BitVec.ushiftRight_xor_distrib, BitVec.ushiftRight_xor_distrib, ushiftRight_add, ushiftRight_add, h2, h3, xor_cancel,
      xor_cancel, xor_ushiftRight_of_le _ _ h]
  right_inv := by
    intro x
    have h2 : 2 * s + s = 3 * s := by omega
    have h3 : s + s = 2 * s := by omega
    dsimp only
    rw [BitVec.ushiftRight_xor_distrib, BitVec.ushiftRight_xor_distrib, ushiftRight_add, ushiftRight_add, h2, h3,
      ← BitVec.xor_assoc _ _ (x >>> (3 * s)), xor_cancel, xor_ushiftRight_of_le _ _ h]

/-- The product with a constant that has an inverse. -/
def times (c d : BitVec w) (h : c * d = 1) : Equiv.Perm (BitVec w) where
  toFun x := x * c
  invFun x := x * d
  left_inv := by
    intro x
    dsimp only
    rw [BitVec.mul_assoc, h]
    exact BitVec.mul_one x
  right_inv := by
    intro x
    dsimp only
    rw [BitVec.mul_assoc, BitVec.mul_comm d, h]
    exact BitVec.mul_one x

end Mixer
