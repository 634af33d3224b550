import VerifyFiredancer.BitsImpl
import VerifyFiredancer.Tcache
import VerifyFiredancer.Lib.Mixer

/-!
# The integer hashes

Each hash is a mixer (`Mixer`) whose steps undo those of its inverse in the opposite order, so that both are permutations. They
take zero to zero, and so nothing else to it.
-/

namespace VerifyFiredancer

open Mixer

namespace HashAux

/-- `fd_uint_hash` and its inverse, step by step. -/
def uintHash : Equiv.Perm Uint :=
  (xorShift 16 (by decide)).trans <| (times 0x85ebca6b 0xa5cb9243 (by decide)).trans <|
    (xorShift₂ 13 (by decide)).trans <| (times 0xc2b2ae35 0x7ed1b41d (by decide)).trans (xorShift 16 (by decide))

/-- `fd_ulong_hash` and its inverse, step by step. -/
def ulongHash : Equiv.Perm Ulong :=
  (xorShift 33 (by decide)).trans <| (times 0xff51afd7ed558ccd 0x4f74430c22a54005 (by decide)).trans <|
    (xorShift 33 (by decide)).trans <| (times 0xc4ceb9fe1a85ec53 0x9cb4b2f8129337db (by decide)).trans (xorShift 33 (by decide))

theorem uintHash_apply (x : Uint) : uintHash x = fdUintHash x := rfl

theorem uintHash_symm_apply (x : Uint) : uintHash.symm x = fdUintHashInverse x := rfl

theorem ulongHash_apply (x : Ulong) : ulongHash x = fdUlongHash x := rfl

theorem ulongHash_symm_apply (x : Ulong) : ulongHash.symm x = fdUlongHashInverse x := rfl

theorem ulongHash_zero : fdUlongHash 0 = 0 := by decide

theorem ulongHash_injective : Function.Injective fdUlongHash := ulongHash.injective

end HashAux

open HashAux

/-- The hashes are permutations with the given inverses. So distinct indices have distinct tags, and no index but zero has the
null tag. -/
theorem hashes_permute :
    (∀ x, fdUintHashInverse (fdUintHash x) = x ∧ fdUintHash (fdUintHashInverse x) = x) ∧
      (∀ x, fdUlongHashInverse (fdUlongHash x) = x ∧ fdUlongHash (fdUlongHashInverse x) = x) ∧
      (∀ i j, i ≠ j → fdUlongHash i ≠ fdUlongHash j) ∧ ∀ i, i ≠ 0 → fdUlongHash i ≠ fdTcacheTagNull := by
  refine ⟨fun x => ?_, fun x => ?_, fun i j hne h => hne (ulongHash_injective h), fun i hi h => ?_⟩
  · exact ⟨uintHash.symm_apply_apply x, uintHash.apply_symm_apply x⟩
  · exact ⟨ulongHash.symm_apply_apply x, ulongHash.apply_symm_apply x⟩
  · rw [fdTcacheTagNull, ← ulongHash_zero] at h
    exact hi (ulongHash_injective h)

end VerifyFiredancer
