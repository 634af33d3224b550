import VerifyFiredancer.Lemmas.BitsImpl
import VerifyFiredancer.Lemmas.Svw

/-!
# Zig-zag at every width

The encoder of every type computes the code of `ZigZag`, and the decoder its inverse, also where the operands are promoted. The
code orders by magnitude, and so does the size of its encoding as a `ulong`. A code of 128 bits is not one: cast to a `ulong` it
loses its high half.
-/

namespace VerifyFiredancer

/-- The encoder and the decoder of a type are inverse to each other. The code of `x` is `2x`, or `-2x-1` when `x` is negative,
and is smaller for a number of less magnitude. -/
structure ZzCode (T : IntWidth) : Prop where
  dec_enc : ∀ x : T.Word, fdTZzDec T (fdTZzEnc T x) = x
  enc_dec : ∀ u : T.Word, fdTZzEnc T (fdTZzDec T u) = u
  value : ∀ x : T.Word, ((fdTZzEnc T x).toNat : Int) = if 0 ≤ x.toInt then 2 * x.toInt else -2 * x.toInt - 1
  ordered : ∀ x y : T.Word, x.toInt.natAbs < y.toInt.natAbs → fdTZzEnc T x < fdTZzEnc T y

/-- The svw encoding of a code, cast to a `ulong`, is no longer for a number of less magnitude. -/
def SizeOrdered (T : IntWidth) : Prop :=
  ∀ x y : T.Word, x.toInt.natAbs < y.toInt.natAbs →
    fdUlongSvwEncSz ((fdTZzEnc T x).setWidth 64) ≤ fdUlongSvwEncSz ((fdTZzEnc T y).setWidth 64)

/-- Both hold at every width. -/
def ZzOrdered : Prop := ∀ T, ZzCode T ∧ SizeOrdered T

namespace BitsImplAux

/-- The size of an encoding grows with the value. -/
theorem svwEncSz_mono {x y : Ulong} (h : x ≤ y) : fdUlongSvwEncSz x ≤ fdUlongSvwEncSz y := by
  rw [BitVec.le_def] at h ⊢
  rw [SvwAux.encSz_toNat, SvwAux.encSz_toNat]
  by_contra hlt
  have hx := SvwWidth.payload_le_of_bytes_lt (Nat.not_le.1 hlt)
  have hy := SvwWidth.lt_payload_narrowest y.isLt
  omega

end BitsImplAux

open BitsImplAux

/-- Zig-zag is a code at every width, and the size of its encoding is ordered where the code is a `ulong`. -/
theorem zz_ordered (T : IntWidth) : ZzCode T ∧ (T.bits ≤ 64 → SizeOrdered T) := by
  have hlt : ∀ x y : T.Word, x.toInt.natAbs < y.toInt.natAbs → fdTZzEnc T x < fdTZzEnc T y := by
    intro x y h
    rw [BitVec.lt_def, zzEnc_toNat, zzEnc_toNat]
    exact ZigZag.enc_lt_enc h
  refine ⟨⟨fun x => ?_, fun u => ?_, fun x => ?_, hlt⟩, fun h64 x y h => svwEncSz_mono ?_⟩
  · rw [← BitVec.toInt_inj, zzDec_toInt, zzEnc_toNat, ZigZag.dec_enc]
  · rw [← BitVec.toNat_inj, zzEnc_toNat, zzDec_toInt, ZigZag.enc_dec]
  · rw [zzEnc_toNat, ZigZag.enc_cast]
  · rw [BitVec.le_def, BitVec.toNat_setWidth_of_le h64, BitVec.toNat_setWidth_of_le h64]
    exact Nat.le_of_lt (BitVec.lt_def.1 (hlt x y h))

/-- The code of `2^62` has 9 bytes, that of `2^63`, cast to a `ulong`, has one. -/
theorem zz_truncates : ¬ZzOrdered := by
  intro h
  have hsz := (h .w128).2 (0x4000000000000000 : BitVec 128) (0x8000000000000000 : BitVec 128) (by decide)
  revert hsz
  decide

end VerifyFiredancer
