import VerifyFiredancer.Lemmas.BitsImpl
import VerifyFiredancer.Lib.Layout

/-!
# Alignment at every width

For a power of two, `fd_##T##_align_dn` and `fd_##T##_align_up` round to its multiples: down to the greatest one that is not above,
up to the least one that is not below, of which the word has the low bits where it is the end of the range (`align_rounds`).
-/

namespace VerifyFiredancer

open IntWidth PowerMask Layout

variable {T : IntWidth}

namespace AlignAux

theorem alignDn_eq (x a : T.Word) : fdTAlignDn T x a = x &&& ~~~(a - 1) := by
  simp [fdTAlignDn]

theorem alignUp_eq (x a : T.Word) : fdTAlignUp T x a = wordAlignUp x a := by
  simp [fdTAlignUp, wordAlignUp]

variable {x a : T.Word} {k : Nat}

theorem alignment_toNat (ha : a.toNat = 2 ^ k) : (fdTAlignment T x a).toNat = x.toNat % a.toNat := by
  have heq : fdTAlignment T x a = x &&& (a - 1) := by
    simp [fdTAlignment]
  rw [heq, toNat_and_mask ha, ha]

/-- A word is aligned when it has no bit below the alignment. -/
theorem isAligned_iff (ha : a.toNat = 2 ^ k) : fdTIsAligned T x a = true ↔ a.toNat ∣ x.toNat := by
  have hand : (T.promote x &&& T.promote (a - 1)).toNat = x.toNat % 2 ^ k := by
    rw [BitVec.toNat_and, promote_toNat, promote_toNat, ← BitVec.toNat_and, toNat_and_mask ha]
  rw [fdTIsAligned, beq_iff_eq, ← BitVec.toNat_inj, hand, ha, Nat.dvd_iff_mod_eq_zero]
  exact Iff.rfl

/-- A multiple is not above `x` when it is not above what `x` is rounded down to. -/
theorem le_roundDn_iff {n d m : Nat} (hm : d ∣ m) : m ≤ n / d * d ↔ m ≤ n := by
  refine ⟨fun h => h.trans (Nat.div_mul_le_self n d), fun h => ?_⟩
  obtain ⟨q, rfl⟩ := hm
  by_cases hd : d = 0
  · rw [hd, Nat.zero_mul]
    exact Nat.zero_le _
  · rw [Nat.mul_comm d q]
    exact Nat.mul_le_mul_right d ((Nat.le_div_iff_mul_le (Nat.pos_of_ne_zero hd)).2 (by rw [Nat.mul_comm]; exact h))

end AlignAux

open AlignAux

/-- For an alignment `a` that is a power of two: the tests are those of divisibility and remainder; a multiple of `a` is at most
what a word is rounded down to exactly when it is at most the word; and rounded up it is, but for the width, a multiple that is at
most another one exactly when the word is. -/
theorem align_rounds (T : IntWidth) (x a : T.Word) (ha : ∃ k, a.toNat = 2 ^ k) :
    (fdTIsAligned T x a = true ↔ a.toNat ∣ x.toNat) ∧ (fdTAlignment T x a).toNat = x.toNat % a.toNat ∧
      (a.toNat ∣ (fdTAlignDn T x a).toNat ∧ ∀ m, a.toNat ∣ m → (m ≤ (fdTAlignDn T x a).toNat ↔ m ≤ x.toNat)) ∧
      ∃ up, (fdTAlignUp T x a).toNat = up % 2 ^ T.bits ∧ a.toNat ∣ up ∧ up ≤ 2 ^ T.bits ∧
        ∀ m, a.toNat ∣ m → (up ≤ m ↔ x.toNat ≤ m) := by
  obtain ⟨k, hk⟩ := ha
  have hpos := Nat.two_pow_pos k
  have hdn : (fdTAlignDn T x a).toNat = x.toNat / a.toNat * a.toNat := by
    rw [alignDn_eq, toNat_and_not_mask hk, hk]
  have hup : (fdTAlignUp T x a).toNat = alignUp x.toNat a.toNat % 2 ^ T.bits := by
    rw [alignUp_eq, toNat_wordAlignUp x hk, hk]
  refine ⟨isAligned_iff hk, alignment_toNat hk, ⟨?_, fun m hm => ?_⟩, alignUp x.toNat a.toNat, hup, dvd_alignUp _ _, ?_,
    fun m hm => ?_⟩
  · rw [hdn]
    exact Nat.dvd_mul_left _ _
  · rw [hdn]
    exact le_roundDn_iff hm
  · rw [hk]
    exact alignUp_word_le x hk
  · rw [hk] at hm ⊢
    exact ⟨fun h => (le_alignUp hpos).trans h, fun h => alignUp_le hpos hm h⟩

/-- The 16 above 250 is the end of the range of a `uchar`. -/
theorem align_rounds_uchar : ∃ up, (fdTAlignUp .w8 250#8 16#8).toNat = up % 2 ^ 8 ∧ (up ≤ 256 ↔ 250 ≤ 256) := by
  obtain ⟨_, _, _, up, hup, _, _, hleast⟩ := align_rounds .w8 250#8 16#8 ⟨4, rfl⟩
  exact ⟨up, hup, hleast 256 ⟨16, rfl⟩⟩

end VerifyFiredancer
