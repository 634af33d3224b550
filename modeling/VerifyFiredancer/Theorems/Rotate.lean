import VerifyFiredancer.Lemmas.BitsImpl
import Mathlib.Tactic.Ring
import Mathlib.Algebra.Order.Ring.Int

/-!
# Rotations at every width

`fd_##T##_rotate_left` and `fd_##T##_rotate_right` take any `int` whose negation is one, negative ones and those past the width too.
They move every bit by that many places around the word, so that one rotation after another is one by the sum (`rotate_moves`).
-/

namespace VerifyFiredancer

open IntWidth

variable {T : IntWidth}

/-- A place counted around a word. -/
def IntWidth.place (T : IntWidth) (z : Int) : Nat := (z % T.bits).toNat

namespace RotateAux

theorem cast_place (z : Int) : (T.place z : Int) = z % T.bits :=
  Int.toNat_of_nonneg (Int.emod_nonneg z (Int.natCast_pos.2 T.bits_pos).ne')

theorem place_lt (z : Int) : T.place z < T.bits := by
  have hlt := Int.emod_lt_of_pos z (Int.natCast_pos.2 T.bits_pos)
  rw [← cast_place] at hlt
  exact Int.ofNat_lt.1 hlt

/-- Places that differ by turns are one. -/
theorem place_congr {y z : Int} (h : (T.bits : Int) ∣ y - z) : T.place y = T.place z := by
  rw [IntWidth.place, IntWidth.place, Int.emod_eq_emod_iff_emod_sub_eq_zero.2 (Int.emod_eq_zero_of_dvd h)]

/-- A place in the word is itself. -/
theorem place_eq {i : Nat} {z : Int} (hi : i < T.bits) (h : (T.bits : Int) ∣ z - i) : T.place z = i := by
  rw [place_congr h, IntWidth.place, Int.emod_eq_of_lt (Int.natCast_nonneg i) (Int.ofNat_lt.2 hi), Int.toNat_natCast]

theorem dvd_sub_place (z : Int) : (T.bits : Int) ∣ z - T.place z := by
  rw [cast_place]
  exact Int.dvd_self_sub_emod

/-- The mask gives the place of a negative number, too. -/
theorem andBits_eq (n : Sint) : andBits T n = T.place n.toInt := by
  have hpow : ∃ k ≤ 7, T.bits = 2 ^ k := by
    cases T with
    | w8 => exact ⟨3, by decide, rfl⟩
    | w16 => exact ⟨4, by decide, rfl⟩
    | w32 => exact ⟨5, by decide, rfl⟩
    | w64 => exact ⟨6, by decide, rfl⟩
    | w128 => exact ⟨7, by decide, rfl⟩
  obtain ⟨k, hk, hw⟩ := hpow
  have hmask : andBits T n = n.toNat % T.bits := by
    have hle : 2 ^ k ≤ 2 ^ 7 := Nat.pow_le_pow_right (by decide) hk
    rw [andBits, BitVec.toNat_and, BitVec.toNat_ofNat, hw, Nat.mod_eq_of_lt (by omega), Nat.and_two_pow_sub_one_eq_mod]
  have hlt : andBits T n < T.bits := by
    rw [hmask]
    exact Nat.mod_lt _ T.bits_pos
  have hturns : (T.bits : Int) ∣ (2 : Int) ^ 32 := by
    rw [hw, Nat.cast_pow]
    exact pow_dvd_pow (2 : Int) (by omega)
  refine (place_eq hlt ?_).symm
  have hnat : (T.bits : Int) ∣ (n.toNat : Int) - andBits T n := by
    rw [hmask, Int.natCast_mod]
    exact Int.dvd_self_sub_emod
  rw [BitVec.toInt_eq_toNat_cond]
  split
  · exact hnat
  · have hsub := Int.dvd_sub hnat hturns
    push_cast at hsub ⊢
    convert hsub using 1
    ring

/-- The mask of the negation. -/
theorem andBits_neg {n : Sint} (hn : n ≠ BitVec.intMin 32) : andBits T (-n) = T.place (-n.toInt) := by
  rw [andBits_eq, BitVec.toInt_neg_of_ne_intMin hn]

theorem rotateLeft_eq (x : T.Word) (n : Sint) : fdTRotateLeft T x n = x <<< andBits T n ||| x >>> andBits T (-n) := by
  simp [fdTRotateLeft]

/-- A bit of a word that is rotated. -/
theorem getLsbD_rotateLeft {n : Sint} (hn : n ≠ BitVec.intMin 32) (x : T.Word) {i : Nat} (hi : i < T.bits) :
    (fdTRotateLeft T x n).getLsbD i = x.getLsbD (T.place (i - n.toInt)) := by
  have hlt := place_lt (T := T) n.toInt
  have hturn := dvd_sub_place (T := T) n.toInt
  rw [rotateLeft_eq, BitVec.getLsbD_or, BitVec.getLsbD_shiftLeft, BitVec.getLsbD_ushiftRight, andBits_eq, andBits_neg hn]
  generalize hp : T.place n.toInt = p at *
  rcases Nat.eq_zero_or_pos p with rfl | hpos
  · -- nothing is moved, and both shifts give the bit
    have hneg : T.place (-n.toInt) = 0 := place_eq T.bits_pos (by simpa using hturn)
    have hplace : T.place (i - n.toInt) = i := place_eq hi (by simpa using hturn)
    rw [hneg, hplace]
    simp [hi]
  · have hneg : T.place (-n.toInt) = T.bits - p := by
      refine place_eq (by omega) ?_
      rw [Int.natCast_sub (by omega)]
      have hsub := Int.dvd_neg.2 (Int.dvd_add hturn (Int.dvd_refl (T.bits : Int)))
      convert hsub using 1
      ring
    rw [hneg]
    by_cases hip : i < p
    · -- from above the word
      have hplace : T.place (i - n.toInt) = T.bits - p + i := by
        refine place_eq (by omega) ?_
        rw [Int.natCast_add, Int.natCast_sub (by omega)]
        have hsub := Int.dvd_neg.2 (Int.dvd_add hturn (Int.dvd_refl (T.bits : Int)))
        convert hsub using 1
        ring
      rw [hplace]
      simp [hip]
    · have hplace : T.place (i - n.toInt) = i - p := by
        refine place_eq (by omega) ?_
        rw [Int.natCast_sub (by omega)]
        have hsub := Int.dvd_neg.2 hturn
        convert hsub using 1
        ring
      have hout : x.getLsbD (T.bits - p + i) = false := BitVec.getLsbD_of_ge _ _ (by omega)
      rw [hplace, hout]
      simp [hi, hip]

/-- To the right is to the left by the negation. -/
theorem rotateRight_eq (x : T.Word) (n : Sint) : fdTRotateRight T x n = fdTRotateLeft T x (-n) := by
  rw [fdTRotateRight, fdTRotateLeft, BitVec.neg_neg, BitVec.or_comm]

theorem neg_ne_intMin {n : Sint} (hn : n ≠ BitVec.intMin 32) : -n ≠ BitVec.intMin 32 := by
  intro h
  apply hn
  rw [← BitVec.neg_neg (x := n), h]
  rfl

/-- A rotation after another. -/
theorem rotateLeft_rotateLeft {m n k : Sint} (hm : m ≠ BitVec.intMin 32) (hn : n ≠ BitVec.intMin 32) (hk : k ≠ BitVec.intMin 32)
    (h : (T.bits : Int) ∣ k.toInt - (m.toInt + n.toInt)) (x : T.Word) :
    fdTRotateLeft T (fdTRotateLeft T x m) n = fdTRotateLeft T x k := by
  apply BitVec.eq_of_getLsbD_eq
  intro i hi
  rw [getLsbD_rotateLeft hn _ hi, getLsbD_rotateLeft hm _ (place_lt _), getLsbD_rotateLeft hk _ hi]
  refine congrArg x.getLsbD (place_congr ?_)
  have hsub := Int.dvd_sub h (dvd_sub_place (T := T) (i - n.toInt))
  convert hsub using 1
  ring

/-- A rotation by turns is none. -/
theorem rotateLeft_turns {k : Sint} (hk : k ≠ BitVec.intMin 32) (h : (T.bits : Int) ∣ k.toInt) (x : T.Word) :
    fdTRotateLeft T x k = x := by
  apply BitVec.eq_of_getLsbD_eq
  intro i hi
  rw [getLsbD_rotateLeft hk _ hi, place_eq hi]
  have hneg := Int.dvd_neg.2 h
  convert hneg using 1
  ring

end RotateAux

open RotateAux

/-- Every bit of a word is moved by as many places around it, and one rotation after another is one by a sum: two that differ by
turns of the word do the same, and one to the right undoes one to the left. -/
theorem rotate_moves (T : IntWidth) (x : T.Word) (n : Sint) (hn : n ≠ BitVec.intMin 32) :
    (∀ i < T.bits, (fdTRotateLeft T x n).getLsbD i = x.getLsbD (T.place (i - n.toInt))) ∧
      (∀ i < T.bits, (fdTRotateRight T x n).getLsbD i = x.getLsbD (T.place (i + n.toInt))) ∧
      (∀ m k : Sint, m ≠ BitVec.intMin 32 → k ≠ BitVec.intMin 32 → (T.bits : Int) ∣ k.toInt - (m.toInt + n.toInt) →
        fdTRotateLeft T (fdTRotateLeft T x m) n = fdTRotateLeft T x k) ∧
      fdTRotateRight T (fdTRotateLeft T x n) n = x := by
  refine ⟨fun i hi => getLsbD_rotateLeft hn x hi, fun i hi => ?_, fun m k hm hk h => rotateLeft_rotateLeft hm hn hk h x, ?_⟩
  · rw [rotateRight_eq, getLsbD_rotateLeft (neg_ne_intMin hn) x hi, BitVec.toInt_neg_of_ne_intMin hn, Int.sub_neg]
  · have hzero : (T.bits : Int) ∣ (0 : Sint).toInt - (n.toInt + (-n).toInt) := by
      rw [BitVec.toInt_neg_of_ne_intMin hn]
      simp
    rw [rotateRight_eq, rotateLeft_rotateLeft hn (neg_ne_intMin hn) (by decide) hzero]
    exact rotateLeft_turns (by decide) (Int.dvd_zero _) x

/-- A `uchar` by -3, and by 5 back. -/
theorem rotate_moves_uchar :
    fdTRotateLeft .w8 (fdTRotateLeft .w8 0x81#8 (-5)) (-3) = fdTRotateLeft .w8 0x81#8 8 ∧
      (fdTRotateLeft .w8 0x81#8 (-3)).getLsbD 4 = true := by
  obtain ⟨_, _, hadd, _⟩ := rotate_moves .w8 0x81#8 (-3) (by decide)
  exact ⟨hadd (-5) 8 (by decide) (by decide) (by decide), by decide⟩

end VerifyFiredancer
