import VerifyFiredancer.Tcache
import VerifyFiredancer.Lib.PowerMask
import Mathlib.Data.Nat.Log

/-!
# The default map size

The default size of a map is the power of two that is four times the one `depth + 1` is rounded down to: more than twice
`depth + 1`, and so at least `depth + 2`.
-/

namespace VerifyFiredancer

/-- The exact size: `4*2^floor(log2(depth+1))`. -/
def mapCntExact (depth : Ulong) : Nat := 4 * 2 ^ Nat.log 2 (depth.toNat + 1)

namespace TcacheAux

/-- The exact size is a power of two. -/
theorem mapCntExact_eq (depth : Ulong) : mapCntExact depth = 2 ^ (Nat.log 2 (depth.toNat + 1) + 2) := by
  rw [mapCntExact, Nat.pow_add, Nat.mul_comm]

/-- The bounds of the exact size, at both sides of a power of two. -/
theorem mapCntExact_bounds (depth : Ulong) :
    2 * (depth.toNat + 1) < mapCntExact depth ∧ mapCntExact depth ≤ 4 * (depth.toNat + 1) := by
  have hle : 2 ^ Nat.log 2 (depth.toNat + 1) ≤ depth.toNat + 1 := Nat.pow_log_le_self 2 (Nat.succ_ne_zero depth.toNat)
  have hlt := Nat.lt_pow_succ_log_self (b := 2) (by decide) (depth.toNat + 1)
  rw [Nat.pow_succ] at hlt
  rw [mapCntExact]
  omega

/-- The function gives the exact size where that is a `ulong`, and 0 where it is not. -/
theorem mapCntDefault_eq {fdUlongFindMsb : Ulong → Int} (hmsb : ∀ x : Ulong, x ≠ 0 → fdUlongFindMsb x = Nat.log 2 x.toNat)
    {depth : Ulong} (hzero : depth ≠ 0) :
    fdTcacheMapCntDefault fdUlongFindMsb depth =
      some (if mapCntExact depth < 2 ^ 64 then BitVec.ofNat 64 (mapCntExact depth) else 0) := by
  obtain ⟨hlow, _⟩ := mapCntExact_bounds depth
  have hmax : ulongMax.toNat = 2 ^ 64 - 1 := rfl
  unfold fdTcacheMapCntDefault
  rw [if_neg hzero]
  by_cases htop : depth = ulongMax
  · have hdepth : depth.toNat = 2 ^ 64 - 1 := by rw [htop, hmax]
    rw [if_pos htop, if_neg (by omega)]
    rfl
  · have hlt : depth.toNat < 2 ^ 64 - 1 := by
      refine Nat.lt_of_le_of_ne (Nat.le_sub_one_of_lt depth.isLt) fun h => htop (BitVec.eq_of_toNat_eq ?_)
      rw [h, hmax]
    have hinc : (depth + 1).toNat = depth.toNat + 1 :=
      BitVec.toNat_add_of_lt (y := 1) (show depth.toNat + 1 < 2 ^ 64 by omega)
    have hne : depth + 1 ≠ 0 := by
      intro h
      rw [h] at hinc
      exact absurd hinc (Nat.succ_ne_zero _).symm
    have hlog : Nat.log 2 (depth.toNat + 1) < 64 := Nat.log_lt_of_lt_pow (Nat.succ_ne_zero _) (by omega)
    have hexact := mapCntExact_eq depth
    rw [if_neg htop, incUlong, if_neg htop, Option.bind_eq_bind, Option.bind_some, hmsb _ hne, hinc]
    generalize Nat.log 2 (depth.toNat + 1) = k at hlog hexact
    have hadd : addInt k fdTcacheSparseDefault = some ((k + 2 : Nat) : Int) :=
      if_pos (by simp only [fdTcacheSparseDefault]; omega)
    rw [hadd, Option.bind_eq_bind, Option.bind_some]
    by_cases hbig : 63 < k + 2
    · have hge : 2 ^ 64 ≤ 2 ^ (k + 2) := Nat.pow_le_pow_right (by decide) hbig
      rw [if_pos (by exact_mod_cast hbig), if_neg (by rw [hexact]; exact Nat.not_lt.2 hge)]
      rfl
    · have hlt' : 2 ^ (k + 2) < 2 ^ 64 := Nat.pow_lt_pow_right (by decide) (by omega)
      have hcount : (0 : Int) ≤ (k + 2 : Nat) ∧ ((k + 2 : Nat) : Int) < 64 := by omega
      have hshl : 1#64 <<< (k + 2) = BitVec.ofNat 64 (2 ^ (k + 2)) := by
        apply BitVec.eq_of_toNat_eq
        rw [PowerMask.toNat_one_shiftLeft (by omega), BitVec.toNat_ofNat, Nat.mod_eq_of_lt hlt']
      rw [if_neg (by exact_mod_cast hbig), shlUlong, if_pos hcount, Int.toNat_natCast, if_pos (by rw [hexact]; exact hlt'),
        hexact, hshl]

end TcacheAux

open TcacheAux

/-- The default size of a map, where `fd_ulong_find_msb` is `floor(log2)`. It is found without an overflow; it is 0 when the depth
is, or when the exact size is not a `ulong`, and otherwise a power of two that is large enough and no larger than it need be. -/
theorem map_cnt_default (fdUlongFindMsb : Ulong → Int) (hmsb : ∀ x : Ulong, x ≠ 0 → fdUlongFindMsb x = Nat.log 2 x.toNat)
    (depth : Ulong) :
    ∃ m, fdTcacheMapCntDefault fdUlongFindMsb depth = some m ∧ (m = 0 ↔ depth = 0 ∨ 2 ^ 64 ≤ mapCntExact depth) ∧
      (m ≠ 0 → (∃ k, m.toNat = 2 ^ k) ∧ depth.toNat + 2 ≤ m.toNat ∧ 2 * (depth.toNat + 1) < m.toNat ∧
        m.toNat ≤ 4 * (depth.toNat + 1)) := by
  by_cases hzero : depth = 0
  · refine ⟨0, ?_, iff_of_true rfl (Or.inl hzero), fun h => absurd rfl h⟩
    rw [fdTcacheMapCntDefault, if_pos hzero]
    rfl
  · refine ⟨_, mapCntDefault_eq hmsb hzero, ?_⟩
    obtain ⟨hlow, hhigh⟩ := mapCntExact_bounds depth
    by_cases hfit : mapCntExact depth < 2 ^ 64
    · have htoNat : (BitVec.ofNat 64 (mapCntExact depth)).toNat = mapCntExact depth := by
        rw [BitVec.toNat_ofNat, Nat.mod_eq_of_lt hfit]
      have hne : BitVec.ofNat 64 (mapCntExact depth) ≠ 0 := by
        intro h
        rw [h] at htoNat
        have : (0 : Ulong).toNat = 0 := rfl
        omega
      rw [if_pos hfit, htoNat]
      refine ⟨iff_of_false hne ?_, fun _ => ⟨⟨_, mapCntExact_eq depth⟩, by omega, hlow, hhigh⟩⟩
      rintro (h | h)
      · exact hzero h
      · exact absurd hfit (Nat.not_lt.2 h)
    · rw [if_neg hfit]
      exact ⟨iff_of_true rfl (Or.inr (Nat.not_lt.1 hfit)), fun h => absurd rfl h⟩

/-- A depth of 1023, where the exact size is four times a power of two, 1024 itself. -/
theorem map_cnt_default_1023 :
    ∃ m, fdTcacheMapCntDefault (fun x => Nat.log 2 x.toNat) 1023 = some m ∧
      (m = 0 ↔ (1023 : Ulong) = 0 ∨ 2 ^ 64 ≤ mapCntExact 1023) ∧
      (m ≠ 0 → (∃ k, m.toNat = 2 ^ k) ∧ (1023 : Ulong).toNat + 2 ≤ m.toNat ∧ 2 * ((1023 : Ulong).toNat + 1) < m.toNat ∧
        m.toNat ≤ 4 * ((1023 : Ulong).toNat + 1)) :=
  map_cnt_default _ (fun _ _ => rfl) 1023

end VerifyFiredancer
