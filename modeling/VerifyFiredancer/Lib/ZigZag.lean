import Mathlib.Tactic.Ring

/-!
# The zig-zag code

Zig-zag maps the integers to the naturals, those near zero to small ones: 0, -1, 1, -2 and so on. `enc` and `dec` are inverse to
each other. On words of any width the usual formulas, by an arithmetic shift and an exclusive or, compute them
(`toNat_encWord`, `toInt_decWord`), so that they are inverse to each other too (`decWord_eq_iff`).
-/

namespace ZigZag

/-- The code of an integer. -/
def enc (x : Int) : Nat := if 0 ≤ x then 2 * x.toNat else 2 * (-x).toNat - 1

/-- The integer of a code. -/
def dec (u : Nat) : Int := if u % 2 = 0 then (u / 2 : Nat) else -(u / 2 : Nat) - 1

theorem dec_enc (x : Int) : dec (enc x) = x := by
  unfold enc dec
  split_ifs <;> omega

theorem enc_dec (u : Nat) : enc (dec u) = u := by
  unfold enc dec
  split_ifs <;> omega

/-- The code as an integer. -/
theorem enc_cast (x : Int) : (enc x : Int) = if 0 ≤ x then 2 * x else -2 * x - 1 := by
  unfold enc
  split_ifs <;> omega

/-- A number of less magnitude has a smaller code. -/
theorem enc_lt_enc {x y : Int} (h : x.natAbs < y.natAbs) : enc x < enc y := by
  unfold enc
  split_ifs <;> omega

/-- The code of a number of `k + 1` bits has so many. -/
theorem enc_lt {k : Nat} {x : Int} (h1 : -2 ^ k ≤ x) (h2 : x < 2 ^ k) : enc x < 2 ^ (k + 1) := by
  have hpow : (2 : Nat) ^ (k + 1) = 2 * 2 ^ k := pow_succ' 2 k
  have hcast : ((2 ^ k : Nat) : Int) = 2 ^ k := by norm_cast
  unfold enc
  split_ifs <;> omega

/-- Twice the integer of a code is the code, or its complement. -/
theorem two_mul_dec (u : Nat) : 2 * dec u = if u % 2 = 0 then (u : Int) else -u - 1 := by
  unfold dec
  split_ifs <;> omega

/-- Integers that agree in their `k` low bits have codes that agree in `k + 1`, or are complements there. -/
theorem dec_congr {k u z : Nat} (h : (2 : Int) ^ k ∣ dec u - dec z) :
    (2 : Int) ^ (k + 1) ∣ (u : Int) - z ∨ 2 ^ (k + 1) ∣ u + (z + 1) := by
  have hmul : (2 : Int) ^ (k + 1) ∣ 2 * dec u - 2 * dec z := by
    rw [pow_succ', ← Int.mul_sub]
    exact Int.mul_dvd_mul_left 2 h
  have hcompl : (2 : Int) ^ (k + 1) ∣ (u : Int) + (z + 1) → 2 ^ (k + 1) ∣ u + (z + 1) := fun h => by exact_mod_cast h
  rw [two_mul_dec, two_mul_dec] at hmul
  split_ifs at hmul with hu hz hz
  · exact Or.inl hmul
  · have e : (u : Int) - (-z - 1) = u + (z + 1) := by ring
    rw [e] at hmul
    exact Or.inr (hcompl hmul)
  · have e : -(u : Int) - 1 - z = -(u + (z + 1)) := by ring
    rw [e, Int.dvd_neg] at hmul
    exact Or.inr (hcompl hmul)
  · have e : -(u : Int) - 1 - (-z - 1) = -(u - z) := by ring
    rw [e, Int.dvd_neg] at hmul
    exact Or.inl hmul

/-! ## Words -/

variable {k : Nat}

/-- The arithmetic shift by all but one bit leaves the sign, in every bit. -/
theorem sshiftRight_sign {w : Nat} (x : BitVec w) :
    x.sshiftRight (w - 1) = if x.msb then BitVec.allOnes w else 0#w := by
  ext i hi
  rw [BitVec.getElem_sshiftRight]
  have hsign : (if h : w - 1 + i < w then x[w - 1 + i] else x.msb) = x.msb := by
    split_ifs with h
    · have h0 : i = 0 := by omega
      subst h0
      rw [BitVec.msb_eq_getLsbD_last]
      exact (BitVec.getLsbD_eq_getElem h).symm
    · rfl
  rw [hsign]
  cases hm : x.msb with
  | true => rw [if_pos rfl, BitVec.getElem_allOnes]
  | false => rw [if_neg Bool.false_ne_true, BitVec.getElem_zero]

/-- The sign of a word, and the number it is then. -/
theorem msb_iff (x : BitVec (k + 1)) : x.msb = true ↔ 2 ^ k ≤ x.toNat := by
  rw [BitVec.msb_eq_decide, decide_eq_true_iff, Nat.add_sub_cancel]

theorem toInt_eq (x : BitVec (k + 1)) : x.toInt = if 2 ^ k ≤ x.toNat then (x.toNat : Int) - 2 * (2 ^ k : Nat) else x.toNat := by
  have hpow : (2 : Nat) ^ (k + 1) = 2 * 2 ^ k := pow_succ' 2 k
  rw [BitVec.toInt_eq_msb_cond, hpow, Nat.cast_mul]
  exact if_congr (msb_iff x) rfl rfl

/-- The encoder on words. -/
theorem toNat_encWord (x : BitVec (k + 1)) : (x.sshiftRight k ^^^ x <<< 1).toNat = enc x.toInt := by
  have hx := x.isLt
  have hpow : (2 : Nat) ^ (k + 1) = 2 * 2 ^ k := pow_succ' 2 k
  have hshl : (x <<< 1).toNat = 2 * x.toNat % (2 * 2 ^ k) := by
    rw [BitVec.toNat_shiftLeft, Nat.shiftLeft_eq, pow_one, Nat.mul_comm, hpow]
  have hsign := msb_iff x
  have hshift : x.sshiftRight k = if x.msb then BitVec.allOnes (k + 1) else 0#(k + 1) := sshiftRight_sign x
  rw [hpow] at hx
  rw [hshift, toInt_eq, enc]
  by_cases hm : 2 ^ k ≤ x.toNat
  · -- the shifted word without its carry, complemented
    have hmod : 2 * x.toNat % (2 * 2 ^ k) = 2 * x.toNat - 2 * 2 ^ k := by
      rw [Nat.mod_eq_sub_mod (by omega), Nat.mod_eq_of_lt (by omega)]
    rw [if_pos (hsign.2 hm), BitVec.allOnes_xor, BitVec.toNat_not, hshl, hmod, if_pos hm, if_neg (by omega), hpow]
    omega
  · have hmod : 2 * x.toNat % (2 * 2 ^ k) = 2 * x.toNat := Nat.mod_eq_of_lt (by omega)
    rw [if_neg (mt hsign.1 hm), BitVec.zero_xor, hshl, hmod, if_neg hm, if_pos (by omega)]
    omega

/-- The decoder on words. -/
theorem toInt_decWord (u : BitVec (k + 1)) : (u >>> 1 ^^^ -(u &&& 1)).toInt = dec u.toNat := by
  have hu := u.isLt
  have hpow : (2 : Nat) ^ (k + 1) = 2 * 2 ^ k := pow_succ' 2 k
  have hshr : (u >>> 1).toNat = u.toNat / 2 := by rw [BitVec.toNat_ushiftRight, Nat.shiftRight_eq_div_pow, pow_one]
  have hone : (1 : BitVec (k + 1)).toNat = 1 := Nat.mod_eq_of_lt (Nat.one_lt_two_pow (Nat.succ_ne_zero k))
  have hbit : (u &&& 1).toNat = u.toNat % 2 := by rw [BitVec.toNat_and, hone, Nat.and_one_is_mod]
  rw [hpow] at hu
  rw [toInt_eq, dec]
  rcases Nat.mod_two_eq_zero_or_one u.toNat with heven | hodd
  · have hzero : u &&& 1 = 0#(k + 1) := BitVec.eq_of_toNat_eq (by rw [hbit, heven, BitVec.toNat_ofNat, Nat.zero_mod])
    rw [hzero, BitVec.neg_zero, BitVec.xor_zero, hshr, if_neg (by omega), if_pos heven]
  · have hall : -(u &&& 1) = BitVec.allOnes (k + 1) := by
      have h1 : u &&& 1 = 1#(k + 1) := BitVec.eq_of_toNat_eq (by rw [hbit, hodd]; exact hone.symm)
      rw [h1, BitVec.neg_one_eq_allOnes]
    rw [hall, BitVec.xor_allOnes, BitVec.toNat_not, hshr, hpow, if_pos (by omega), if_neg (by omega)]
    omega

/-- The formulas are inverse to each other. -/
theorem decWord_eq_iff (u x : BitVec (k + 1)) : u >>> 1 ^^^ -(u &&& 1) = x ↔ u = x.sshiftRight k ^^^ x <<< 1 := by
  rw [← BitVec.toInt_inj, toInt_decWord, ← BitVec.toNat_inj, toNat_encWord]
  constructor
  · intro h
    rw [← h, enc_dec]
  · intro h
    rw [h, dec_enc]

end ZigZag
