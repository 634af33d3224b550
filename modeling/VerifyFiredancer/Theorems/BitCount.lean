import VerifyFiredancer.Lemmas.BitsImpl
import VerifyFiredancer.Lib.LowBit

/-!
# The bits of a word, one after the other

To take the lowest bit of a word and go on without it gives the bits of the word from the lowest one up, as many of them as
`fd_##T##_popcnt` counts, at every width (`pop_lsb_enumerates`).
-/

namespace VerifyFiredancer

open IntWidth BitsImplAux LowBit

variable {T : IntWidth}

namespace BitCountAux

theorem popLsb_eq (x : T.Word) : fdTPopLsb T x = x &&& (x - 1) := by
  simp [fdTPopLsb]

/-- A word without its lowest bit. -/
theorem popLsb_toNat (x : T.Word) : (fdTPopLsb T x).toNat = pop x.toNat := by
  rw [popLsb_eq, BitVec.toNat_and, pop]
  by_cases hx : x = 0
  · rw [hx]
    simp
  · have hpos : 0 < x.toNat := Nat.pos_of_ne_zero fun h => hx (BitVec.eq_of_toNat_eq h)
    have hone : (1 : T.Word).toNat = 1 := BitVec.toNat_one T.bits_pos
    rw [BitVec.toNat_sub_of_le (by rw [BitVec.le_def, hone]; exact hpos), hone]

theorem lsb_toNat (x : T.Word) : (fdTLsb T x).toNat = x.toNat ^^^ pop x.toNat := by
  have hlsb : fdTLsb T x = x ^^^ fdTPopLsb T x := by
    simp [fdTLsb, fdTPopLsb]
  rw [hlsb, BitVec.toNat_xor, popLsb_toNat]

theorem iterate_toNat (x : T.Word) (i : Nat) : ((fdTPopLsb T)^[i] x).toNat = pop^[i] x.toNat := by
  induction i with
  | zero => rfl
  | succ i ih => rw [Function.iterate_succ_apply', Function.iterate_succ_apply', popLsb_toNat, ih]

/-! ## The count -/

/-- The builtin counts the bits. -/
theorem builtinPopcount_eq {w : Nat} (x : BitVec w) : builtinPopcount x = x.toNat.bitIndices.length :=
  countP_testBit x.isLt

/-- The bits of a word that is converted to a wider type. -/
theorem builtinPopcount_setWidth {v w : Nat} (h : v ≤ w) (x : BitVec v) :
    builtinPopcount (x.setWidth w) = x.toNat.bitIndices.length := by
  rw [builtinPopcount_eq, BitVec.toNat_setWidth_of_le h]

/-- The bits of two halves. -/
theorem uint128Popcnt_eq (x : Uint128) : fdUint128Popcnt x = x.toNat.bitIndices.length := by
  have hhigh : x.toNat / 2 ^ 64 < 2 ^ 64 := Nat.div_lt_of_lt_mul x.isLt
  rw [fdUint128Popcnt, builtinPopcount_eq, builtinPopcount_eq, BitVec.toNat_setWidth, BitVec.toNat_setWidth,
    BitVec.toNat_ushiftRight, Nat.shiftRight_eq_div_pow, Nat.mod_eq_of_lt hhigh]
  exact bitIndices_split x.toNat 64

theorem popcnt_eq (x : T.Word) : fdTPopcnt T x = x.toNat.bitIndices.length := by
  cases T with
  | w8 => exact builtinPopcount_setWidth (by decide) (v := 8) x
  | w16 => exact builtinPopcount_setWidth (by decide) (v := 16) x
  | w32 => exact builtinPopcount_eq x
  | w64 => exact builtinPopcount_eq x
  | w128 => exact uint128Popcnt_eq x

/-! ## Powers of two -/

/-- What a promoted word masks has no bit above the word. -/
theorem promote_cast_and (x : T.Word) (a : T.Operand) : T.promote (T.cast (T.promote x &&& a)) = T.promote x &&& a := by
  have hlt : (T.promote x &&& a).toNat < 2 ^ T.bits := by
    rw [BitVec.toNat_and, promote_toNat]
    exact Nat.lt_of_le_of_lt Nat.and_le_left x.isLt
  apply BitVec.eq_of_toNat_eq
  rw [promote_toNat, cast_toNat, Nat.mod_eq_of_lt hlt]

/-- The test for a power of two is for a word that is zero without its lowest bit. -/
theorem isPow2_eq (x : T.Word) : fdTIsPow2 T x = true ↔ x ≠ 0 ∧ fdTPopLsb T x = 0 := by
  rw [fdTIsPow2, Bool.and_eq_true, bne_iff_ne, beq_iff_eq, ← promote_cast_and]
  refine and_congr_right fun _ => ⟨fun h => ?_, fun h => ?_⟩
  · have hcast := congrArg T.cast h
    rw [cast_promote] at hcast
    exact hcast.trans cast_zero
  · rw [show T.cast (T.promote x &&& (T.promote x - T.promote 1)) = 0 from h]
    exact promote_zero

theorem toNat_eq_zero (x : T.Word) : x.toNat = 0 ↔ x = 0 :=
  ⟨fun h => BitVec.eq_of_toNat_eq (by rw [h]; rfl), fun h => by rw [h]; rfl⟩

/-- A power of two has one bit. -/
theorem isPow2_iff (x : T.Word) : fdTIsPow2 T x = true ↔ fdTPopcnt T x = 1 := by
  rw [isPow2_eq, popcnt_eq, ← toNat_eq_zero (fdTPopLsb T x), popLsb_toNat, ne_eq, ← toNat_eq_zero x, ← bitIndices_eq_nil,
    ← bitIndices_eq_nil, bitIndices_pop_tail]
  cases x.toNat.bitIndices with
  | nil => simp
  | cons i l => simp

theorem pow2_toNat (n : Nat) : (fdTPow2 T n).toNat = if n < T.bits then 2 ^ n else 0 := by
  have hpow : fdTPow2 T n = (if n < T.bits then 1 else 0 : T.Word) <<< (n % T.bits) := by
    simp [fdTPow2, and_bits_sub_one]
  rw [hpow]
  split
  · next h =>
    rw [Nat.mod_eq_of_lt h]
    exact PowerMask.toNat_one_shiftLeft h
  · simp

/-- One bit is a power of two. -/
theorem popcnt_eq_one_iff (x : T.Word) : fdTPopcnt T x = 1 ↔ ∃ n < T.bits, x = fdTPow2 T n := by
  rw [popcnt_eq, List.length_eq_one_iff]
  constructor
  · rintro ⟨n, hn⟩
    have hx := Nat.sum_map_two_pow_bitIndices x.toNat
    rw [hn, List.map_singleton, List.sum_singleton] at hx
    have hlt : n < T.bits := by
      have hle := x.isLt
      rw [← hx] at hle
      exact (Nat.pow_lt_pow_iff_right (by decide)).1 hle
    refine ⟨n, hlt, BitVec.eq_of_toNat_eq ?_⟩
    rw [pow2_toNat, if_pos hlt, hx]
  · rintro ⟨n, hlt, rfl⟩
    exact ⟨n, by rw [pow2_toNat, if_pos hlt, Nat.bitIndices_two_pow]⟩

end BitCountAux

open BitCountAux

/-- `fd_##T##_lsb` of what is left after `fd_##T##_pop_lsb` again and again gives the bits of a word from the lowest one up, each
once. Nothing is left after as many times as `fd_##T##_popcnt` says and not before, and the words of which that is one are those of
`fd_##T##_is_pow2` and of `fd_##T##_pow2`. -/
theorem pop_lsb_enumerates (T : IntWidth) (x : T.Word) :
    (List.range (fdTPopcnt T x)).map (fun i => (fdTLsb T ((fdTPopLsb T)^[i] x)).toNat) = x.toNat.bitIndices.map (2 ^ ·) ∧
      (∀ i, (fdTPopLsb T)^[i] x = 0 ↔ fdTPopcnt T x ≤ i) ∧ (fdTIsPow2 T x = true ↔ fdTPopcnt T x = 1) ∧
      (fdTIsPow2 T x = true ↔ ∃ n < T.bits, x = fdTPow2 T n) := by
  refine ⟨?_, fun i => ?_, isPow2_iff x, (isPow2_iff x).trans (popcnt_eq_one_iff x)⟩
  · rw [popcnt_eq]
    refine List.ext_getElem (by simp) fun i hi _ => ?_
    rw [List.length_map, List.length_range] at hi
    rw [List.getElem_map, List.getElem_range, List.getElem_map, lsb_toNat, iterate_toNat, lowest_iterate hi]
  · rw [← toNat_eq_zero, iterate_toNat, ← bitIndices_eq_nil, bitIndices_iterate, List.drop_eq_nil_iff, popcnt_eq]

end VerifyFiredancer
