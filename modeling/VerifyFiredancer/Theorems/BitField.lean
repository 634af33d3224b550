import VerifyFiredancer.Lemmas.BitsImpl

/-!
# Bit fields at every width

The functions on bit fields share one mask, that of the bits below `n`, made so that no shift is by the full width. With it an
extraction and an insertion are a lens on the bits of the field, also where the field is the whole word or ends at its last bit.
-/

namespace VerifyFiredancer

/-- A value that a field of bits `l` to `h` can have. -/
def FieldFits {T : IntWidth} (l h : Nat) (y : T.Word) : Prop := y.toNat < 2 ^ (h - l + 1)

/-- The laws of the bits `l` to `h`.
1. What was inserted is extracted.
2. Inserting what was extracted changes nothing.
3. Of two insertions the second counts.
4. An insertion commutes with one into bits that are apart from these. -/
structure FieldLaws (T : IntWidth) (l h : Nat) : Prop where
  extract_insert : ∀ x y : T.Word, FieldFits l h y → fdTExtract T (fdTInsert T x l h y) l h = y
  insert_extract : ∀ x : T.Word, fdTInsert T x l h (fdTExtract T x l h) = x
  insert_insert : ∀ x y y' : T.Word, FieldFits l h y → FieldFits l h y' →
    fdTInsert T (fdTInsert T x l h y) l h y' = fdTInsert T x l h y'
  insert_comm : ∀ l' h', l' ≤ h' → h' < T.bits → h < l' ∨ h' < l → ∀ x y y' : T.Word, FieldFits l h y → FieldFits l' h' y' →
    fdTInsert T (fdTInsert T x l h y) l' h' y' = fdTInsert T (fdTInsert T x l' h' y') l h y

/-- What the functions on the low bits do to each bit, where a value to insert has `n` bits. -/
structure LsbBits (T : IntWidth) (n : Nat) : Prop where
  clear : ∀ (x : T.Word) i, (fdTClearLsb T x n).getLsbD i = if i < n then false else x.getLsbD i
  set : ∀ (x : T.Word) i, (fdTSetLsb T x n).getLsbD i = if i < n then true else x.getLsbD i
  flip : ∀ (x : T.Word) i, (fdTFlipLsb T x n).getLsbD i = if i < n then !x.getLsbD i else x.getLsbD i
  extract : ∀ (x : T.Word) i, (fdTExtractLsb T x n).getLsbD i = if i < n then x.getLsbD i else false
  insert : ∀ x y : T.Word, y.toNat < 2 ^ n → ∀ i,
    (fdTInsertLsb T x n y).getLsbD i = if i < n then y.getLsbD i else x.getLsbD i

namespace BitsImplAux

open IntWidth

variable {T : IntWidth}

/-- Words with the same bits are the same. -/
theorem eq_of_bits {x y : T.Word} (h : x.getLsbD = y.getLsbD) : x = y :=
  BitVec.eq_of_getLsbD_eq fun i _ => congrFun h i

/-- A word without the bits of the mask. -/
theorem getLsbD_and_not_maskLsb {n : Nat} (hn : n ≤ T.bits) (x : T.Word) (i : Nat) :
    (x &&& ~~~fdTMaskLsb T n).getLsbD i = if i < n then false else x.getLsbD i := by
  rw [BitVec.getLsbD_and, BitVec.getLsbD_not, getLsbD_maskLsb hn]
  split_ifs with hi
  · simp [hi]
  · by_cases hlt : i < T.bits
    · simp [hi, hlt]
    · simp [BitVec.getLsbD_of_ge x i (Nat.le_of_not_lt hlt)]

/-- An extraction has a value that the field can have. -/
theorem fieldFits_extract {l h : Nat} (hlh : l ≤ h) (hh : h < T.bits) (x : T.Word) : FieldFits l h (fdTExtract T x l h) := by
  apply Nat.lt_pow_two_of_testBit
  intro i hi
  have hbit := congrFun (getLsbD_extract hlh hh x) i
  rw [BitField.get, if_neg (Nat.not_lt.2 hi)] at hbit
  exact hbit

theorem fieldLaws {l h : Nat} (hlh : l ≤ h) (hh : h < T.bits) : FieldLaws T l h where
  extract_insert := by
    intro x y hy
    apply eq_of_bits
    rw [getLsbD_extract hlh hh, getLsbD_insert hlh hh x hy]
    exact BitField.get_put fun i hi => getLsbD_of_lt hy hi
  insert_extract := by
    intro x
    apply eq_of_bits
    rw [getLsbD_insert hlh hh x (fieldFits_extract hlh hh x), getLsbD_extract hlh hh]
    exact BitField.put_get
  insert_insert := by
    intro x y y' hy hy'
    apply eq_of_bits
    rw [getLsbD_insert hlh hh _ hy', getLsbD_insert hlh hh x hy, getLsbD_insert hlh hh x hy']
    exact BitField.put_put
  insert_comm := by
    intro l' h' hlh' hh' hapart x y y' hy hy'
    apply eq_of_bits
    rw [getLsbD_insert hlh' hh' _ hy', getLsbD_insert hlh hh x hy, getLsbD_insert hlh hh _ hy, getLsbD_insert hlh' hh' x hy']
    exact BitField.put_comm (by omega)

theorem lsbBits {n : Nat} (hn : n ≤ T.bits) : LsbBits T n where
  clear := by
    intro x i
    rw [fdTClearLsb, cast_and, cast_not, cast_promote, cast_promote]
    exact getLsbD_and_not_maskLsb hn x i
  set := by
    intro x i
    rw [fdTSetLsb, cast_or, cast_promote, cast_promote, BitVec.getLsbD_or, getLsbD_maskLsb hn]
    split_ifs with hi <;> simp [hi]
  flip := by
    intro x i
    rw [fdTFlipLsb, cast_xor, cast_promote, cast_promote, BitVec.getLsbD_xor, getLsbD_maskLsb hn]
    split_ifs with hi <;> simp [hi]
  extract := by
    intro x i
    rw [fdTExtractLsb, cast_and, cast_promote, cast_promote, BitVec.getLsbD_and, getLsbD_maskLsb hn]
    split_ifs with hi <;> simp [hi]
  insert := by
    intro x y hy i
    rw [fdTInsertLsb, fdTClearLsb, cast_or, cast_promote, cast_promote, cast_and, cast_not, cast_promote, cast_promote,
      BitVec.getLsbD_or, getLsbD_and_not_maskLsb hn]
    split_ifs with hi
    · exact Bool.false_or _
    · rw [getLsbD_of_lt hy (Nat.le_of_not_lt hi), Bool.or_false]

end BitsImplAux

open BitsImplAux in
/-- At every width, the laws of every field, and what the functions on the low bits do for every number of them, up to the
width. -/
theorem bit_fields (T : IntWidth) : (∀ l h, l ≤ h → h < T.bits → FieldLaws T l h) ∧ ∀ n, n ≤ T.bits → LsbBits T n :=
  ⟨fun _ _ hlh hh => fieldLaws hlh hh, fun _ hn => lsbBits hn⟩

end VerifyFiredancer
