import VerifyFiredancer.Lib.ZigZag
import VerifyFiredancer.PodTyped
import VerifyFiredancer.Theorems.SvwStream

/-!
# Integers in a pod

An insert stores as many bytes as it allocated, the words of the encodings of its value. Whether the query reads the value back is
up to the forward decoder, which takes most values for ones of another width (`SvwAux.misread_of_word`). Where a misread word is
cast to a shorter type, the cast could make up for it; it does so for a `uint` of five bytes that is read at eight or nine, whose
32 payload bits come first at either width, and for nothing else (`SvwAux.Misread.cast16_ne` and the lemmas after it). The 128-bit
types need both of their words. So a value is read back exactly when the heads of its words agree, or it is such a `uint`
(`podTyped_roundTrips_iff`).
-/

namespace VerifyFiredancer

open ByteMem SvwWidth SvwAux SvwStreamAux

/-- The allocation in the pod succeeds, with room for `valSz` bytes, and the query of the path finds that room and the type,
whatever is written there. -/
structure PodSlot (fdPodAlloc : Mem → Nat → Nat → Int → Ulong → Mem × Ulong)
    (fdPodQuery : Mem → Nat → Nat → Int × FdPodInfo) (m : Mem) (pod path : Nat) (valType : Int) (valSz : Ulong) : Prop where
  off_ne : (fdPodAlloc m pod path valType valSz).2 ≠ 0
  found : ∀ m' : Mem, (∀ p, p < pod + (fdPodAlloc m pod path valType valSz).2.toNat ∨
      pod + (fdPodAlloc m pod path valType valSz).2.toNat + valSz.toNat ≤ p → m' p = (fdPodAlloc m pod path valType valSz).1 p) →
    (fdPodQuery m' pod path).1 = 0 ∧ (fdPodQuery m' pod path).2.valType = valType ∧
      (fdPodQuery m' pod path).2.val = pod + (fdPodAlloc m pod path valType valSz).2.toNat

/-- An insert of the value gives the offset it allocated and stores `val_sz` bytes there, from which the query reads the value. -/
structure PodRoundTrips (fdPodAlloc : Mem → Nat → Nat → Int → Ulong → Mem × Ulong)
    (fdPodQuery : Mem → Nat → Nat → Int × FdPodInfo) (m : Mem) (pod path : Nat) (v : PodVal) : Prop where
  writes : ∃ word, v.insert fdPodAlloc m pod path =
    (storeLE (fdPodAlloc m pod path v.valType v.valSz).1 (pod + (fdPodAlloc m pod path v.valType v.valSz).2.toNat)
      v.valSz.toNat word, (fdPodAlloc m pod path v.valType v.valSz).2)
  reads : v.IsQueried fdPodQuery (v.insert fdPodAlloc m pod path).1 pod path

/-- A `uint` of five bytes that its first byte takes for eight or nine. -/
def PodVal.IsWideUint : PodVal → Prop
  | uint val => 2 ^ 24 ≤ val.toNat ∧ 14 ≤ val.toNat % 16
  | _ => False

/-- The values whose type reads them back: the heads of their words agree, or their cast makes up for the width. -/
def PodVal.Survives (v : PodVal) : Prop := (∀ u ∈ v.words, svwHeadAgrees u) ∨ v.IsWideUint

instance : (v : PodVal) → Decidable v.IsWideUint
  | .uint _ => inferInstanceAs (Decidable (_ ∧ _))
  | .ushort _ | .ulong _ | .short _ | .int _ | .long _ | .uint128 _ | .int128 _ => instDecidableFalse

instance (v : PodVal) : Decidable v.Survives :=
  -- over the words of the list: the instance that is found by itself would run over all words
  haveI := List.decidableBAll svwHeadAgrees v.words
  inferInstanceAs (Decidable (_ ∨ _))

example : (PodVal.uint 0x100000e).Survives ∧ ¬(PodVal.ushort 64).Survives := by decide

/-! ## Casts of misread words -/

namespace SvwAux.Misread

/-- A misread `ushort` is not cast to itself. -/
theorem cast16_ne {x u : Nat} (h : Misread x u) (hx : x < 2 ^ 16) : u % 2 ^ 16 ≠ x := by
  cases h <;> omega

/-- A misread `uint` is, when it was read at a wider width than five bytes. -/
theorem cast32_eq_iff {x u : Nat} (h : Misread x u) (hx : x < 2 ^ 32) :
    u % 2 ^ 32 = x ↔ 2 ^ 24 ≤ x ∧ 14 ≤ x % 16 := by
  cases h <;> omega

/-- A sum that stays between two multiples is none. -/
theorem not_dvd_add {u y n c : Nat} (h : u % n = c) (hpos : 0 < c + y) (hlt : c + y < n) : ¬n ∣ u + y := by
  intro hdvd
  have hmod := Nat.mod_eq_zero_of_dvd hdvd
  rw [← Nat.mod_add_mod, h, Nat.mod_eq_of_lt hlt] at hmod
  omega

/-- A misread code of a `short` or an `int` is not the complement of the code: it has the same last bit, or is a shifted code
too far from a power of two. -/
theorem complement_not_dvd {z u : Nat} (h : Misread z u) {k : Nat} (hk : k = 16 ∨ k = 32) (hz : z < 2 ^ k) :
    ¬2 ^ (k + 1) ∣ u + (z + 1) := by
  have hpow : 2 ^ (k + 1) = 2 * 2 ^ k := pow_succ' 2 k
  have hdvd : ∀ j, j ≤ k + 1 → ¬2 ^ j ∣ u + (z + 1) → ¬2 ^ (k + 1) ∣ u + (z + 1) :=
    fun j hj hno h => hno (dvd_trans (Nat.pow_dvd_pow 2 hj) h)
  have hbit : u % 2 = z % 2 → ¬2 ^ (k + 1) ∣ u + (z + 1) := fun h => hdvd 1 (by omega) (by omega)
  cases h with
  | narrow h hn => exact fun hd => absurd (Nat.le_of_dvd (by omega) hd) (by omega)
  | w2 hlo hx h => exact hdvd 12 (by omega) (not_dvd_add h (by omega) (by omega))
  | w3 hlo hx h =>
    rcases hk with rfl | rfl
    · have h17 : u % 2 ^ 17 = z / 2 := by omega
      exact not_dvd_add h17 (by omega) (by omega)
    · exact hdvd 20 (by decide) (not_dvd_add h (by omega) (by omega))
  | w2w3 hlo hx h => exact hbit (by omega)
  | w4 hlo hx h => exact hbit (by omega)
  | w5 hlo hx hn h => exact hbit (by omega)
  | w8 hlo hx h => exact hbit (by omega)

/-- A misread `short` is not cast to itself: the signed numbers differ in their low 16 bits. -/
theorem zz16_not_dvd {z u : Nat} (h : Misread z u) (hz : z < 2 ^ 16) : ¬(2 : Int) ^ 16 ∣ ZigZag.dec u - ZigZag.dec z := by
  intro hdvd
  rcases ZigZag.dec_congr hdvd with hsame | hcompl
  · cases h <;> omega
  · exact h.complement_not_dvd (Or.inl rfl) hz hcompl

/-- Nor is a misread `int`. -/
theorem zz32_not_dvd {z u : Nat} (h : Misread z u) (hz : z < 2 ^ 32) : ¬(2 : Int) ^ 32 ∣ ZigZag.dec u - ZigZag.dec z := by
  intro hdvd
  rcases ZigZag.dec_congr hdvd with hsame | hcompl
  · cases h <;> omega
  · exact h.complement_not_dvd (Or.inr rfl) hz hcompl

end SvwAux.Misread

namespace PodTypedAux

variable {fdPodAlloc : Mem → Nat → Nat → Int → Ulong → Mem × Ulong} {fdPodQuery : Mem → Nat → Nat → Int × FdPodInfo} {m : Mem}
  {pod path : Nat} {valType : Int} {valSz : Ulong} {T : Type}

/-! ## What an insert stores and a query finds -/

/-- Two values encoded one after the other are one store. -/
theorem enc_enc (m : Mem) (b : Nat) (lo hi : Ulong) :
    (fdUlongSvwEnc (fdUlongSvwEnc m b lo).1 (fdUlongSvwEnc m b lo).2 hi).1 =
      storeLE m b ((narrowest lo.toNat).bytes + (narrowest hi.toNat).bytes)
        ((narrowest lo.toNat).word lo.toNat + 256 ^ (narrowest lo.toNat).bytes * (narrowest hi.toNat).word hi.toNat) := by
  rw [enc_eq, enc_eq]
  exact storeLE_append m b _ _ _ (word_lt (lt_payload_narrowest lo.isLt))

/-- Two sizes do not wrap. -/
theorem encSz_add_toNat (lo hi : Ulong) :
    (fdUlongSvwEncSz lo + fdUlongSvwEncSz hi).toNat = (narrowest lo.toNat).bytes + (narrowest hi.toNat).bytes := by
  have hlo := bytes_le (narrowest lo.toNat)
  have hhi := bytes_le (narrowest hi.toNat)
  rw [BitVec.toNat_add, encSz_toNat, encSz_toNat]
  omega

/-- What is stored in the room that was allocated is found there. -/
theorem slot_query (h : PodSlot fdPodAlloc fdPodQuery m pod path valType valSz) (word : Nat) :
    ∃ info, fdPodQuery (storeLE (fdPodAlloc m pod path valType valSz).1
        (pod + (fdPodAlloc m pod path valType valSz).2.toNat) valSz.toNat word) pod path = (0, info) ∧
      info.valType = valType ∧ info.val = pod + (fdPodAlloc m pod path valType valSz).2.toNat := by
  obtain ⟨herr, htype, hval⟩ := h.found _ fun p hp => storeLE_frame (fdPodAlloc m pod path valType valSz).1 word hp
  exact ⟨_, Prod.ext herr rfl, htype, hval⟩

/-- An insert of one word. -/
theorem insertSvw_eq {u : Ulong} (h : PodSlot fdPodAlloc fdPodQuery m pod path valType (fdUlongSvwEncSz u)) :
    podInsertSvw fdPodAlloc valType u m pod path =
      (storeLE (fdPodAlloc m pod path valType (fdUlongSvwEncSz u)).1
        (pod + (fdPodAlloc m pod path valType (fdUlongSvwEncSz u)).2.toNat) (fdUlongSvwEncSz u).toNat
        ((narrowest u.toNat).word u.toNat), (fdPodAlloc m pod path valType (fdUlongSvwEncSz u)).2) := by
  unfold podInsertSvw
  simp only
  rw [if_neg h.off_ne, enc_eq, encSz_toNat]

/-- An insert of two words. -/
theorem insertSvw128_eq {u : Uint128}
    (h : PodSlot fdPodAlloc fdPodQuery m pod path valType (fdUlongSvwEncSz (loWord u) + fdUlongSvwEncSz (hiWord u))) :
    podInsertSvw128 fdPodAlloc valType u m pod path =
      (storeLE (fdPodAlloc m pod path valType (fdUlongSvwEncSz (loWord u) + fdUlongSvwEncSz (hiWord u))).1
        (pod + (fdPodAlloc m pod path valType (fdUlongSvwEncSz (loWord u) + fdUlongSvwEncSz (hiWord u))).2.toNat)
        (fdUlongSvwEncSz (loWord u) + fdUlongSvwEncSz (hiWord u)).toNat
        ((narrowest (loWord u).toNat).word (loWord u).toNat +
          256 ^ (narrowest (loWord u).toNat).bytes * (narrowest (hiWord u).toNat).word (hiWord u).toNat),
        (fdPodAlloc m pod path valType (fdUlongSvwEncSz (loWord u) + fdUlongSvwEncSz (hiWord u))).2) := by
  unfold podInsertSvw128
  simp only
  rw [if_neg h.off_ne, enc_enc, encSz_add_toNat]

/-! ## What a query reads back -/

/-- A word that is read where an encoded one was stored: that one, or what it is misread as. -/
theorem query_word_iff {m : Mem} {b : Nat} {u : Ulong} {ofWord : Ulong → T} {v : T} {extra : Prop}
    (h : loadLE m b (narrowest u.toNat).bytes = (narrowest u.toNat).word u.toNat) (hval : ofWord u = v)
    (hmis : ∀ u' : Ulong, Misread u.toNat u'.toNat → (ofWord u' = v ↔ extra)) :
    ofWord (fdUlongSvwDec m b).1 = v ↔ svwHeadAgrees u ∨ extra := by
  by_cases ha : svwHeadAgrees u
  · rw [dec_of_word h ha]
    exact iff_of_true hval (Or.inl ha)
  · rw [hmis _ (misread_of_word h ha)]
    exact (or_iff_right ha).symm

/-- A query that does not fall back on its default. -/
theorem forall_default_iff {f : T → T} {c v : T} (h : ∀ dflt, f dflt = c) : (∀ dflt, f dflt = v) ↔ c = v :=
  ⟨fun e => (h v).symm.trans (e v), fun e dflt => (h dflt).trans e⟩

/-- A value of one word is read back when the head of the word agrees, or the cast makes up for what is misread. -/
theorem querySvw_iff {u : Ulong} {ofWord : Ulong → T} {v : T} {extra : Prop}
    (h : PodSlot fdPodAlloc fdPodQuery m pod path valType (fdUlongSvwEncSz u)) (hval : ofWord u = v)
    (hmis : ∀ u' : Ulong, Misread u.toNat u'.toNat → (ofWord u' = v ↔ extra)) :
    (∀ dflt, podQuerySvw fdPodQuery valType ofWord (podInsertSvw fdPodAlloc valType u m pod path).1 pod path dflt = v) ↔
      svwHeadAgrees u ∨ extra := by
  rw [insertSvw_eq h]
  obtain ⟨info, hq, htype, hinfo⟩ := slot_query h ((narrowest u.toNat).word u.toNat)
  have hload := loadLE_storeLE_of_lt (fdPodAlloc m pod path valType (fdUlongSvwEncSz u)).1
    (pod + (fdPodAlloc m pod path valType (fdUlongSvwEncSz u)).2.toNat) (word_lt (lt_payload_narrowest u.isLt))
  rw [← encSz_toNat] at hload
  generalize storeLE _ _ _ _ = m₂ at *
  rw [encSz_toNat, ← hinfo] at hload
  have hquery : ∀ dflt, podQuerySvw fdPodQuery valType ofWord m₂ pod path dflt = ofWord (fdUlongSvwDec m₂ info.val).1 := by
    intro dflt
    unfold podQuerySvw
    rw [hq]
    exact if_neg fun e => e.elim (fun e => e rfl) fun e => e htype
  rw [forall_default_iff hquery, query_word_iff hload hval hmis]

/-- Two words make up a 128-bit one. -/
theorem append_eq_iff (hi lo : Ulong) (u : Uint128) :
    (hi ++ lo : BitVec (64 + 64)) = u ↔ lo = loWord u ∧ hi = hiWord u := by
  have hu := u.isLt
  have hhi := hi.isLt
  have hlo := lo.isLt
  have happ : (hi ++ lo : BitVec (64 + 64)).toNat = hi.toNat * 2 ^ 64 + lo.toNat := by
    rw [BitVec.toNat_append, ← Nat.shiftLeft_add_eq_or_of_lt hlo, Nat.shiftLeft_eq]
  rw [← BitVec.toNat_inj, ← BitVec.toNat_inj (x := lo), ← BitVec.toNat_inj (x := hi), happ, loWord, hiWord,
    BitVec.toNat_setWidth, BitVec.toNat_setWidth, BitVec.toNat_ushiftRight, Nat.shiftRight_eq_div_pow]
  omega

/-- Two encoded words that are read one after the other. -/
theorem dec_dec_iff {m : Mem} {b : Nat} {lo hi : Ulong}
    (hlo : loadLE m b (narrowest lo.toNat).bytes = (narrowest lo.toNat).word lo.toNat)
    (hhi : loadLE m (b + (narrowest lo.toNat).bytes) (narrowest hi.toNat).bytes = (narrowest hi.toNat).word hi.toNat) :
    (fdUlongSvwDec m b).1 = lo ∧ (fdUlongSvwDec m (fdUlongSvwDec m b).2).1 = hi ↔ svwHeadAgrees lo ∧ svwHeadAgrees hi := by
  rw [dec_of_word_iff hlo]
  refine and_congr_right fun ha => ?_
  -- the second word is where the first one ends, once that is read right
  rw [dec_of_word hlo ha]
  exact dec_of_word_iff hhi

/-- Two encoded words that are stored one after the other are loaded one after the other. -/
theorem load_pair (m : Mem) (b : Nat) (lo hi : Ulong) :
    let m' := storeLE m b ((narrowest lo.toNat).bytes + (narrowest hi.toNat).bytes)
      ((narrowest lo.toNat).word lo.toNat + 256 ^ (narrowest lo.toNat).bytes * (narrowest hi.toNat).word hi.toNat)
    loadLE m' b (narrowest lo.toNat).bytes = (narrowest lo.toNat).word lo.toNat ∧
      loadLE m' (b + (narrowest lo.toNat).bytes) (narrowest hi.toNat).bytes = (narrowest hi.toNat).word hi.toNat := by
  intro m'
  have hlo := word_lt (lt_payload_narrowest lo.isLt)
  have hhi := word_lt (lt_payload_narrowest hi.isLt)
  have hm' : m' = storeLE (storeLE m b (narrowest lo.toNat).bytes ((narrowest lo.toNat).word lo.toNat))
      (b + (narrowest lo.toNat).bytes) (narrowest hi.toNat).bytes ((narrowest hi.toNat).word hi.toNat) :=
    (storeLE_append m b _ _ _ hlo).symm
  rw [hm']
  constructor
  · rw [loadLE_storeLE_disjoint _ _ (Or.inl (Nat.le_refl _))]
    exact loadLE_storeLE_of_lt m b hlo
  · exact loadLE_storeLE_of_lt _ _ hhi

/-- A value of two words is read back when the heads of both agree. -/
theorem querySvw128_iff {u : Uint128} {ofWords : Uint128 → T} {v : T}
    (h : PodSlot fdPodAlloc fdPodQuery m pod path valType (fdUlongSvwEncSz (loWord u) + fdUlongSvwEncSz (hiWord u)))
    (hval : ∀ u', ofWords u' = v ↔ u' = u) :
    (∀ dflt, podQuerySvw128 fdPodQuery valType ofWords (podInsertSvw128 fdPodAlloc valType u m pod path).1 pod path dflt = v) ↔
      svwHeadAgrees (loWord u) ∧ svwHeadAgrees (hiWord u) := by
  rw [insertSvw128_eq h]
  obtain ⟨info, hq, htype, hinfo⟩ := slot_query h ((narrowest (loWord u).toNat).word (loWord u).toNat +
    256 ^ (narrowest (loWord u).toNat).bytes * (narrowest (hiWord u).toNat).word (hiWord u).toNat)
  obtain ⟨hlo, hhi⟩ := load_pair
    (fdPodAlloc m pod path valType (fdUlongSvwEncSz (loWord u) + fdUlongSvwEncSz (hiWord u))).1
    (pod + (fdPodAlloc m pod path valType (fdUlongSvwEncSz (loWord u) + fdUlongSvwEncSz (hiWord u))).2.toNat)
    (loWord u) (hiWord u)
  rw [← encSz_add_toNat] at hlo hhi
  generalize storeLE _ _ _ _ = m₂ at *
  rw [← hinfo] at hlo hhi
  have hquery : ∀ dflt, podQuerySvw128 fdPodQuery valType ofWords m₂ pod path dflt =
      ofWords ((fdUlongSvwDec m₂ (fdUlongSvwDec m₂ info.val).2).1 ++ (fdUlongSvwDec m₂ info.val).1 : BitVec (64 + 64)) := by
    intro dflt
    unfold podQuerySvw128
    rw [hq]
    exact if_neg fun e => e.elim (fun e => e rfl) fun e => e htype
  rw [forall_default_iff hquery, hval, append_eq_iff, dec_dec_iff hlo hhi]

/-! ## Signed words -/

/-- The number that the decoder of signed words gives. -/
theorem zzDec_toInt (u : Ulong) : (fdLongZzDec u).toInt = ZigZag.dec u.toNat :=
  ZigZag.toInt_decWord (k := 63) u

/-- The code of a signed word of any width, extended. -/
theorem zzEnc_toNat {w : Nat} (val : BitVec w) (hw : w ≤ 64) :
    (fdLongZzEnc (val.signExtend 64)).toNat = ZigZag.enc val.toInt := by
  rw [← BitVec.toInt_signExtend_of_le hw]
  exact ZigZag.toNat_encWord (k := 63) (val.signExtend 64)

/-- The code has as many bits as the word. -/
theorem zzEnc_lt {k : Nat} (val : BitVec (k + 1)) (hw : k + 1 ≤ 64) :
    (fdLongZzEnc (val.signExtend 64)).toNat < 2 ^ (k + 1) := by
  rw [zzEnc_toNat val hw]
  exact ZigZag.enc_lt val.le_toInt BitVec.toInt_lt

/-- The cast of the decoder's word to a shorter one. -/
theorem zzDec_cast_toInt {w : Nat} (u : Ulong) (hw : w ≤ 64) :
    ((fdLongZzDec u).setWidth w).toInt = (ZigZag.dec u.toNat).bmod (2 ^ w) := by
  rw [← BitVec.signExtend_eq_setWidth_of_le _ hw, BitVec.toInt_signExtend_eq_toInt_bmod_of_le _ hw, zzDec_toInt]

/-- A code is decoded and cast to the word it codes. -/
theorem zzDec_cast {w : Nat} (val : BitVec w) (hw : w ≤ 64) :
    (fdLongZzDec (fdLongZzEnc (val.signExtend 64))).setWidth w = val := by
  apply BitVec.eq_of_toInt_eq
  rw [zzDec_cast_toInt _ hw, zzEnc_toNat val hw, ZigZag.dec_enc]
  exact val.toInt_bmod_cancel

/-- Any other code that is cast to the word is of a number that differs by a multiple. -/
theorem zzDec_cast_dvd {w : Nat} {val : BitVec w} {u : Ulong} (hw : w ≤ 64) (h : (fdLongZzDec u).setWidth w = val) :
    (2 : Int) ^ w ∣ ZigZag.dec u.toNat - ZigZag.dec (fdLongZzEnc (val.signExtend 64)).toNat := by
  rw [zzEnc_toNat val hw, ZigZag.dec_enc, ← h, zzDec_cast_toInt u hw]
  exact_mod_cast Int.dvd_self_sub_bmod

/-! ## The values of one word, and of two -/

/-- A value of one word goes round when it survives, given what its cast makes of a misread word. -/
theorem roundTrips_one {v : PodVal} {u : Ulong} {ofWord : Ulong → T} {x : T}
    (h : PodSlot fdPodAlloc fdPodQuery m pod path v.valType v.valSz) (hwords : v.words = [u])
    (hinsert : v.insert fdPodAlloc m pod path = podInsertSvw fdPodAlloc v.valType u m pod path)
    (hread : ∀ m', v.IsQueried fdPodQuery m' pod path ↔ ∀ dflt, podQuerySvw fdPodQuery v.valType ofWord m' pod path dflt = x)
    (hval : ofWord u = x) (hmis : ∀ u' : Ulong, Misread u.toNat u'.toNat → (ofWord u' = x ↔ v.IsWideUint)) :
    PodRoundTrips fdPodAlloc fdPodQuery m pod path v ↔ v.Survives := by
  have hsz : v.valSz = fdUlongSvwEncSz u := by simp [PodVal.valSz, hwords]
  rw [hsz] at h
  rw [PodVal.Survives, hwords, List.forall_mem_singleton, ← querySvw_iff h hval hmis, ← hread, ← hinsert]
  refine ⟨PodRoundTrips.reads, fun hr => ⟨?_, hr⟩⟩
  rw [hsz, hinsert]
  exact ⟨_, insertSvw_eq h⟩

/-- A value of two words goes round when it survives. -/
theorem roundTrips_two {v : PodVal} {u : Uint128} {ofWords : Uint128 → T} {x : T}
    (h : PodSlot fdPodAlloc fdPodQuery m pod path v.valType v.valSz) (hwords : v.words = [loWord u, hiWord u])
    (hinsert : v.insert fdPodAlloc m pod path = podInsertSvw128 fdPodAlloc v.valType u m pod path)
    (hread : ∀ m', v.IsQueried fdPodQuery m' pod path ↔ ∀ dflt, podQuerySvw128 fdPodQuery v.valType ofWords m' pod path dflt = x)
    (hval : ∀ u', ofWords u' = x ↔ u' = u) (hwide : ¬v.IsWideUint) :
    PodRoundTrips fdPodAlloc fdPodQuery m pod path v ↔ v.Survives := by
  have hsz : v.valSz = fdUlongSvwEncSz (loWord u) + fdUlongSvwEncSz (hiWord u) := by simp [PodVal.valSz, hwords]
  rw [hsz] at h
  rw [PodVal.Survives, or_iff_left hwide, hwords, List.forall_mem_cons, List.forall_mem_singleton,
    ← querySvw128_iff h hval, ← hread, ← hinsert]
  refine ⟨PodRoundTrips.reads, fun hr => ⟨?_, hr⟩⟩
  rw [hsz, hinsert]
  exact ⟨_, insertSvw128_eq h⟩

end PodTypedAux

open PodTypedAux

/-- Where the allocation succeeds, an insert and the query after it give a value back exactly when its type reads it back. -/
theorem podTyped_roundTrips_iff (fdPodAlloc : Mem → Nat → Nat → Int → Ulong → Mem × Ulong)
    (fdPodQuery : Mem → Nat → Nat → Int × FdPodInfo) (m : Mem) (pod path : Nat) (v : PodVal)
    (h : PodSlot fdPodAlloc fdPodQuery m pod path v.valType v.valSz) :
    PodRoundTrips fdPodAlloc fdPodQuery m pod path v ↔ v.Survives := by
  cases v with
  | ushort val =>
    have hu : (val.setWidth 64 : Ulong).toNat = val.toNat := BitVec.toNat_setWidth_of_le (by decide)
    refine roundTrips_one h rfl rfl (fun _ => Iff.rfl) (BitVec.setWidth_setWidth_of_le _ (by decide)) fun u' hmis => ?_
    rw [hu] at hmis
    refine iff_of_false (fun e => hmis.cast16_ne val.isLt ?_) id
    rw [← e, BitVec.toNat_setWidth]
  | uint val =>
    have hu : (val.setWidth 64 : Ulong).toNat = val.toNat := BitVec.toNat_setWidth_of_le (by decide)
    refine roundTrips_one h rfl rfl (fun _ => Iff.rfl) (BitVec.setWidth_setWidth_of_le _ (by decide)) fun u' hmis => ?_
    rw [hu] at hmis
    rw [PodVal.IsWideUint, ← hmis.cast32_eq_iff val.isLt, ← BitVec.toNat_inj, BitVec.toNat_setWidth]
  | ulong val =>
    refine roundTrips_one h rfl rfl (fun _ => Iff.rfl) rfl fun u' hmis => iff_of_false (fun e => ?_) id
    exact hmis.ne (congrArg BitVec.toNat e)
  | short val =>
    refine roundTrips_one h rfl rfl (fun _ => Iff.rfl) (zzDec_cast val (by decide)) fun u' hmis => iff_of_false (fun e => ?_) id
    exact hmis.zz16_not_dvd (zzEnc_lt val (by decide)) (zzDec_cast_dvd (by decide) e)
  | int val =>
    refine roundTrips_one h rfl rfl (fun _ => Iff.rfl) (zzDec_cast val (by decide)) fun u' hmis => iff_of_false (fun e => ?_) id
    exact hmis.zz32_not_dvd (zzEnc_lt val (by decide)) (zzDec_cast_dvd (by decide) e)
  | long val =>
    have hdec : ∀ u' : Ulong, fdLongZzDec u' = val ↔ u' = fdLongZzEnc val := fun u' => ZigZag.decWord_eq_iff (k := 63) u' val
    refine roundTrips_one h rfl rfl (fun _ => Iff.rfl) ((hdec _).2 rfl) fun u' hmis => iff_of_false (fun e => ?_) id
    exact hmis.ne (congrArg BitVec.toNat ((hdec u').1 e))
  | uint128 val => exact roundTrips_two h rfl rfl (fun _ => Iff.rfl) (fun _ => Iff.rfl) id
  | int128 val => exact roundTrips_two h rfl rfl (fun _ => Iff.rfl) (fun u' => ZigZag.decWord_eq_iff (k := 127) u' val) id

/-! ## A pod of one pair -/

/-- An allocation at the end of a small pod, for a path of one character. -/
def podAllocOne (m : Mem) (pod path : Nat) (valType : Int) (valSz : Ulong) : Mem × Ulong :=
  let used := fdPodUsed m pod
  let (m, cursor) := fdUlongSvwEnc m (pod + used.toNat) 2
  let m := storeUchar (storeUchar m cursor (m path)) (cursor + 1) 0
  let m := storeUchar m (cursor + 2) (BitVec.ofInt 8 valType)
  let (m, cursor) := fdUlongSvwEnc m (cursor + 3) valSz
  let off := BitVec.ofNat 64 (cursor - pod)
  let m := (fdUlongSvwEncFixed m (pod + 1) 1 (off + valSz)).1
  ((fdUlongSvwEncFixed m (pod + 2) 1 (fdPodCnt m pod + 1)).1, off)

/-- A query of the first pair of a pod by a cstr of one character. -/
def podQueryOne (m : Mem) (pod path : Nat) : Int × FdPodInfo :=
  let iter := fdPodIterInit m (some pod)
  let info := fdPodIterInfo m iter
  if fdPodIterDone iter then (-3, info)
  else if info.keySz = 2 ∧ m info.key = m path then (0, info)
  else (-3, info)

/-- An empty pod at 64, and the path "x" at 8. -/
def onePod : Mem := storeBytes (fdPodNew (fun _ => 0) (some 64) 63).1 8 [120, 0]

namespace PodTypedAux

/-- The query of a pod with one such pair. -/
theorem podQueryOne_eq {m : Mem} (hmax : m 64 = 126) (hkey : m 67 = 4 ∧ m 68 = m 8)
    (hsz : m 65 = 18 ∧ m 71 = 2 ∨ m 65 = 20 ∧ m 71 = 4) :
    (podQueryOne m 64 8).1 = 0 ∧ (podQueryOne m 64 8).2.valType = (m 70).toNat ∧ (podQueryOne m 64 8).2.val = 72 := by
  rcases hsz with ⟨hused, hvsz⟩ | ⟨hused, hvsz⟩ <;>
    simp [podQueryOne, fdPodIterInit, fdPodIterInfo, fdPodIterDone, fdUlongSvwDecSz, fdUlongSvwDecFixed, fdUlongLoad1, fdUlongLoad,
      svwSzTable, hmax, hkey, hused, hvsz]

/-- A slot of one or two bytes in that pod, from the bytes that its allocation leaves before it. -/
theorem podSlot_one {valType : Int} {valSz : Ulong} (hoff : (podAllocOne onePod 64 8 valType valSz).2 = 8)
    (hmax : (podAllocOne onePod 64 8 valType valSz).1 64 = 126)
    (hkey : (podAllocOne onePod 64 8 valType valSz).1 67 = 4 ∧
      (podAllocOne onePod 64 8 valType valSz).1 68 = (podAllocOne onePod 64 8 valType valSz).1 8)
    (hsz : (podAllocOne onePod 64 8 valType valSz).1 65 = 18 ∧ (podAllocOne onePod 64 8 valType valSz).1 71 = 2 ∨
      (podAllocOne onePod 64 8 valType valSz).1 65 = 20 ∧ (podAllocOne onePod 64 8 valType valSz).1 71 = 4)
    (htype : ((podAllocOne onePod 64 8 valType valSz).1 70).toNat = valType) :
    PodSlot podAllocOne podQueryOne onePod 64 8 valType valSz := by
  refine ⟨by rw [hoff]; decide, fun m' hm' => ?_⟩
  rw [hoff] at hm' ⊢
  have hlo : ∀ p, p < 72 → m' p = (podAllocOne onePod 64 8 valType valSz).1 p := fun p hp => hm' p (Or.inl hp)
  rw [← hlo 64 (by decide)] at hmax
  rw [← hlo 67 (by decide), ← hlo 68 (by decide), ← hlo 8 (by decide)] at hkey
  rw [← hlo 65 (by decide), ← hlo 71 (by decide)] at hsz
  rw [← hlo 70 (by decide)] at htype
  obtain ⟨herr, hqtype, hval⟩ := podQueryOne_eq hmax hkey hsz
  exact ⟨herr, hqtype.trans htype, hval⟩

end PodTypedAux

open PodTypedAux

/-- The `int` -3 goes round. -/
theorem podTyped_roundTrips_int : PodRoundTrips podAllocOne podQueryOne onePod 64 8 (.int (-3)) := by
  have hslot : PodSlot podAllocOne podQueryOne onePod 64 8 fdPodValTypeInt (PodVal.int (-3)).valSz :=
    podSlot_one (by decide) (by decide) (by decide) (by decide) (by decide)
  exact (podTyped_roundTrips_iff podAllocOne podQueryOne onePod 64 8 (.int (-3)) hslot).2 (by decide)

/-- The `ushort` 64 is stored in the room it was given and is read as 0. -/
theorem podTyped_ushort_64_lost : PodSlot podAllocOne podQueryOne onePod 64 8 fdPodValTypeUshort (PodVal.ushort 64).valSz ∧
    ¬PodRoundTrips podAllocOne podQueryOne onePod 64 8 (.ushort 64) := by
  refine ⟨podSlot_one (by decide) (by decide) (by decide) (by decide) (by decide), fun h => ?_⟩
  have hread : fdPodQueryUshort podQueryOne (PodVal.insert podAllocOne onePod 64 8 (.ushort 64)).1 64 8 0 = 64 := h.reads 0
  revert hread
  decide

end VerifyFiredancer
