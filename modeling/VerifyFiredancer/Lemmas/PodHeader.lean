import VerifyFiredancer.Lemmas.Svw
import VerifyFiredancer.Pod

/-!
# The pod header as three words

`PodHeader m pod w max used cnt` says the header at `pod` is the three words of `max`, `used` and `cnt` at the width `w`. The
constructor makes one (`podNew_header`), a rewrite in place keeps it (`PodHeader.setUsed`, `PodHeader.setCnt`), a write after
it keeps it (`PodHeader.mono`), and the accessors read it back when the size decoder finds its width (`PodHeader.accessors`).
-/

namespace VerifyFiredancer

open ByteMem SvwWidth SvwAux

/-- The header at `pod` is the three words of `max`, `used` and `cnt` at the width `w`, which holds each of them. -/
structure PodHeader (m : Mem) (pod : Nat) (w : SvwWidth) (max used cnt : Ulong) : Prop where
  max_lt : max.toNat < 2 ^ w.payload
  used_lt : used.toNat < 2 ^ w.payload
  cnt_lt : cnt.toNat < 2 ^ w.payload
  max_load : loadLE m pod w.bytes = w.word max.toNat
  used_load : loadLE m (pod + w.bytes) w.bytes = w.word used.toNat
  cnt_load : loadLE m (pod + 2 * w.bytes) w.bytes = w.word cnt.toNat

namespace PodAux

/-- The header of a pod fits any `max` the constructor accepts. -/
theorem header_le_max {max : Ulong} (h : 3 ≤ max.toNat) : 3 * (narrowest max.toNat).bytes ≤ max.toNat := by
  have hb := bytes_le (narrowest max.toNat)
  by_cases h6 : max.toNat < 2 ^ 6
  · have : narrowest max.toNat = w1 := by
      unfold narrowest
      rw [if_pos h6]
    rw [this]
    simpa [bytes] using h
  · omega

theorem csz_mul_two (w : SvwWidth) : (w.csz * 2).toNat = 2 * w.bytes := by
  cases w <;> rfl

theorem two_mul_csz (w : SvwWidth) : (2 * w.csz).toNat = 2 * w.bytes := by
  cases w <;> rfl

theorem csz_mul_three (w : SvwWidth) : (w.csz * 3).toNat = 3 * w.bytes := by
  cases w <;> rfl

theorem three_mul_csz (w : SvwWidth) : (3 * w.csz).toNat = 3 * w.bytes := by
  cases w <;> rfl

/-- A value at most `max` fits the width of `max`. -/
theorem lt_payload_of_le {v max : Ulong} (h : v ≤ max) : v.toNat < 2 ^ (narrowest max.toNat).payload :=
  lt_of_le_of_lt (BitVec.le_def.1 h) (lt_payload_narrowest max.isLt)

/-- The size of the header fits the width of the header. -/
theorem three_mul_csz_lt (w : SvwWidth) : (3 * w.csz).toNat < 2 ^ w.payload := by
  cases w <;> decide

end PodAux

open PodAux

/-- A header read elsewhere the same is the same header. -/
theorem PodHeader.mono {m m' : Mem} {pod : Nat} {w : SvwWidth} {max used cnt : Ulong} (h : PodHeader m pod w max used cnt)
    (heq : ∀ p, pod ≤ p → p < pod + 3 * w.bytes → m' p = m p) : PodHeader m' pod w max used cnt where
  max_lt := h.max_lt
  used_lt := h.used_lt
  cnt_lt := h.cnt_lt
  max_load := by rw [← h.max_load]; exact loadLE_congr fun p _ _ => heq p (by omega) (by omega)
  used_load := by rw [← h.used_load]; exact loadLE_congr fun p _ _ => heq p (by omega) (by omega)
  cnt_load := by rw [← h.cnt_load]; exact loadLE_congr fun p _ _ => heq p (by omega) (by omega)

/-- Two headers of the same values are the same bytes. -/
theorem PodHeader.bytes_eq {m m' : Mem} {pod : Nat} {w : SvwWidth} {max used cnt : Ulong}
    (h : PodHeader m pod w max used cnt) (h' : PodHeader m' pod w max used cnt) :
    ∀ p, pod ≤ p → p < pod + 3 * w.bytes → m p = m' p := by
  have byte : ∀ a, loadLE m a w.bytes = loadLE m' a w.bytes → ∀ i, i < w.bytes → m (a + i) = m' (a + i) := by
    intro a ha i hi
    apply BitVec.eq_of_toNat_eq
    rw [← loadLE_byte m a _ i hi, ← loadLE_byte m' a _ i hi, ha]
  intro p hp hp'
  rcases Nat.lt_or_ge p (pod + w.bytes) with h1 | h1
  · have := byte pod (h.max_load.trans h'.max_load.symm) (p - pod) (by omega)
    rwa [Nat.add_sub_of_le hp] at this
  rcases Nat.lt_or_ge p (pod + 2 * w.bytes) with h2 | h2
  · have := byte (pod + w.bytes) (h.used_load.trans h'.used_load.symm) (p - (pod + w.bytes)) (by omega)
    rwa [Nat.add_sub_of_le h1] at this
  · have := byte (pod + 2 * w.bytes) (h.cnt_load.trans h'.cnt_load.symm) (p - (pod + 2 * w.bytes)) (by omega)
    rwa [Nat.add_sub_of_le h2] at this

/-- Rewriting `used` in place. -/
theorem PodHeader.setUsed {m : Mem} {pod : Nat} {w : SvwWidth} {max used cnt v : Ulong} (h : PodHeader m pod w max used cnt)
    (hv : v.toNat < 2 ^ w.payload) :
    PodHeader (fdUlongSvwEncFixed m (pod + w.bytes) w.csz v).1 pod w max v cnt where
  max_lt := h.max_lt
  used_lt := hv
  cnt_lt := h.cnt_lt
  max_load := by rw [encFixed_eq _ _ _ hv, loadLE_storeLE_disjoint _ _ (by omega), h.max_load]
  used_load := by rw [encFixed_eq _ _ _ hv, loadLE_storeLE_of_lt _ _ (word_lt hv)]
  cnt_load := by rw [encFixed_eq _ _ _ hv, loadLE_storeLE_disjoint _ _ (by omega), h.cnt_load]

/-- Rewriting `cnt` in place. -/
theorem PodHeader.setCnt {m : Mem} {pod : Nat} {w : SvwWidth} {max used cnt v : Ulong} (h : PodHeader m pod w max used cnt)
    (hv : v.toNat < 2 ^ w.payload) :
    PodHeader (fdUlongSvwEncFixed m (pod + 2 * w.bytes) w.csz v).1 pod w max used v where
  max_lt := h.max_lt
  used_lt := h.used_lt
  cnt_lt := hv
  max_load := by rw [encFixed_eq _ _ _ hv, loadLE_storeLE_disjoint _ _ (by omega), h.max_load]
  used_load := by rw [encFixed_eq _ _ _ hv, loadLE_storeLE_disjoint _ _ (by omega), h.used_load]
  cnt_load := by rw [encFixed_eq _ _ _ hv, loadLE_storeLE_of_lt _ _ (word_lt hv)]

/-- The accessors read the header back when the size decoder finds its width. -/
theorem PodHeader.accessors {m : Mem} {pod : Nat} {w : SvwWidth} {max used cnt : Ulong} (h : PodHeader m pod w max used cnt)
    (hsz : fdUlongSvwDecSz m pod = w.csz) :
    fdPodMax m pod = max ∧ fdPodUsed m pod = used ∧ fdPodCnt m pod = cnt ∧ fdPodAvail m pod = max - used := by
  have hm := decFixed_of_word h.max_lt h.max_load
  have hu := decFixed_of_word h.used_lt h.used_load
  have hc := decFixed_of_word h.cnt_lt h.cnt_load
  simp only [fdPodMax, fdPodUsed, fdPodCnt, fdPodAvail, hsz, csz_toNat, two_mul_csz, hm, hu, hc, and_self]

/-- The size decoder finds the width of a header exactly when the head of `max` agrees. -/
theorem PodHeader.decSz_iff {m : Mem} {pod : Nat} {max used cnt : Ulong}
    (h : PodHeader m pod (narrowest max.toNat) max used cnt) :
    fdUlongSvwDecSz m pod = (narrowest max.toNat).csz ↔ svwHeadAgrees max := by
  rw [← encSz_eq, decSz_of_word_iff h.max_load]

/-- `fd_pod_max` gives the `max` of a header back exactly when the head of `max` agrees. -/
theorem PodHeader.max_iff {m : Mem} {pod : Nat} {max used cnt : Ulong}
    (h : PodHeader m pod (narrowest max.toNat) max used cnt) : fdPodMax m pod = max ↔ svwHeadAgrees max :=
  dec_of_word_iff h.max_load

namespace PodAux

/-- An encoder of a fixed width writes only the bytes of that width. -/
theorem encFixed_frame (m : Mem) (b : Nat) (w : SvwWidth) {x : Ulong} (h : x.toNat < 2 ^ w.payload) {p : Nat}
    (hp : p < b ∨ b + w.bytes ≤ p) : (fdUlongSvwEncFixed m b w.csz x).1 p = m p := by
  rw [encFixed_eq m b w h]
  exact storeLE_frame _ _ hp

/-- The memory a new pod leaves, spelled out: three values written at the width of `max`. -/
theorem podNew_eq (m : Mem) (pod : Nat) {max : Ulong} (h : 3 ≤ max) :
    fdPodNew m (some pod) max =
      ((fdUlongSvwEncFixed (fdUlongSvwEncFixed (fdUlongSvwEncFixed m pod (narrowest max.toNat).csz max).1
        (pod + (narrowest max.toNat).bytes) (narrowest max.toNat).csz (3 * (narrowest max.toNat).csz)).1
        (pod + 2 * (narrowest max.toNat).bytes) (narrowest max.toNat).csz 0).1, some pod) := by
  have hf : fdPodFootprint max ≠ 0 := by
    unfold fdPodFootprint fdPodFootprintMin
    rw [if_pos h]
    rintro rfl
    revert h
    decide
  simp only [fdPodNew, if_neg hf, encSz_eq, csz_toNat, csz_mul_two]

/-- A new pod has a header of its `max`, the size of the header and zero pairs. -/
theorem podNew_header (m : Mem) (pod : Nat) {max : Ulong} (h : 3 ≤ max) :
    PodHeader (fdPodNew m (some pod) max).1 pod (narrowest max.toNat) max (3 * (narrowest max.toNat).csz) 0 := by
  have hm := lt_payload_narrowest max.isLt
  have hu := three_mul_csz_lt (narrowest max.toNat)
  have hc : (0 : Ulong).toNat < 2 ^ (narrowest max.toNat).payload := Nat.two_pow_pos _
  rw [podNew_eq m pod h]
  constructor
  · exact hm
  · exact hu
  · exact hc
  · rw [encFixed_eq _ _ _ hc, loadLE_storeLE_disjoint _ _ (by omega), encFixed_eq _ _ _ hu,
      loadLE_storeLE_disjoint _ _ (by omega), encFixed_eq _ _ _ hm, loadLE_storeLE_of_lt _ _ (word_lt hm)]
  · rw [encFixed_eq _ _ _ hc, loadLE_storeLE_disjoint _ _ (by omega), encFixed_eq _ _ _ hu,
      loadLE_storeLE_of_lt _ _ (word_lt hu)]
  · rw [encFixed_eq _ _ _ hc, loadLE_storeLE_of_lt _ _ (word_lt hc)]

/-- A new pod writes its header and nothing else. -/
theorem podNew_frame (m : Mem) (pod : Nat) {max : Ulong} (h : 3 ≤ max) {p : Nat}
    (hp : p < pod ∨ pod + 3 * (narrowest max.toNat).bytes ≤ p) : (fdPodNew m (some pod) max).1 p = m p := by
  have hc : (0 : Ulong).toNat < 2 ^ (narrowest max.toNat).payload := Nat.two_pow_pos _
  rw [podNew_eq m pod h]
  show (fdUlongSvwEncFixed _ _ _ 0).1 p = m p
  rw [encFixed_frame _ _ _ hc (by omega), encFixed_frame _ _ _ (three_mul_csz_lt _) (by omega),
    encFixed_frame _ _ _ (lt_payload_narrowest max.isLt) (by omega)]

end PodAux

end VerifyFiredancer
