import VerifyFiredancer.Lemmas.PodIter

/-!
# The pod iterator enumerates the stored pairs

Over a pod that holds a list of pairs the documented loop enumerates exactly these exactly when the heads of `max` and of every
size agree (`PodPair.HeadsAgree`), or the pod is empty and its header, read at the wrong width, is by chance that of an empty
pod too (`PodEmptyByChance`). A pod with pairs is not saved by chance: read at another width, the header leads the iterator to
another place than the first pair's, and no size read there both ends at the first key and is the size of it
(`PodIterAux.misread_first`).
-/

namespace VerifyFiredancer

open ByteMem SvwWidth SvwAux PodAux PodIterAux

/-- An info points at the key and the value of a pair. -/
def PodInfoHolds (m : Mem) (info : FdPodInfo) (p : PodPair) : Prop :=
  (∀ i (h : i < p.keyBytes.length), m (info.key + i) = p.keyBytes[i]) ∧
    ∀ i (h : i < p.val.length), m (info.val + i) = p.val[i]

/-- The iterator enumerates the pairs of the pod that was laid out with them.
1. The loop ends after as many rounds as there are pairs, with the info of each in order, and the cursor where it stops.
2. The pointers of the infos are at the bytes of the keys and values. -/
structure PodIterEnumerates (m : Mem) (pod : Nat) (max cnt : Ulong) (ps : List PodPair) : Prop where
  loop : ∀ m', m' = podLayout m pod max cnt ps → ∀ fuel, ps.length < fuel →
    ∃ iter, fdPodIterLoop m' fuel (fdPodIterInit m' (some pod)) =
      some (podInfos (pod + (3 * fdUlongSvwEncSz max).toNat) ps, iter) ∧ iter.cursor = iter.stop
  bytes : ∀ m', m' = podLayout m pod max cnt ps →
    List.Forall₂ (PodInfoHolds m') (podInfos (pod + (3 * fdUlongSvwEncSz max).toNat) ps) ps

/-- The width the first byte of the encoding of a value is taken for. -/
def svwHeadWidth (x : Ulong) : SvwWidth := ofNibble ((narrowest x.toNat).word x.toNat % 256 / 16)

/-- The header of an empty pod, read at the width its first byte is taken for, has by chance a `used` of three times that
width: the bytes read for `used` lie within the encoding of `max`, or after the header, in what the memory held before. -/
def PodEmptyByChance (m : Mem) (pod : Nat) (max : Ulong) : Prop :=
  let w := narrowest max.toNat
  let v := svwHeadWidth max
  2 * v.bytes ≤ w.bytes ∧
      w.word max.toNat / 256 ^ v.bytes % 256 ^ v.bytes / 2 ^ v.shift % 2 ^ v.field = 3 * v.bytes ∨
    3 * w.bytes ≤ v.bytes ∧ loadLE m (pod + v.bytes) v.bytes / 2 ^ v.shift % 2 ^ v.field = 3 * v.bytes

namespace PodIterAux

/-! ## The layout -/

/-- The memory of a pod, in terms of its widths. -/
theorem layout_eq (m : Mem) (pod : Nat) (max cnt : Ulong) (ps : List PodPair) :
    podLayout m pod max cnt ps =
      (fdUlongSvwEncFixed (fdUlongSvwEncFixed (podPutPairs (fdPodNew m (some pod) max).1
        (pod + 3 * (narrowest max.toNat).bytes) ps).1 (pod + (narrowest max.toNat).bytes) (narrowest max.toNat).csz
        (BitVec.ofNat 64 (podPairsEnd (pod + 3 * (narrowest max.toNat).bytes) ps - pod))).1
        (pod + 2 * (narrowest max.toNat).bytes) (narrowest max.toNat).csz cnt).1 := by
  simp only [podLayout, encSz_eq, three_mul_csz, two_mul_csz, csz_toNat, putPairs_end]

section Layout

variable {m : Mem} {pod : Nat} {max cnt : Ulong} {ps : List PodPair}

/-- Pairs that fit end within the pod, so their end is a `used`. -/
theorem used_toNat (hfit : podPairsEnd (pod + 3 * (narrowest max.toNat).bytes) ps ≤ pod + max.toNat) :
    (BitVec.ofNat 64 (podPairsEnd (pod + 3 * (narrowest max.toNat).bytes) ps - pod) : Ulong).toNat =
      podPairsEnd (pod + 3 * (narrowest max.toNat).bytes) ps - pod := by
  have := max.isLt
  rw [BitVec.toNat_ofNat, Nat.mod_eq_of_lt (by omega)]

theorem used_lt (hfit : podPairsEnd (pod + 3 * (narrowest max.toNat).bytes) ps ≤ pod + max.toNat) :
    (BitVec.ofNat 64 (podPairsEnd (pod + 3 * (narrowest max.toNat).bytes) ps - pod) : Ulong).toNat <
      2 ^ (narrowest max.toNat).payload := by
  apply lt_payload_of_le
  rw [BitVec.le_def, used_toNat hfit]
  omega

/-- A pod has the header of its values. -/
theorem layout_header (h : 3 ≤ max) (hcnt : cnt ≤ max)
    (hfit : podPairsEnd (pod + 3 * (narrowest max.toNat).bytes) ps ≤ pod + max.toNat) :
    PodHeader (podLayout m pod max cnt ps) pod (narrowest max.toNat) max
      (BitVec.ofNat 64 (podPairsEnd (pod + 3 * (narrowest max.toNat).bytes) ps - pod)) cnt := by
  rw [layout_eq]
  refine PodHeader.setCnt (PodHeader.setUsed ((podNew_header m pod h).mono fun q _ hq => ?_) (used_lt hfit))
    (lt_payload_of_le hcnt)
  exact putPairs_frame ps _ _ q (Or.inl hq)

/-- What follows the header of a pod is what the pairs left. -/
theorem layout_frame (hcnt : cnt ≤ max)
    (hfit : podPairsEnd (pod + 3 * (narrowest max.toNat).bytes) ps ≤ pod + max.toNat) {q : Nat}
    (hq : pod + 3 * (narrowest max.toNat).bytes ≤ q) :
    podLayout m pod max cnt ps q =
      (podPutPairs (fdPodNew m (some pod) max).1 (pod + 3 * (narrowest max.toNat).bytes) ps).1 q := by
  rw [layout_eq, encFixed_frame _ _ _ (lt_payload_of_le hcnt) (by omega), encFixed_frame _ _ _ (used_lt hfit) (by omega)]

/-- A pod has its pairs. -/
theorem layout_pairs (hcnt : cnt ≤ max)
    (hfit : podPairsEnd (pod + 3 * (narrowest max.toNat).bytes) ps ≤ pod + max.toNat) :
    PodPairsAt (podLayout m pod max cnt ps) (pod + 3 * (narrowest max.toNat).bytes) ps :=
  PodPairsAt.mono ps (putPairs_at ps _ _) fun _ hq _ => layout_frame hcnt hfit hq

end Layout

/-- The infos of pairs point at them. -/
theorem infos_hold {m : Mem} (ps : List PodPair) :
    ∀ {c : Nat}, PodPairsAt m c ps → List.Forall₂ (PodInfoHolds m) (podInfos c ps) ps := by
  induction ps with
  | nil => intro c _; exact List.Forall₂.nil
  | cons p ps ih => intro c h; exact List.Forall₂.cons ⟨h.1.key, h.1.val⟩ (ih h.2)

/-! ## A header read at the wrong width -/

/-- The end of a word, read by a wider or a later load at another width, is not the size of a header. -/
theorem cut_tail_ne {w v : SvwWidth} (h1 : w ≠ w1) (hne : v ≠ w) (ha : w.bytes < 2 * v.bytes) (hb : v.bytes < 3 * w.bytes)
    {x : Nat} (hx : x < 2 ^ w.payload) (r : Nat) :
    (w.word x / 256 ^ (v.bytes % w.bytes) + 256 ^ (w.bytes - v.bytes % w.bytes) * r) / 2 ^ v.shift % 2 ^ v.field ≠
      3 * v.bytes := by
  cases w <;> cases v <;>
    simp only [bytes, payload, ne_eq, not_true_eq_false, reduceCtorEq, not_false_eq_true] at h1 hne ha hb hx <;>
    simp [word, bytes, shift, field, payload, highTag, lowTag] at ha hb hx ⊢ <;> omega

/-- The header value that holds the byte at offset `o`, for an offset within the header. -/
theorem header_word {m : Mem} {pod : Nat} {w : SvwWidth} {max used cnt : Ulong} (h : PodHeader m pod w max used cnt)
    {o : Nat} (ho : o < 3 * w.bytes) :
    ∃ x, x < 2 ^ w.payload ∧ loadLE m (pod + o / w.bytes * w.bytes) w.bytes = w.word x := by
  have hk : o / w.bytes < 3 := Nat.div_lt_of_lt_mul (by omega)
  interval_cases hd : o / w.bytes
  · exact ⟨max.toNat, h.max_lt, by rw [Nat.zero_mul]; exact h.max_load⟩
  · exact ⟨used.toNat, h.used_lt, by rw [Nat.one_mul]; exact h.used_load⟩
  · exact ⟨cnt.toNat, h.cnt_lt, h.cnt_load⟩

/-- Read at another width, a header whose bytes the read meets has a `used` that is not the size of an empty pod. -/
theorem misread_used {m : Mem} {pod : Nat} {w v : SvwWidth} {max used cnt : Ulong} (h : PodHeader m pod w max used cnt)
    (h1 : w ≠ w1) (hne : v ≠ w) (ha : w.bytes < 2 * v.bytes) (hb : v.bytes < 3 * w.bytes) :
    loadLE m (pod + v.bytes) v.bytes / 2 ^ v.shift % 2 ^ v.field ≠ 3 * v.bytes := by
  obtain ⟨x, hx, hload⟩ := header_word h hb
  have hpos := bytes_pos w
  have hmod := Nat.mod_lt v.bytes hpos
  have hdm := Nat.div_add_mod' v.bytes w.bytes
  have hle : w.bytes - v.bytes % w.bytes ≤ v.bytes := by
    rcases Nat.lt_or_ge v.bytes w.bytes with hlt | hge
    · rw [Nat.mod_eq_of_lt hlt]
      omega
    · omega
  obtain ⟨d, hd⟩ := Nat.exists_eq_add_of_le hle
  have htail := loadLE_div m (pod + v.bytes / w.bytes * w.bytes) (v.bytes % w.bytes) (w.bytes - v.bytes % w.bytes)
  have hfit : v.bytes % w.bytes + (w.bytes - v.bytes % w.bytes) = w.bytes := by omega
  rw [hfit, hload, Nat.add_assoc pod, hdm] at htail
  have hsplit := loadLE_add m (pod + v.bytes) (w.bytes - v.bytes % w.bytes) d
  rw [← hd, ← htail] at hsplit
  rw [hsplit]
  exact cut_tail_ne h1 hne ha hb hx _

/-- The low bytes of a word, which are not shifted out, are below what is cut out of it. -/
theorem low_le_cut {low o f : Nat} (ho : 0 < o) (hlow : low < 256 ^ o) (hf : 8 * o - 4 ≤ f) (r : Nat) :
    low / 2 ^ 4 ≤ (low + 256 ^ o * r) / 2 ^ 4 % 2 ^ f := by
  have hpow : 256 ^ o = 2 ^ 4 * 2 ^ (8 * o - 4) := by
    have hexp : 4 + (8 * o - 4) = 8 * o := by omega
    rw [← pow_add, hexp, pow_mul]
    rfl
  have hsmall : low / 2 ^ 4 < 2 ^ (8 * o - 4) := Nat.div_lt_of_lt_mul (by rw [← hpow]; exact hlow)
  have hcut : (low + 256 ^ o * r) / 2 ^ 4 % 2 ^ f % 2 ^ (8 * o - 4) = low / 2 ^ 4 := by
    rw [Nat.mod_mod_of_dvd _ (Nat.pow_dvd_pow 2 hf), hpow, Nat.mul_assoc, Nat.add_mul_div_left _ _ (by decide),
      Nat.add_mul_mod_self_left, Nat.mod_eq_of_lt hsmall]
  rw [← hcut]
  exact Nat.mod_le _ _

/-- A size read over the end of the header and the size of the first key is not the latter. -/
theorem cut_over_ne {u : SvwWidth} {x : Nat} (hx : x < 2 ^ 64) {low d : Nat}
    (hu : u.bytes = (narrowest x).bytes + 3 * (d + 1)) (hlow : low < 256 ^ (3 * (d + 1)))
    (htop : 128 * 256 ^ (3 * d + 2) ≤ low) :
    (low + 256 ^ (3 * (d + 1)) * (narrowest x).word x) / 2 ^ u.shift % 2 ^ u.field ≠ x := by
  have hlt := lt_payload_narrowest hx
  have hge : narrowest x = w5 → 2 ^ 24 ≤ x := by
    intro h5
    exact payload_le_of_bytes_lt (w := w4) (by rw [h5]; decide)
  have hle := bytes_le u
  have hpos := bytes_pos (narrowest x)
  have hd : d < 2 := by omega
  have hwide : 3 * (d + 1) < u.bytes := by omega
  have hf : 8 * (3 * (d + 1)) - 4 ≤ u.field := by
    cases u <;> simp only [bytes, field, payload] at hwide ⊢ <;> omega
  have hbelow := low_le_cut (by omega) hlow hf ((narrowest x).word x)
  generalize narrowest x = k at *
  interval_cases d <;> cases k <;> cases u <;>
    simp [bytes, payload, shift, field] at hlt hu hge hbelow hlow htop ⊢ <;>
    first
    | omega
    | (simp [word, highTag, lowTag, shift, payload]; omega)

/-- The last byte of a header of more than one byte a value has its top bit set. -/
theorem header_last {m : Mem} {pod : Nat} {w : SvwWidth} {max used cnt : Ulong} (h : PodHeader m pod w max used cnt)
    (h1 : w ≠ w1) : 128 ≤ (m (pod + (3 * w.bytes - 1))).toNat := by
  have hpos := bytes_pos w
  have hc := h.cnt_lt
  have hb := loadLE_byte m (pod + 2 * w.bytes) w.bytes (w.bytes - 1) (by omega)
  have hplace : pod + 2 * w.bytes + (w.bytes - 1) = pod + (3 * w.bytes - 1) := by omega
  rw [h.cnt_load, hplace] at hb
  rw [← hb]
  generalize cnt.toNat = c at *
  cases w <;> simp [word, bytes, shift, payload, highTag, lowTag] at h1 hc ⊢ <;> omega

/-- From a header read at another width, the iterator does not find the first pair: the size it reads where it starts does
not both end at the first key and tell the size of that key. -/
theorem misread_first {m : Mem} {pod : Nat} {w v : SvwWidth} {max used cnt : Ulong} {p : PodPair}
    (h : PodHeader m pod w max used cnt) (h1 : w ≠ w1) (hne : v ≠ w) (hat : PodPairAt m (pod + 3 * w.bytes) p) :
    fdUlongSvwDec m (pod + 3 * v.bytes) ≠ (p.keySz, p.keyAt (pod + 3 * w.bytes)) := by
  intro e
  obtain ⟨u, hu⟩ : ∃ u, ofNibble ((m (pod + 3 * v.bytes)).toNat / 16) = u := ⟨_, rfl⟩
  simp only [fdUlongSvwDec, decSz_eq, hu, csz_toNat, keyAt_eq, Prod.mk.injEq] at e
  obtain ⟨hval, hend⟩ := e
  rcases Nat.lt_trichotomy v.bytes w.bytes with hlt | heq | hgt
  · -- the size is read over the end of the header
    obtain ⟨d, hd⟩ := Nat.exists_eq_add_of_lt hlt
    have hub : u.bytes = (narrowest p.keySz.toNat).bytes + 3 * (d + 1) := by omega
    have hlow := loadLE_snoc m (pod + 3 * v.bytes) (3 * d + 2)
    have hlast := header_last h h1
    have hplace : pod + (3 * w.bytes - 1) = pod + 3 * v.bytes + (3 * d + 2) := by omega
    rw [hplace] at hlast
    have hsplit := loadLE_add m (pod + 3 * v.bytes) (3 * (d + 1)) (narrowest p.keySz.toNat).bytes
    have hpair : pod + 3 * v.bytes + 3 * (d + 1) = pod + 3 * w.bytes := by omega
    rw [hpair, hat.keySz, Nat.add_comm (3 * (d + 1)), ← hub] at hsplit
    have hdec := decFixed_toNat m (pod + 3 * v.bytes) u
    rw [hval, hsplit] at hdec
    refine cut_over_ne p.keySz.isLt hub (loadLE_lt _ _ _) ?_ hdec.symm
    calc 128 * 256 ^ (3 * d + 2) ≤ 256 ^ (3 * d + 2) * (m (pod + 3 * v.bytes + (3 * d + 2))).toNat := by
          rw [Nat.mul_comm]
          exact Nat.mul_le_mul_left _ hlast
      _ ≤ loadLE m (pod + 3 * v.bytes) (3 * (d + 1)) := by
          rw [Nat.mul_succ, hlow]
          exact Nat.le_add_left _ _
  · apply hne
    apply csz_injective
    rw [csz, csz, heq]
  · -- the size ends at the key but starts after the size of the key, so it is read at a narrower width
    exact decFixed_narrow_ne hu (by omega) hval

/-! ## The start of the loop -/

/-- The start of the loop over a pod whose first byte is taken for the width `v`. -/
theorem iterInit_eq {m : Mem} {pod : Nat} {v : SvwWidth} (h : fdUlongSvwDecSz m pod = v.csz) :
    fdPodIterInit m (some pod) =
      { cursor := pod + 3 * v.bytes
        stop := pod + loadLE m (pod + v.bytes) v.bytes / 2 ^ v.shift % 2 ^ v.field } := by
  simp only [fdPodIterInit, h, csz_mul_three, csz_toNat, decFixed_toNat]

/-- A loop with a round to make enumerates nothing, and ends where it stops, exactly when it starts there. -/
theorem iterLoop_empty_iff {m : Mem} {fuel : Nat} {it : FdPodIter} :
    (∃ iter, fdPodIterLoop m (fuel + 1) it = some ([], iter) ∧ iter.cursor = iter.stop) ↔ it.cursor = it.stop := by
  by_cases hdone : fdPodIterDone it = true
  · simp [fdPodIterLoop, hdone]
  · constructor
    · rintro ⟨iter, hloop, _⟩
      simp [fdPodIterLoop, hdone] at hloop
    · intro h
      simp [fdPodIterDone, h] at hdone

/-- The first info a loop enumerates is the one where it starts. -/
theorem iterLoop_first {m : Mem} {fuel : Nat} {it iter : FdPodIter} {info : FdPodInfo} {infos : List FdPodInfo}
    (h : fdPodIterLoop m fuel it = some (info :: infos, iter)) : fdPodIterInfo m it = info := by
  cases fuel with
  | zero => simp [fdPodIterLoop] at h
  | succ fuel =>
    by_cases hdone : fdPodIterDone it = true
    · simp [fdPodIterLoop, hdone] at h
    · rw [fdPodIterLoop, if_neg hdone] at h
      obtain ⟨r, _, he⟩ := Option.map_eq_some_iff.1 h
      simp only [Prod.mk.injEq, List.cons.injEq] at he
      exact he.1.1

/-- The head of a value agrees exactly when its width is taken for what it is. -/
theorem headWidth_eq_iff (x : Ulong) : svwHeadWidth x = narrowest x.toNat ↔ svwHeadAgrees x := ofNibble_word_iff x

/-- The first byte of a header is taken for the width of the head of `max`. -/
theorem header_decSz {m : Mem} {pod : Nat} {max used cnt : Ulong}
    (h : PodHeader m pod (narrowest max.toNat) max used cnt) : fdUlongSvwDecSz m pod = (svwHeadWidth max).csz := by
  rw [decSz_eq, svwHeadWidth, ← h.max_load, loadLE_head m pod _ (bytes_pos _)]

/-- An empty pod whose head does not agree is read as empty exactly by chance. -/
theorem misread_empty_iff {m : Mem} {pod : Nat} {max cnt : Ulong} (h : 3 ≤ max) (hcnt : cnt ≤ max)
    (hfit : podPairsEnd (pod + 3 * (narrowest max.toNat).bytes) [] ≤ pod + max.toNat) (hagree : ¬svwHeadAgrees max) :
    loadLE (podLayout m pod max cnt []) (pod + (svwHeadWidth max).bytes) (svwHeadWidth max).bytes /
        2 ^ (svwHeadWidth max).shift % 2 ^ (svwHeadWidth max).field = 3 * (svwHeadWidth max).bytes ↔
      PodEmptyByChance m pod max := by
  have hhead := layout_header (m := m) h hcnt hfit
  have h1 := ne_w1_of_not_agrees hagree
  have hne : svwHeadWidth max ≠ narrowest max.toNat := fun e => hagree ((headWidth_eq_iff max).1 e)
  have hpos := bytes_pos (narrowest max.toNat)
  unfold PodEmptyByChance
  dsimp only
  rcases Nat.lt_or_ge (narrowest max.toNat).bytes (2 * (svwHeadWidth max).bytes) with ha | ha
  · rcases Nat.lt_or_ge (svwHeadWidth max).bytes (3 * (narrowest max.toNat).bytes) with hb | hb
    · have hmis := misread_used hhead h1 hne ha hb
      constructor
      · intro e
        exact absurd e hmis
      · rintro (⟨hle, _⟩ | ⟨hle, _⟩) <;> omega
    · -- the read is past the header
      have hload : loadLE (podLayout m pod max cnt []) (pod + (svwHeadWidth max).bytes) (svwHeadWidth max).bytes =
          loadLE m (pod + (svwHeadWidth max).bytes) (svwHeadWidth max).bytes := by
        refine loadLE_congr fun q hq _ => ?_
        rw [layout_frame hcnt hfit (by omega)]
        exact podNew_frame m pod h (Or.inr (by omega))
      rw [hload]
      constructor
      · intro e
        exact Or.inr ⟨hb, e⟩
      · rintro (⟨hle, _⟩ | ⟨_, e⟩)
        · omega
        · exact e
  · -- the read is within the encoding of `max`
    obtain ⟨d, hd⟩ := Nat.exists_eq_add_of_le ha
    have hsub : (narrowest max.toNat).word max.toNat / 256 ^ (svwHeadWidth max).bytes % 256 ^ (svwHeadWidth max).bytes =
        loadLE (podLayout m pod max cnt []) (pod + (svwHeadWidth max).bytes) (svwHeadWidth max).bytes := by
      rw [← hhead.max_load, hd, Nat.two_mul, Nat.add_assoc, loadLE_div, loadLE_mod _ _ _ _ (Nat.le_add_right _ d)]
    rw [hsub]
    constructor
    · intro e
      exact Or.inl ⟨ha, e⟩
    · rintro (⟨_, e⟩ | ⟨hle, _⟩)
      · exact e
      · omega

end PodIterAux

/-- The iterator enumerates the pairs of a pod that they fit exactly when the heads of `max` and of all sizes agree, or the pod
is empty and happens to be read as empty. -/
theorem podIter_enumerates_iff (m : Mem) (pod : Nat) (max cnt : Ulong) (ps : List PodPair) (h : 3 ≤ max) (hcnt : cnt ≤ max)
    (hfit : podPairsEnd (pod + (3 * fdUlongSvwEncSz max).toNat) ps ≤ pod + max.toNat) :
    PodIterEnumerates m pod max cnt ps ↔
      (svwHeadAgrees max ∧ ∀ p ∈ ps, p.HeadsAgree) ∨ (ps = [] ∧ PodEmptyByChance m pod max) := by
  have hcsz : (3 * fdUlongSvwEncSz max).toNat = 3 * (narrowest max.toNat).bytes := by rw [encSz_eq, three_mul_csz]
  rw [hcsz] at hfit
  have hhead := layout_header (m := m) h hcnt hfit
  have hpairs := layout_pairs (m := m) hcnt hfit
  have hinit := iterInit_eq (header_decSz hhead)
  have hlt := max.isLt
  have hge := le_podPairsEnd ps (pod + 3 * (narrowest max.toNat).bytes)
  by_cases hagree : svwHeadAgrees max
  · -- the header is read as it is, and the loop starts at the first pair
    have hstart : fdPodIterInit (podLayout m pod max cnt ps) (some pod) =
        { cursor := pod + 3 * (narrowest max.toNat).bytes
          stop := podPairsEnd (pod + 3 * (narrowest max.toNat).bytes) ps } := by
      rw [hinit, (headWidth_eq_iff max).2 hagree, hhead.used_load, word_payload hhead.used_lt, used_toNat hfit,
        Nat.add_sub_cancel' (by omega)]
    have hloop := fun fuel hf => iterLoop_iff ps (pod + 3 * (narrowest max.toNat).bytes) fuel hf hpairs (by omega)
    constructor
    · intro he
      have h1 := he.loop _ rfl _ (Nat.lt_succ_self ps.length)
      rw [hstart, hcsz] at h1
      exact Or.inl ⟨hagree, (hloop _ (Nat.lt_succ_self ps.length)).1 h1⟩
    · intro hc
      have hall : ∀ p ∈ ps, p.HeadsAgree := by
        rcases hc with ⟨_, hall⟩ | ⟨rfl, _⟩
        · exact hall
        · simp
      refine ⟨?_, ?_⟩
      · rintro m' rfl fuel hf
        rw [hstart, hcsz]
        exact (hloop fuel hf).2 hall
      · rintro m' rfl
        rw [hcsz]
        exact infos_hold ps hpairs
  · have h1 := ne_w1_of_not_agrees hagree
    have hne : svwHeadWidth max ≠ narrowest max.toNat := fun e => hagree ((headWidth_eq_iff max).1 e)
    cases ps with
    | nil =>
      rw [← misread_empty_iff h hcnt hfit hagree]
      constructor
      · intro he
        have hl := he.loop _ rfl _ (Nat.lt_succ_self 0)
        rw [hinit] at hl
        have := iterLoop_empty_iff.1 hl
        simp only at this
        exact Or.inr ⟨rfl, by omega⟩
      · rintro (⟨ha, _⟩ | ⟨_, hchance⟩)
        · exact absurd ha hagree
        · refine ⟨?_, fun _ _ => List.Forall₂.nil⟩
          rintro m' rfl fuel hf
          obtain ⟨f, rfl⟩ : ∃ f, fuel = f + 1 := ⟨fuel - 1, by simp only [List.length_nil] at hf; omega⟩
          rw [hinit]
          exact iterLoop_empty_iff.2 (by simp only [hchance])
    | cons p ps =>
      constructor
      · intro he
        obtain ⟨iter, hl, _⟩ := he.loop _ rfl _ (Nat.lt_succ_self _)
        rw [hinit, hcsz] at hl
        have hfirst := iterLoop_first hl
        rw [iterInfo_eq] at hfirst
        exact absurd (Prod.ext (congrArg FdPodInfo.keySz hfirst) (congrArg FdPodInfo.key hfirst))
          (misread_first hhead h1 hne hpairs.1)
      · rintro (⟨ha, _⟩ | ⟨hnil, _⟩)
        · exact absurd ha hagree
        · cases hnil

/-- A pod of 80 bytes with one pair: an empty key, the type 7 and an empty value. -/
theorem podIter_enumerates_80 : PodIterEnumerates (fun _ => 0) 0 80 1 [{ key := [], valType := 7, val := [] }] :=
  (podIter_enumerates_iff (fun _ => 0) 0 80 1 [{ key := [], valType := 7, val := [] }] (by decide) (by decide)
    (by decide)).2 (Or.inl (by decide))

/-- The pairs of a pod of 64 bytes are not enumerated: the loop starts at its fourth byte. -/
theorem podIter_64_not_enumerates :
    ¬PodIterEnumerates (fun _ => 0) 0 64 1 [{ key := [], valType := 7, val := [] }] := by
  intro h
  obtain ⟨iter, hl, _⟩ := h.loop _ rfl 2 (by decide)
  have hfirst := iterLoop_first hl
  revert hfirst
  decide

end VerifyFiredancer
