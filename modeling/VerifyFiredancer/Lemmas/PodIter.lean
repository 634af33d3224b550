import VerifyFiredancer.Lemmas.PodHeader

/-!
# The pod iterator, pair by pair

`PodPairAt m c p` says the bytes at `c` are the pair `p` as the layout puts it there. The layout makes one for every pair
(`PodIterAux.putPairs_at`), `fd_pod_iter_info` tells the pair exactly when the heads of its two sizes agree
(`PodIterAux.info_eq_iff`), and then `fd_pod_iter_next` goes to the pair after it (`PodIterAux.next_eq`). The loop over the
pairs is an induction on these two (`PodIterAux.iterLoop_iff`).
-/

namespace VerifyFiredancer

open ByteMem SvwWidth SvwAux PodAux

/-- The heads of both sizes of a pair agree. -/
def PodPair.HeadsAgree (p : PodPair) : Prop := svwHeadAgrees p.keySz ∧ svwHeadAgrees p.valSz

instance (p : PodPair) : Decidable p.HeadsAgree := inferInstanceAs (Decidable (_ ∧ _))

/-- The bytes at `c` are the pair `p`, part by part. -/
structure PodPairAt (m : Mem) (c : Nat) (p : PodPair) : Prop where
  keySz : loadLE m c (narrowest p.keySz.toNat).bytes = (narrowest p.keySz.toNat).word p.keySz.toNat
  key : ∀ i (h : i < p.keyBytes.length), m (p.keyAt c + i) = p.keyBytes[i]
  type : m (p.typeAt c) = p.valType
  valSz : loadLE m (p.valSzAt c) (narrowest p.valSz.toNat).bytes = (narrowest p.valSz.toNat).word p.valSz.toNat
  val : ∀ i (h : i < p.val.length), m (p.valAt c + i) = p.val[i]

/-- The bytes from `c` on are pairs, one after the other. -/
def PodPairsAt (m : Mem) : Nat → List PodPair → Prop
  | _, [] => True
  | c, p :: ps => PodPairAt m c p ∧ PodPairsAt m (p.next c) ps

namespace PodIterAux

/-! ## Places -/

theorem keyAt_eq (p : PodPair) (c : Nat) : p.keyAt c = c + (narrowest p.keySz.toNat).bytes := by
  rw [PodPair.keyAt, encSz_toNat]

theorem valAt_eq (p : PodPair) (c : Nat) : p.valAt c = p.valSzAt c + (narrowest p.valSz.toNat).bytes := by
  rw [PodPair.valAt, encSz_toNat]

/-- Each part of a pair begins where the one before it ends. -/
theorem places (p : PodPair) (c : Nat) :
    p.keyAt c = c + (narrowest p.keySz.toNat).bytes ∧ p.typeAt c = p.keyAt c + p.keyBytes.length ∧
      p.valSzAt c = p.typeAt c + 1 ∧ p.valAt c = p.valSzAt c + (narrowest p.valSz.toNat).bytes ∧
      p.next c = p.valAt c + p.val.length :=
  ⟨keyAt_eq p c, rfl, rfl, valAt_eq p c, rfl⟩

/-- A pair takes at least its key, its value and one byte. -/
theorem next_ge (p : PodPair) (c : Nat) : c + p.keyBytes.length + p.val.length + 1 ≤ p.next c := by
  obtain ⟨hk, ht, hz, hv, hn⟩ := places p c
  omega

/-- Pairs end no earlier than they start. -/
theorem le_podPairsEnd (ps : List PodPair) : ∀ c, c ≤ podPairsEnd c ps := by
  induction ps with
  | nil => intro c; exact Nat.le_refl c
  | cons p ps ih =>
    intro c
    have h1 := next_ge p c
    have h2 := ih (p.next c)
    rw [podPairsEnd]
    omega

/-! ## The layout -/

/-- A pair read elsewhere the same is the same pair. -/
theorem PodPairAt.mono {m m' : Mem} {c : Nat} {p : PodPair} (h : PodPairAt m c p)
    (heq : ∀ q, c ≤ q → q < p.next c → m' q = m q) : PodPairAt m' c p := by
  obtain ⟨hk, ht, hz, hv, hn⟩ := places p c
  refine ⟨?_, ?_, ?_, ?_, ?_⟩
  · rw [← h.keySz]
    exact loadLE_congr fun q _ _ => heq q (by omega) (by omega)
  · intro i hi
    rw [← h.key i hi]
    exact heq _ (by omega) (by omega)
  · rw [← h.type]
    exact heq _ (by omega) (by omega)
  · rw [← h.valSz]
    exact loadLE_congr fun q _ _ => heq q (by omega) (by omega)
  · intro i hi
    rw [← h.val i hi]
    exact heq _ (by omega) (by omega)

/-- So are pairs. -/
theorem PodPairsAt.mono {m m' : Mem} (ps : List PodPair) :
    ∀ {c : Nat}, PodPairsAt m c ps → (∀ q, c ≤ q → q < podPairsEnd c ps → m' q = m q) → PodPairsAt m' c ps := by
  induction ps with
  | nil => intro c _ _; trivial
  | cons p ps ih =>
    intro c h heq
    have h1 := next_ge p c
    have h2 := le_podPairsEnd ps (p.next c)
    refine ⟨PodPairAt.mono h.1 fun q hq hq' => heq q hq ?_, ih h.2 fun q hq hq' => heq q ?_ hq'⟩
    · rw [podPairsEnd]
      omega
    · omega

/-- The memory a pair is laid out in, store by store. -/
theorem putPair_eq (m : Mem) (c : Nat) (p : PodPair) :
    podPutPair m c p =
      (storeBytes (storeLE (storeLE (storeBytes (storeLE m c (narrowest p.keySz.toNat).bytes
        ((narrowest p.keySz.toNat).word p.keySz.toNat)) (p.keyAt c) p.keyBytes) (p.typeAt c) 1 p.valType.toNat)
        (p.valSzAt c) (narrowest p.valSz.toNat).bytes ((narrowest p.valSz.toNat).word p.valSz.toNat))
        (p.valAt c) p.val, p.next c) := by
  simp only [podPutPair, enc_eq, storeUchar, PodPair.next, PodPair.valAt, PodPair.valSzAt, PodPair.typeAt, PodPair.keyAt,
    encSz_toNat]

/-- A pair is laid out where it goes and nowhere else. -/
theorem putPair_frame (m : Mem) (c : Nat) (p : PodPair) {q : Nat} (h : q < c ∨ p.next c ≤ q) :
    (podPutPair m c p).1 q = m q := by
  obtain ⟨hk, ht, hz, hv, hn⟩ := places p c
  rw [putPair_eq]
  dsimp only
  rw [storeBytes_frame _ _ (by omega), storeLE_frame _ _ (by omega), storeLE_frame _ _ (by omega),
    storeBytes_frame _ _ (by omega), storeLE_frame _ _ (by omega)]

/-- A pair is laid out. -/
theorem putPair_at (m : Mem) (c : Nat) (p : PodPair) : PodPairAt (podPutPair m c p).1 c p := by
  obtain ⟨hk, ht, hz, hv, _⟩ := places p c
  rw [putPair_eq]
  dsimp only
  refine ⟨?_, ?_, ?_, ?_, ?_⟩
  · refine (loadLE_congr fun q _ _ => ?_).trans
      (loadLE_storeLE_of_lt m c (word_lt (lt_payload_narrowest p.keySz.isLt)))
    rw [storeBytes_frame _ _ (by omega), storeLE_frame _ _ (by omega), storeLE_frame _ _ (by omega),
      storeBytes_frame _ _ (by omega)]
  · intro i hi
    rw [storeBytes_frame _ _ (by omega), storeLE_frame _ _ (by omega), storeLE_frame _ _ (by omega), storeBytes_at _ _ _ hi]
  · rw [storeBytes_frame _ _ (by omega), storeLE_frame _ _ (by omega), storeLE_at _ _ (Nat.le_refl _) (by omega)]
    simp
  · exact (loadLE_congr fun q _ _ => storeBytes_frame _ _ (by omega)).trans
      (loadLE_storeLE_of_lt _ (p.valSzAt c) (word_lt (lt_payload_narrowest p.valSz.isLt)))
  · intro i hi
    rw [storeBytes_at _ _ _ hi]

/-- A pair is laid out first, and the others after it. -/
theorem putPairs_cons (m : Mem) (c : Nat) (p : PodPair) (ps : List PodPair) :
    podPutPairs m c (p :: ps) = podPutPairs (podPutPair m c p).1 (p.next c) ps := by
  have hn : (podPutPair m c p).2 = p.next c := by rw [putPair_eq]
  rw [← hn]
  rfl

/-- Pairs are laid out from where they go on. -/
theorem putPairs_frame (ps : List PodPair) :
    ∀ (m : Mem) (c q : Nat), q < c ∨ podPairsEnd c ps ≤ q → (podPutPairs m c ps).1 q = m q := by
  induction ps with
  | nil => intro m c q _; rfl
  | cons p ps ih =>
    intro m c q hq
    have h1 := next_ge p c
    have h2 := le_podPairsEnd ps (p.next c)
    rw [podPairsEnd] at hq
    rw [putPairs_cons, ih _ _ q (by omega), putPair_frame m c p (by omega)]

/-- Pairs end where the layout says. -/
theorem putPairs_end (ps : List PodPair) : ∀ (m : Mem) (c : Nat), (podPutPairs m c ps).2 = podPairsEnd c ps := by
  induction ps with
  | nil => intro m c; rfl
  | cons p ps ih =>
    intro m c
    rw [putPairs_cons, ih, podPairsEnd]

/-- Pairs are laid out. -/
theorem putPairs_at (ps : List PodPair) : ∀ (m : Mem) (c : Nat), PodPairsAt (podPutPairs m c ps).1 c ps := by
  induction ps with
  | nil => intro m c; trivial
  | cons p ps ih =>
    intro m c
    rw [putPairs_cons]
    refine ⟨PodPairAt.mono (putPair_at m c p) fun q _ hq => ?_, ih _ _⟩
    exact putPairs_frame ps _ _ q (Or.inl hq)

/-! ## One step of the iterator -/

/-- The info of a pair, as two decodings of a size. -/
theorem iterInfo_eq (m : Mem) (it : FdPodIter) :
    fdPodIterInfo m it =
      { keySz := (fdUlongSvwDec m it.cursor).1
        key := (fdUlongSvwDec m it.cursor).2
        valType := ((m ((fdUlongSvwDec m it.cursor).2 + (fdUlongSvwDec m it.cursor).1.toNat)).toNat : Int)
        valSz := (fdUlongSvwDec m ((fdUlongSvwDec m it.cursor).2 + (fdUlongSvwDec m it.cursor).1.toNat + 1)).1
        val := (fdUlongSvwDec m ((fdUlongSvwDec m it.cursor).2 + (fdUlongSvwDec m it.cursor).1.toNat + 1)).2
        parent := none } := rfl

/-- The sizes of a pair that ends within 64 bits. -/
theorem keySz_toNat {p : PodPair} {c : Nat} (h : p.next c < c + 2 ^ 64) : p.keySz.toNat = p.keyBytes.length := by
  have := next_ge p c
  rw [PodPair.keySz, BitVec.toNat_ofNat, Nat.mod_eq_of_lt (by omega)]

theorem valSz_toNat {p : PodPair} {c : Nat} (h : p.next c < c + 2 ^ 64) : p.valSz.toNat = p.val.length := by
  have := next_ge p c
  rw [PodPair.valSz, BitVec.toNat_ofNat, Nat.mod_eq_of_lt (by omega)]

/-- The size of a key that agrees is read and leads to its key. -/
theorem dec_key {m : Mem} {c : Nat} {p : PodPair} (h : PodPairAt m c p) (ha : svwHeadAgrees p.keySz) :
    fdUlongSvwDec m c = (p.keySz, p.keyAt c) := by
  rw [dec_of_word h.keySz ha, keyAt_eq]

/-- The size of a value that agrees is read and leads to its value. -/
theorem dec_val {m : Mem} {c : Nat} {p : PodPair} (h : PodPairAt m c p) (ha : svwHeadAgrees p.valSz) :
    fdUlongSvwDec m (p.valSzAt c) = (p.valSz, p.valAt c) := by
  rw [dec_of_word h.valSz ha, valAt_eq]

/-- `fd_pod_iter_info` tells a pair exactly when the heads of its sizes agree. -/
theorem info_eq_iff {m : Mem} {c : Nat} (stop : Nat) {p : PodPair} (h : PodPairAt m c p) (hlt : p.next c < c + 2 ^ 64) :
    fdPodIterInfo m { cursor := c, stop } = p.infoAt c ↔ p.HeadsAgree := by
  have hksz := keySz_toNat hlt
  have htype : p.keyAt c + p.keyBytes.length = p.typeAt c := rfl
  have hval : p.typeAt c + 1 = p.valSzAt c := rfl
  rw [iterInfo_eq]
  constructor
  · intro e
    have hk : svwHeadAgrees p.keySz := (dec_of_word_iff h.keySz).1 (congrArg FdPodInfo.keySz e)
    have hv := congrArg FdPodInfo.valSz e
    simp only [dec_key h hk, hksz, htype, hval] at hv
    exact ⟨hk, (dec_of_word_iff h.valSz).1 hv⟩
  · rintro ⟨hk, hv⟩
    simp only [dec_key h hk, hksz, htype, hval, dec_val h hv, h.type]
    rfl

/-- `fd_pod_iter_next` goes from a pair whose heads agree to the pair after it. -/
theorem next_eq {m : Mem} {c stop : Nat} {p : PodPair} (h : PodPairAt m c p) (hlt : p.next c < c + 2 ^ 64)
    (ha : p.HeadsAgree) : fdPodIterNext m { cursor := c, stop } = { cursor := p.next c, stop } := by
  have hksz := keySz_toNat hlt
  have hvsz := valSz_toNat hlt
  have hn : p.next c = p.valAt c + p.val.length := rfl
  have hz : p.valSzAt c = p.typeAt c + 1 := rfl
  have ht : p.typeAt c = p.keyAt c + p.keyBytes.length := rfl
  have hk : p.keyAt c = c + (fdUlongSvwEncSz p.keySz).toNat := rfl
  have hv : p.valAt c = p.valSzAt c + (fdUlongSvwEncSz p.valSz).toNat := rfl
  have ek := dec_key h ha.1
  have ev := dec_val h ha.2
  have fk := congrArg Prod.fst ek
  have fv := congrArg Prod.fst ev
  have sk := (decSz_of_word_iff h.keySz).2 ha.1
  have sv := (decSz_of_word_iff h.valSz).2 ha.2
  simp only [fdUlongSvwDec] at fk fv
  have ck : c + (fdUlongSvwDecSz m c + p.keySz).toNat = p.typeAt c := by
    rw [sk, BitVec.toNat_add, hksz, Nat.mod_eq_of_lt (by omega)]
    omega
  have cv : p.valSzAt c + (fdUlongSvwDecSz m (p.valSzAt c) + p.valSz).toNat = p.next c := by
    rw [sv, BitVec.toNat_add, hvsz, Nat.mod_eq_of_lt (by omega)]
    omega
  rw [hz] at fv cv
  simp only [fdPodIterNext, fk, ck, fv, cv]

/-! ## The loop -/

/-- The loop over pairs enumerates them exactly when the heads of all their sizes agree. -/
theorem iterLoop_iff {m : Mem} (ps : List PodPair) :
    ∀ (c fuel : Nat), ps.length < fuel → PodPairsAt m c ps → podPairsEnd c ps < c + 2 ^ 64 →
      ((∃ iter, fdPodIterLoop m fuel { cursor := c, stop := podPairsEnd c ps } = some (podInfos c ps, iter) ∧
        iter.cursor = iter.stop) ↔ ∀ p ∈ ps, p.HeadsAgree) := by
  induction ps with
  | nil =>
    intro c fuel hf _ _
    obtain ⟨f, rfl⟩ := Nat.exists_eq_add_of_lt hf
    simp [fdPodIterLoop, fdPodIterDone, podPairsEnd, podInfos]
  | cons p ps ih =>
    intro c fuel hf hat hlt
    obtain ⟨f, rfl⟩ : ∃ f, fuel = f + 1 := ⟨fuel - 1, by simp only [List.length_cons] at hf; omega⟩
    have h1 := next_ge p c
    have h2 := le_podPairsEnd ps (p.next c)
    have hend : podPairsEnd c (p :: ps) = podPairsEnd (p.next c) ps := rfl
    rw [hend] at hlt ⊢
    have hdone : fdPodIterDone { cursor := c, stop := podPairsEnd (p.next c) ps } = false := by
      simp only [fdPodIterDone, decide_eq_false_iff_not]
      omega
    have htail := ih (p.next c) f (by simp only [List.length_cons] at hf; omega) hat.2 (by omega)
    have hinfo := info_eq_iff (podPairsEnd (p.next c) ps) hat.1 (by omega)
    rw [List.forall_mem_cons, ← htail]
    simp only [fdPodIterLoop, hdone, Bool.false_eq_true, if_false, podInfos]
    constructor
    · rintro ⟨iter, hloop, hstop⟩
      obtain ⟨⟨infos, iter'⟩, hrest, he⟩ := Option.map_eq_some_iff.1 hloop
      simp only [Prod.mk.injEq, List.cons.injEq] at he
      obtain ⟨⟨hhead, rfl⟩, rfl⟩ := he
      have ha := hinfo.1 hhead
      rw [next_eq hat.1 (by omega) ha] at hrest
      exact ⟨ha, iter', hrest, hstop⟩
    · rintro ⟨ha, iter, hrest, hstop⟩
      refine ⟨iter, ?_, hstop⟩
      rw [next_eq hat.1 (by omega) ha, hrest, hinfo.2 ha]
      rfl

end PodIterAux

end VerifyFiredancer
