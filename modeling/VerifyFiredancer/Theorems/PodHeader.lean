import VerifyFiredancer.Lemmas.PodHeader

/-!
# The pod header behaves as a triple

The abstract header is the triple (max, used, cnt) with `used` and `cnt` at most `max`; its operations set one of the two.
The header of the source tracks it, through any sequence of rewrites in place, exactly when the head of `max` agrees: every
accessor first asks `fd_ulong_svw_dec_sz` for the width of the first header value.
-/

namespace VerifyFiredancer

open ByteMem SvwWidth SvwAux PodAux

/-! ## The abstract header -/

/-- The header of a pod of size `max`, for what it says: how many bytes are used and how many pairs there are, each at most
`max`. -/
structure PodTriple (max : Ulong) where
  used : Ulong
  cnt : Ulong
  used_le : used ≤ max
  cnt_le : cnt ≤ max

/-- A rewrite in place of `used` or `cnt`, to a value that is at most `max`. -/
inductive PodRewrite (max : Ulong) where
  | used (v : Ulong) (h : v ≤ max)
  | cnt (v : Ulong) (h : v ≤ max)

/-- The triple after a rewrite. -/
def PodTriple.set {max : Ulong} (t : PodTriple max) : PodRewrite max → PodTriple max
  | .used v h => { t with used := v, used_le := h }
  | .cnt v h => { t with cnt := v, cnt_le := h }

/-- The triple of a new pod: the header is used, there are no pairs. -/
def PodTriple.new {max : Ulong} (h : 3 ≤ max) : PodTriple max where
  used := 3 * fdUlongSvwEncSz max
  cnt := 0
  used_le := by
    rw [BitVec.le_def, encSz_eq, three_mul_csz]
    exact header_le_max (BitVec.le_def.1 h)
  cnt_le := BitVec.le_def.2 (Nat.zero_le _)

/-- A rewrite as the source makes it: `fd_ulong_svw_enc_fixed` at the place of the value, in the width of `max`. -/
def podRewrite (m : Mem) (pod : Nat) {max : Ulong} : PodRewrite max → Mem
  | .used v _ => (fdUlongSvwEncFixed m (pod + (fdUlongSvwEncSz max).toNat) (fdUlongSvwEncSz max) v).1
  | .cnt v _ => (fdUlongSvwEncFixed m (pod + (2 * fdUlongSvwEncSz max).toNat) (fdUlongSvwEncSz max) v).1

/-- The header at `pod`, made in the memory `m`, behaves as the triple.
1. The constructor succeeds, and writes only inside the first `max` bytes.
2. A new pod has its `max`, the header used, no pairs and the rest available.
3. Through any rewrites, the accessors give the current triple.
4. After any rewrites, a reset gives the header the bytes the constructor gave it and changes no other byte. -/
structure PodHeaderTracks (m : Mem) (pod : Nat) (max : Ulong) (h : 3 ≤ max) : Prop where
  new : (fdPodNew m (some pod) max).2 = some pod
  inside : ∀ p, p < pod ∨ pod + max.toNat ≤ p → (fdPodNew m (some pod) max).1 p = m p
  fresh : fdPodMax (fdPodNew m (some pod) max).1 pod = max ∧
    fdPodUsed (fdPodNew m (some pod) max).1 pod = 3 * fdUlongSvwEncSz max ∧
    fdPodCnt (fdPodNew m (some pod) max).1 pod = 0 ∧
    fdPodAvail (fdPodNew m (some pod) max).1 pod = max - 3 * fdUlongSvwEncSz max
  tracks : ∀ ws : List (PodRewrite max), ∀ m', m' = ws.foldl (podRewrite · pod) (fdPodNew m (some pod) max).1 →
    ∀ t, t = ws.foldl PodTriple.set (PodTriple.new h) →
      fdPodMax m' pod = max ∧ fdPodUsed m' pod = t.used ∧ fdPodCnt m' pod = t.cnt ∧ fdPodAvail m' pod = max - t.used
  reset : ∀ ws : List (PodRewrite max), ∀ m', m' = ws.foldl (podRewrite · pod) (fdPodNew m (some pod) max).1 →
    (fdPodReset m' (some pod)).2 = some pod ∧
    (∀ p, pod ≤ p → p < pod + (3 * fdUlongSvwEncSz max).toNat →
      (fdPodReset m' (some pod)).1 p = (fdPodNew m (some pod) max).1 p) ∧
    (∀ p, p < pod ∨ pod + (3 * fdUlongSvwEncSz max).toNat ≤ p → (fdPodReset m' (some pod)).1 p = m' p)

namespace PodHeaderAux

/-- A rewrite in place takes a header to the header of the triple after it. -/
theorem podRewrite_header {m : Mem} {pod : Nat} {max : Ulong} {t : PodTriple max}
    (h : PodHeader m pod (narrowest max.toNat) max t.used t.cnt) (r : PodRewrite max) :
    PodHeader (podRewrite m pod r) pod (narrowest max.toNat) max (t.set r).used (t.set r).cnt := by
  cases r with
  | used v hv =>
    simp only [podRewrite, encSz_eq, csz_toNat, PodTriple.set]
    exact h.setUsed (lt_payload_of_le hv)
  | cnt v hv =>
    simp only [podRewrite, encSz_eq, two_mul_csz, PodTriple.set]
    exact h.setCnt (lt_payload_of_le hv)

/-- Any sequence of rewrites does. -/
theorem podRewrites_header {pod : Nat} {max : Ulong} (ws : List (PodRewrite max)) :
    ∀ {m : Mem} {t : PodTriple max}, PodHeader m pod (narrowest max.toNat) max t.used t.cnt →
      PodHeader (ws.foldl (podRewrite · pod) m) pod (narrowest max.toNat) max (ws.foldl PodTriple.set t).used
        (ws.foldl PodTriple.set t).cnt := by
  induction ws with
  | nil => intro m t h; exact h
  | cons r ws ih =>
    intro m t h
    rw [List.foldl_cons, List.foldl_cons]
    exact ih (podRewrite_header h r)

/-- The header of a new pod, in terms of its triple. -/
theorem podNew_triple (m : Mem) (pod : Nat) {max : Ulong} (h : 3 ≤ max) :
    PodHeader (fdPodNew m (some pod) max).1 pod (narrowest max.toNat) max (PodTriple.new h).used (PodTriple.new h).cnt := by
  have hn := podNew_header m pod h
  rw [← encSz_eq] at hn
  exact hn

/-- A reset that finds the width of the header rewrites `used` and `cnt` to what they were in a new pod. -/
theorem podReset_eq {m : Mem} {pod : Nat} {w : SvwWidth} (h : fdUlongSvwDecSz m pod = w.csz) :
    fdPodReset m (some pod) = ((fdUlongSvwEncFixed (fdUlongSvwEncFixed m (pod + w.bytes) w.csz (3 * w.csz)).1
      (pod + 2 * w.bytes) w.csz 0).1, some pod) := by
  simp only [fdPodReset, h, csz_toNat, csz_mul_two]

end PodHeaderAux

open PodHeaderAux

/-- The header of a pod behaves as its triple exactly when the head of `max` agrees. -/
theorem podHeader_tracks_iff (m : Mem) (pod : Nat) (max : Ulong) (h : 3 ≤ max) :
    PodHeaderTracks m pod max h ↔ svwHeadAgrees max := by
  have hnew := podNew_header m pod h
  constructor
  · intro ht
    exact hnew.max_iff.1 ht.fresh.1
  · intro hagree
    have hsz : (3 * fdUlongSvwEncSz max).toNat = 3 * (narrowest max.toNat).bytes := by rw [encSz_eq, three_mul_csz]
    have hle := header_le_max (BitVec.le_def.1 h)
    -- every memory the rewrites reach holds the header of the current triple
    have hat : ∀ ws : List (PodRewrite max), PodHeader (ws.foldl (podRewrite · pod) (fdPodNew m (some pod) max).1) pod
        (narrowest max.toNat) max (ws.foldl PodTriple.set (PodTriple.new h)).used
        (ws.foldl PodTriple.set (PodTriple.new h)).cnt := fun ws => podRewrites_header ws (podNew_triple m pod h)
    refine ⟨by rw [podNew_eq m pod h], ?_, ?_, ?_, ?_⟩
    · intro p hp
      exact podNew_frame m pod h (by omega)
    · exact (podNew_triple m pod h).accessors (hnew.decSz_iff.2 hagree)
    · rintro ws m' rfl t rfl
      exact (hat ws).accessors ((hat ws).decSz_iff.2 hagree)
    · rintro ws m' rfl
      have hc : (0 : Ulong).toNat < 2 ^ (narrowest max.toNat).payload := Nat.two_pow_pos _
      rw [podReset_eq ((hat ws).decSz_iff.2 hagree), hsz]
      refine ⟨rfl, ?_, ?_⟩
      · exact (((hat ws).setUsed (three_mul_csz_lt _)).setCnt hc).bytes_eq hnew
      · intro p hp
        show (fdUlongSvwEncFixed _ _ _ 0).1 p = _
        rw [encFixed_frame _ _ _ hc (by omega), encFixed_frame _ _ _ (three_mul_csz_lt _) (by omega)]

/-- A pod of 80 bytes: its size is encoded in two bytes, the first of which has the high nibble eight. -/
theorem podHeader_tracks_80 : PodHeaderTracks (fun _ => 0) 0 80 (by decide) :=
  (podHeader_tracks_iff (fun _ => 0) 0 80 (by decide)).2 (by decide)

/-- The header of a pod of 64 bytes does not: a new pod says its `max` is zero. -/
theorem podHeader_64_not_tracks : ¬PodHeaderTracks (fun _ => 0) 0 64 (by decide) := by
  intro h
  have hmax := h.fresh.1
  revert hmax
  decide

end VerifyFiredancer
