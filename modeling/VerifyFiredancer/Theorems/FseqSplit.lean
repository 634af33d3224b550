import VerifyFiredancer.FseqOverride

/-!
# The accessors of a split fseq

The word before the sequence word was its initial value when both were of one object. In the stub the joined pointer is the start
of an object of its own, and `fd_fseq_seq0` reads before it, whatever the size and the updates (`fseq_never_agrees`). The other
accessors do better: a query gives the last update and a leave the header, and the application region is there when the array is
of 14 words or more (`fseq_parts`).
-/

namespace VerifyFiredancer

open ObjectHeap

/-- The application region is 96 allocated bytes that do not have the sequence word. -/
def AppRegion (heap : ObjHeap Ulong) (fseq : Ptr) : Prop :=
  ∃ p, fdFseqAppLaddr fseq = some p ∧
    ∀ k, k < fdFseqAppFootprint / 8 → (load heap (some (p.add k))).isSome ∧ some (p.add k) ≠ fseq

/-- After a run, every accessor agrees with what was done. -/
def FseqAgrees (env : FseqEnv) (size seq0 : Ulong) (updates : List Ulong) : Prop :=
  ∃ s shfseq fseq, fseqRun env size seq0 updates = some (s, shfseq, fseq) ∧
    fdFseqQuery s.heap fseq = some (updates.getLastD seq0) ∧ fdFseqSeq0 s.heap fseq = some seq0 ∧ AppRegion s.heap fseq ∧
    fdFseqLeave s fseq = shfseq

/-- The accessors agree after every run. -/
def FseqAlwaysAgrees : Prop := ∀ env size seq0 updates, 1 ≤ size.toNat → FseqAgrees env size seq0 updates

/-- What is known of `fd_fseq_new`: it keeps the words of the header in number and leaves the magic in the first. -/
def FseqEnv.Formats (env : FseqEnv) : Prop :=
  ∀ ws seq0, ws ≠ [] → (env.format ws seq0).length = ws.length ∧ (env.format ws seq0)[0]? = some fdFseqMagic

namespace FseqSplitAux

/-- A new object of words that are not none. -/
theorem boundedMallocHavocWords_eq (env : FseqEnv) (heap : ObjHeap Ulong) {size : Ulong} (h : size ≠ 0) :
    boundedMallocHavocWords env heap size =
      (heap ++ [(List.range (size.toNat / 8)).map env.havoc], some ⟨heap.length, 0⟩) := by
  rw [boundedMallocHavocWords, if_neg h]
  rfl

/-- The array that a run makes begins an object, if it is there. -/
theorem initializeBoundedSeq_start {env : FseqEnv} {s s' : FseqState} {size seq0 : Ulong} {p : Ptr}
    (h : initializeBoundedSeq env s size seq0 = some (s', p)) (hs : s.gUlPtr = none) : ∃ b, s'.gUlPtr = some ⟨b, 0⟩ := by
  rw [initializeBoundedSeq, if_pos hs] at h
  by_cases hsize : (size + 1) * sizeofUlong = 0
  · rw [boundedMallocHavocWords, if_pos hsize] at h
    exact absurd h nofun
  · rw [boundedMallocHavocWords_eq env s.heap hsize] at h
    simp only [Option.bind_eq_bind, Option.bind_eq_some_iff] at h
    obtain ⟨heap, _, hret⟩ := h
    cases hret
    exact ⟨_, rfl⟩

/-- A join gives NULL or the array. -/
theorem fdFseqJoin_cases {env : FseqEnv} {s : FseqState} {shfseq fseq : Ptr} (h : fdFseqJoin env s shfseq = some fseq) :
    fseq = none ∨ fseq = s.gUlPtr := by
  rw [fdFseqJoin] at h
  by_cases hnull : shfseq = none
  · rw [if_pos hnull] at h
    exact Or.inl (Option.some.inj h).symm
  · rw [if_neg hnull] at h
    by_cases halign : env.hiddenAddr &&& (fdFseqAlign - 1) ≠ 0
    · rw [if_pos halign] at h
      exact Or.inl (Option.some.inj h).symm
    · rw [if_neg halign, Option.bind_eq_bind, Option.bind_eq_some_iff] at h
      obtain ⟨magic, _, hret⟩ := h
      by_cases hmagic : magic ≠ fdFseqMagic
      · rw [if_pos hmagic] at hret
        exact Or.inl (Option.some.inj hret).symm
      · rw [if_neg hmagic] at hret
        exact Or.inr (Option.some.inj hret).symm

/-- What a run joins is NULL or the start of an object. -/
theorem fseqRun_start {env : FseqEnv} {size seq0 : Ulong} {updates : List Ulong} {s : FseqState} {shfseq fseq : Ptr}
    (h : fseqRun env size seq0 updates = some (s, shfseq, fseq)) : fseq = none ∨ ∃ b, fseq = some ⟨b, 0⟩ := by
  simp only [fseqRun, fdFseqNew, Option.bind_eq_bind, Option.bind_eq_some_iff, Option.pure_def, Option.some.injEq, Prod.exists,
    Prod.mk.injEq] at h
  obtain ⟨s1, array, harray, s2, shfseq', hnew, fseq', hjoin, heap, _, _, _, rfl⟩ := h
  obtain ⟨b, hb⟩ := initializeBoundedSeq_start harray rfl
  obtain ⟨p, _, ws, _, rfl, rfl⟩ := hnew
  rcases fdFseqJoin_cases hjoin with hnull | hptr
  · exact Or.inl hnull
  · exact Or.inr ⟨b, hptr.trans hb⟩

/-- There is no word before what a run joins. -/
theorem fdFseqSeq0_eq_none {heap : ObjHeap Ulong} {fseq : Ptr} (h : fseq = none ∨ ∃ b, fseq = some ⟨b, 0⟩) :
    fdFseqSeq0 heap fseq = none := by
  rcases h with rfl | ⟨b, rfl⟩
  · rfl
  · exact load_before heap (show (0 : Int) + -1 < 0 by decide)

/-! ## The other accessors -/

/-- Updates of the first word of the array. -/
theorem updates_eq (hdr : List Ulong) (updates : List Ulong) :
    ∀ (ws : List Ulong) (v : Ulong), ws[0]? = some v →
      ∃ ws', updates.foldlM (fun heap seq => fdFseqUpdate heap (some ⟨1, 0⟩) seq) [hdr, ws] = some [hdr, ws'] ∧
        ws'.length = ws.length ∧ ws'[0]? = some (updates.getLastD v) := by
  induction updates with
  | nil => exact fun ws v hv => ⟨ws, rfl, rfl, hv⟩
  | cons seq updates ih =>
    intro ws v hv
    have hlt : 0 < ws.length := (List.getElem?_eq_some_iff.1 hv).1
    have hstore : fdFseqUpdate [hdr, ws] (some ⟨1, 0⟩) seq = some [hdr, ws.set 0 seq] :=
      store_of_get (p := ⟨1, 0⟩) rfl (Int.le_refl 0) hlt
    obtain ⟨ws', hfold, hlen, hhead⟩ := ih (ws.set 0 seq) seq (by simp [hlt])
    refine ⟨ws', ?_, ?_, ?_⟩
    · rw [List.foldlM_cons, hstore]
      exact hfold
    · rw [hlen, List.length_set]
    · rw [hhead, List.getLastD_cons]

/-- The application region after the first word of an array of `n` words. -/
theorem appRegion_iff (hdr ws : List Ulong) : AppRegion [hdr, ws] (some ⟨1, 0⟩) ↔ 14 ≤ ws.length := by
  have hload : ∀ k : Nat, load [hdr, ws] (some (Loc.add ⟨1, 2⟩ k)) = ws[2 + k]? := by
    intro k
    have hobj : [hdr, ws][(Loc.add ⟨1, 2⟩ k).obj]? = some ws := rfl
    have hidx : ((2 : Int) + k).toNat = 2 + k := by omega
    rw [load_of_get hobj (show (0 : Int) ≤ 2 + k by omega)]
    exact congrArg (ws[·]?) hidx
  constructor
  · rintro ⟨p, hp, hregion⟩
    obtain rfl := Option.some.inj hp
    have hlast : (load [hdr, ws] (some (Loc.add ⟨1, 2⟩ (11 : Nat)))).isSome := (hregion 11 (by decide)).1
    rw [hload 11] at hlast
    obtain ⟨w, hw⟩ := Option.isSome_iff_exists.1 hlast
    have := (List.getElem?_eq_some_iff.1 hw).1
    omega
  · intro hlen
    refine ⟨⟨1, 2⟩, rfl, fun k hk => ⟨?_, fun heq => ?_⟩⟩
    · have hk' : k < 12 := hk
      rw [hload k, List.getElem?_eq_getElem (by omega)]
      rfl
    · have hidx : (2 : Int) + k = 0 := congrArg Loc.idx (Option.some.inj heq)
      omega

/-- A run from a header that is aligned, when the array is not of nothing. -/
theorem fseqRun_eq {env : FseqEnv} (hf : env.Formats) (halign : env.hiddenAddr &&& (fdFseqAlign - 1) = 0) {size : Ulong}
    (hsize : (size + 1) * sizeofUlong ≠ 0) (seq0 : Ulong) (updates : List Ulong) :
    ∃ hdr ws, fseqRun env size seq0 updates = some (⟨[hdr, ws], some ⟨1, 0⟩, some ⟨0, 0⟩⟩, some ⟨0, 0⟩, some ⟨1, 0⟩) ∧
      ws.length = ((size + 1) * sizeofUlong).toNat / 8 ∧ ws[0]? = some (updates.getLastD seq0) := by
  have halloc : allocateFseq env FseqState.init = ⟨[(List.range 16).map env.havoc], none, some ⟨0, 0⟩⟩ := rfl
  generalize hhdr : (List.range 16).map env.havoc = hdr at halloc
  have hne : hdr ≠ [] := by
    rw [← hhdr]
    simp
  -- the array has at least one word
  have hwords : 0 < ((size + 1) * sizeofUlong).toNat / 8 := by
    have hmul : ((size + 1) * sizeofUlong).toNat = ((size + 1).toNat * 8) % 2 ^ 64 := BitVec.toNat_mul _ _
    have hpos : ((size + 1) * sizeofUlong).toNat ≠ 0 := fun h => hsize (BitVec.eq_of_toNat_eq h)
    omega
  generalize hws : (List.range (((size + 1) * sizeofUlong).toNat / 8)).map env.havoc = ws
  have hlen : ws.length = ((size + 1) * sizeofUlong).toNat / 8 := by
    rw [← hws, List.length_map, List.length_range]
  have hseq : initializeBoundedSeq env ⟨[hdr], none, some ⟨0, 0⟩⟩ size seq0 =
      some (⟨[hdr, ws.set 0 seq0], some ⟨1, 0⟩, some ⟨0, 0⟩⟩, some ⟨1, 0⟩) := by
    have hstore : store [hdr, ws] (some ⟨1, 0⟩) seq0 = some [hdr, ws.set 0 seq0] :=
      store_of_get (p := ⟨1, 0⟩) rfl (Int.le_refl 0) (by rw [hlen]; exact hwords)
    rw [initializeBoundedSeq, if_pos rfl, boundedMallocHavocWords_eq env [hdr] hsize, hws]
    simp only [List.cons_append, List.nil_append, List.length_singleton, hstore]
    rfl
  obtain ⟨hflen, hmagic⟩ := hf hdr seq0 hne
  have hjoin : fdFseqJoin env ⟨[env.format hdr seq0, ws.set 0 seq0], some ⟨1, 0⟩, some ⟨0, 0⟩⟩ (some ⟨0, 0⟩) =
      some (some ⟨1, 0⟩) := by
    have hload : load [env.format hdr seq0, ws.set 0 seq0] (some ⟨0, 0⟩) = some fdFseqMagic := hmagic
    rw [fdFseqJoin, if_neg nofun, if_neg (not_not_intro halign), hload]
    rfl
  obtain ⟨ws', hupdates, hlen', hlast⟩ := updates_eq (env.format hdr seq0) updates (ws.set 0 seq0) seq0 (by
    have : 0 < ws.length := by omega
    simp [this])
  refine ⟨env.format hdr seq0, ws', ?_, ?_, hlast⟩
  · rw [fseqRun, halloc, hseq]
    simp only [fdFseqNew, Option.bind_eq_bind, Option.bind_some, Option.pure_def, List.getElem?_cons_zero, List.set_cons_zero, hjoin,
      hupdates]
  · rw [hlen', List.length_set, hlen]

end FseqSplitAux

open FseqSplitAux

/-- The accessors agree after no run: there is no word before the sequence word. -/
theorem fseq_never_agrees (env : FseqEnv) (size seq0 : Ulong) (updates : List Ulong) : ¬FseqAgrees env size seq0 updates := by
  rintro ⟨s, shfseq, fseq, hrun, _, hseq0, _, _⟩
  rw [fdFseqSeq0_eq_none (fseqRun_start hrun)] at hseq0
  exact absurd hseq0 nofun

/-- What does hold: when the header is aligned and the array is not of nothing, a query gives the last update, a leave gives the
header, and the application region is there when the array has 14 words. -/
theorem fseq_parts {env : FseqEnv} (hf : env.Formats) (halign : env.hiddenAddr &&& (fdFseqAlign - 1) = 0) {size : Ulong}
    (hsize : (size + 1) * sizeofUlong ≠ 0) (seq0 : Ulong) (updates : List Ulong) :
    ∃ s shfseq fseq, fseqRun env size seq0 updates = some (s, shfseq, fseq) ∧
      fdFseqQuery s.heap fseq = some (updates.getLastD seq0) ∧ fdFseqLeave s fseq = shfseq ∧
      (AppRegion s.heap fseq ↔ 14 ≤ ((size + 1) * sizeofUlong).toNat / 8) := by
  obtain ⟨hdr, ws, hrun, hlen, hlast⟩ := fseqRun_eq hf halign hsize seq0 updates
  refine ⟨_, _, _, hrun, ?_, rfl, ?_⟩
  · have hobj : [hdr, ws][(⟨1, 0⟩ : Loc).obj]? = some ws := rfl
    exact (load_of_get hobj (Int.le_refl 0)).trans hlast
  · rw [← hlen]
    exact appRegion_iff hdr ws

/-- One word after the sequence word, no updates. -/
theorem fseq_seq0_outside : ¬FseqAlwaysAgrees := by
  intro h
  obtain ⟨s, shfseq, fseq, hrun, _, hseq0, _, _⟩ :=
    h ⟨fun _ => 0, 0, fun ws seq0 => fdFseqMagic :: seq0 :: ws.drop 2⟩ 1 7 [] (by decide)
  rw [fdFseqSeq0_eq_none (fseqRun_start hrun)] at hseq0
  exact absurd hseq0 nofun

end VerifyFiredancer
