import VerifyFiredancer.TcachePacked

/-!
# A tcache in a window of memory

An operation on an array that is a window of a memory (`pre ++ (a ++ post)`, with the pointer at its first word) does what the
operation on the array does, and leaves the words before and after the window as they are. So the operations on the region of a
tcache, where ring and map are two windows side by side, are those on its unpacked fields: `TcachePackedAux.step_at`.
-/

namespace VerifyFiredancer

/-- The words of the region of a tcache: its header, its ring and its map. -/
def FdTcache.words (magic : Ulong) (s : FdTcache) : List Ulong :=
  [magic, s.depth, s.mapCnt, s.oldest] ++ (s.ring ++ s.map)

namespace TcachePackedAux

/-! ## Windows -/

section Window

variable {pre post a a' : List Ulong} {i v : Ulong}

/-- A read of the window. -/
theorem ld_window (h : ldUlong a i = some v) : ldWord (pre ++ (a ++ post)) pre.length i = some v := by
  obtain ⟨hi, hv⟩ := List.getElem?_eq_some_iff.1 h
  rw [ldWord, List.getElem?_append_right (Nat.le_add_right _ _), Nat.add_sub_cancel_left, List.getElem?_append_left hi]
  exact h

/-- A write to the window. -/
theorem st_window (pre post : List Ulong) (h : stUlong a i v = some a') :
    stWord (pre ++ (a ++ post)) pre.length i v = some (pre ++ (a' ++ post)) ∧ a'.length = a.length := by
  unfold stUlong at h
  split at h
  · next hi =>
    cases h
    refine ⟨?_, List.length_set⟩
    rw [stWord, if_pos (by simp only [List.length_append]; omega), List.set_append_right _ _ (Nat.le_add_right _ _),
      Nat.add_sub_cancel_left, List.set_append_left _ _ hi]
  · cases h

/-- The reset loop, when `k` words are done. -/
theorem resetFold_window (pre post : List Ulong) :
    ∀ (l : List Nat) (a a' : List Ulong),
      l.foldlM (fun a idx => stUlong a (BitVec.ofNat 64 idx) fdTcacheTagNull) a = some a' →
        l.foldlM (fun mem idx => stWord mem pre.length (BitVec.ofNat 64 idx) fdTcacheTagNull) (pre ++ (a ++ post)) =
            some (pre ++ (a' ++ post)) ∧ a'.length = a.length := by
  intro l
  induction l with
  | nil =>
    intro a a' h
    cases h
    exact ⟨rfl, rfl⟩
  | cons idx l ih =>
    intro a a' h
    rw [List.foldlM_cons, Option.bind_eq_bind, Option.bind_eq_some_iff] at h
    obtain ⟨b, hb, h⟩ := h
    obtain ⟨hst, hlen⟩ := st_window pre post hb
    obtain ⟨hrest, hlen'⟩ := ih b a' h
    refine ⟨?_, hlen'.trans hlen⟩
    rw [List.foldlM_cons, hst]
    exact hrest

theorem resetLoop_window (pre post : List Ulong) {cnt : Ulong} (h : fdTcacheResetLoop a cnt = some a') :
    fdTcacheResetLoopAt (pre ++ (a ++ post)) pre.length cnt = some (pre ++ (a' ++ post)) ∧ a'.length = a.length :=
  resetFold_window pre post _ a a' h

end Window

/-! ## Probing -/

section Probe

variable {pre post : List Ulong} {mapCnt : Ulong}

theorem queryLoop_window {map : List Ulong} (tag : Ulong) :
    ∀ (fuel : Nat) (idx : Ulong) {r}, fdTcacheQueryLoop map mapCnt tag fuel idx = some r →
      fdTcacheQueryLoopAt (pre ++ (map ++ post)) pre.length mapCnt tag fuel idx = some r := by
  intro fuel
  induction fuel with
  | zero => intro idx r h; cases h
  | succ fuel ih =>
    intro idx r h
    rw [fdTcacheQueryLoop, Option.bind_eq_bind, Option.bind_eq_some_iff] at h
    obtain ⟨mapTag, hld, h⟩ := h
    rw [fdTcacheQueryLoopAt, ld_window hld]
    simp only [Option.bind_eq_bind, Option.bind_some] at h ⊢
    split at h
    · next hstop =>
      rw [if_pos hstop]
      exact h
    · next hgo =>
      rw [if_neg hgo]
      exact ih _ h

theorem query_window {map : List Ulong} {fuel : Nat} {tag : Ulong} {r} (h : fdTcacheQuery fuel map mapCnt tag = some r) :
    fdTcacheQueryAt fuel (pre ++ (map ++ post)) pre.length mapCnt tag = some r :=
  queryLoop_window tag fuel _ h

theorem removeScan_window {map : List Ulong} (hole : Ulong) :
    ∀ (fuel : Nat) (slot : Ulong) {r}, fdTcacheRemoveScan map mapCnt hole fuel slot = some r →
      fdTcacheRemoveScanAt (pre ++ (map ++ post)) pre.length mapCnt hole fuel slot = some r := by
  intro fuel
  induction fuel with
  | zero => intro slot r h; cases h
  | succ fuel ih =>
    intro slot r h
    rw [fdTcacheRemoveScan, Option.bind_eq_bind, Option.bind_eq_some_iff] at h
    obtain ⟨tag, hld, h⟩ := h
    rw [fdTcacheRemoveScanAt]
    simp only [ld_window hld, Option.bind_eq_bind, Option.bind_some]
    split at h
    · next hnull =>
      rw [if_pos hnull]
      exact h
    · next hfull =>
      rw [if_neg hfull]
      simp only at h ⊢
      split at h
      · next hmove =>
        rw [if_pos hmove]
        exact h
      · next hkeep =>
        rw [if_neg hkeep]
        exact ih _ h

theorem removeLoop_window (pre post : List Ulong) (scanFuel : Nat) :
    ∀ (fuel : Nat) (map : List Ulong) (slot : Ulong) {map'}, fdTcacheRemoveLoop mapCnt scanFuel fuel map slot = some map' →
      fdTcacheRemoveLoopAt pre.length mapCnt scanFuel fuel (pre ++ (map ++ post)) slot = some (pre ++ (map' ++ post)) ∧
        map'.length = map.length := by
  intro fuel
  induction fuel with
  | zero => intro map slot map' h; cases h
  | succ fuel ih =>
    intro map slot map' h
    rw [fdTcacheRemoveLoop, Option.bind_eq_bind, Option.bind_eq_some_iff] at h
    obtain ⟨map1, hst, h⟩ := h
    obtain ⟨hst, hlen⟩ := st_window pre post hst
    simp only [Option.bind_eq_bind, Option.bind_eq_some_iff] at h
    obtain ⟨found, hscan, h⟩ := h
    rw [fdTcacheRemoveLoopAt, hst]
    simp only [Option.bind_eq_bind, Option.bind_some]
    rw [removeScan_window slot scanFuel slot hscan]
    cases found with
    | none =>
      cases h
      exact ⟨rfl, hlen⟩
    | some moved =>
      obtain ⟨map2, hst2, h⟩ := Option.bind_eq_some_iff.1 h
      obtain ⟨hst2, hlen2⟩ := st_window pre post hst2
      obtain ⟨hloop, hlen'⟩ := ih map2 _ h
      refine ⟨?_, hlen'.trans (hlen2.trans hlen)⟩
      simp only [Option.bind_some]
      rw [hst2]
      exact hloop

theorem remove_window (pre post : List Ulong) {map map' : List Ulong} {fuel : Nat} {tag : Ulong}
    (h : fdTcacheRemove fuel map mapCnt tag = some map') :
    fdTcacheRemoveAt fuel (pre ++ (map ++ post)) pre.length mapCnt tag = some (pre ++ (map' ++ post)) ∧
      map'.length = map.length := by
  unfold fdTcacheRemove at h
  unfold fdTcacheRemoveAt
  split at h
  · next htag =>
    obtain ⟨⟨found, slot⟩, hquery, h⟩ := Option.bind_eq_some_iff.1 h
    rw [if_pos htag, query_window hquery]
    simp only [Option.bind_eq_bind, Option.bind_some]
    simp only at h
    split at h
    · next hfound =>
      rw [if_pos hfound]
      exact removeLoop_window pre post fuel fuel map slot h
    · next hfound =>
      rw [if_neg hfound]
      cases h
      exact ⟨rfl, rfl⟩
  · next htag =>
    rw [if_neg htag]
    cases h
    exact ⟨rfl, rfl⟩

/-- An insert, into a ring and a map side by side. -/
theorem insert_window (pre post : List Ulong) {ring ring' map map' : List Ulong} {fuel : Nat}
    {oldest oldest' depth tag : Ulong} {dup : Bool}
    (h : fdTcacheInsert fuel oldest ring depth map mapCnt tag = some (dup, oldest', ring', map')) :
    fdTcacheInsertAt fuel (pre ++ (ring ++ (map ++ post))) oldest pre.length depth (pre.length + ring.length) mapCnt tag =
        some (dup, oldest', pre ++ (ring' ++ (map' ++ post))) ∧
      ring'.length = ring.length ∧ map'.length = map.length := by
  unfold fdTcacheInsert at h
  unfold fdTcacheInsertAt
  have hassoc : ∀ (r m : List Ulong), pre ++ (r ++ (m ++ post)) = (pre ++ r) ++ (m ++ post) :=
    fun r m => (List.append_assoc pre r _).symm
  obtain ⟨⟨found, mapIdx⟩, hquery, h⟩ := Option.bind_eq_some_iff.1 h
  rw [hassoc, ← List.length_append, query_window hquery]
  simp only [Option.bind_eq_bind, Option.bind_some] at h ⊢
  split at h
  · next hnew =>
    rw [if_pos hnew]
    obtain ⟨map1, hst, h⟩ := Option.bind_eq_some_iff.1 h
    obtain ⟨tagOldest, hld, h⟩ := Option.bind_eq_some_iff.1 h
    obtain ⟨ring1, hstr, h⟩ := Option.bind_eq_some_iff.1 h
    obtain ⟨map2, hrem, h⟩ := Option.bind_eq_some_iff.1 h
    obtain ⟨hst, hlen⟩ := st_window (pre ++ ring) post hst
    obtain ⟨hstr, hlenr⟩ := st_window pre (map1 ++ post) hstr
    obtain ⟨hrem, hlen'⟩ := remove_window (pre ++ ring1) post hrem
    have hptr : (pre ++ ring).length = (pre ++ ring1).length := by rw [List.length_append, List.length_append, hlenr]
    cases h
    refine ⟨?_, hlenr, hlen'.trans hlen⟩
    rw [hst]
    simp only [Option.bind_some]
    rw [← hassoc, ld_window hld]
    simp only [Option.bind_some]
    rw [hstr]
    simp only [Option.bind_some]
    rw [hassoc, hptr, hrem, hassoc]
    rfl
  · next hdup =>
    rw [if_neg hdup]
    cases h
    rw [hassoc]
    exact ⟨rfl, rfl, rfl⟩

end Probe

/-- A reset, of a ring and a map side by side. -/
theorem reset_window (pre post : List Ulong) {ring ring' map map' : List Ulong} {depth mapCnt oldest : Ulong}
    (h : fdTcacheReset ring depth map mapCnt = some (ring', map', oldest)) :
    fdTcacheResetAt (pre ++ (ring ++ (map ++ post))) pre.length depth (pre.length + ring.length) mapCnt =
        some (pre ++ (ring' ++ (map' ++ post)), oldest) ∧
      ring'.length = ring.length ∧ map'.length = map.length := by
  obtain ⟨ring1, hring, h⟩ := Option.bind_eq_some_iff.1 h
  obtain ⟨map1, hmap, h⟩ := Option.bind_eq_some_iff.1 h
  obtain ⟨hring, hlenr⟩ := resetLoop_window pre (map ++ post) hring
  obtain ⟨hmap, hlen⟩ := resetLoop_window (pre ++ ring1) post hmap
  cases h
  refine ⟨?_, hlenr, hlen⟩
  rw [fdTcacheResetAt, hring, ← hlenr, ← List.length_append]
  simp only [Option.bind_eq_bind, Option.bind_some]
  rw [← List.append_assoc, hmap, List.append_assoc]
  rfl

/-! ## The region -/

section Region

variable {pre post : List Ulong} {magic : Ulong} {s s' : FdTcache}

/-- The region as a ring and a map after a header. -/
theorem region_eq (s : FdTcache) : pre ++ (s.words magic ++ post) =
    (pre ++ [magic, s.depth, s.mapCnt, s.oldest]) ++ (s.ring ++ (s.map ++ post)) := by
  simp only [FdTcache.words, List.append_assoc]

theorem depth_region : fdTcacheDepth (pre ++ (s.words magic ++ post)) pre.length = some s.depth :=
  ld_window rfl

theorem mapCnt_region : fdTcacheMapCnt (pre ++ (s.words magic ++ post)) pre.length = some s.mapCnt :=
  ld_window rfl

theorem oldest_region : ldWord (pre ++ (s.words magic ++ post)) (fdTcacheOldestLaddr pre.length) 0 = some s.oldest :=
  ld_window (i := 3) rfl

/-- An update of oldest. -/
theorem stOldest_region (oldest : Ulong) :
    stWord (pre ++ (s.words magic ++ post)) (fdTcacheOldestLaddr pre.length) 0 oldest =
      some (pre ++ (({ s with oldest } : FdTcache).words magic ++ post)) :=
  (st_window pre post (a := s.words magic) (i := 3) (if_pos (by simp [FdTcache.words]))).1

theorem ringLaddr_region (s : FdTcache) (magic : Ulong) :
    fdTcacheRingLaddr pre.length = (pre ++ [magic, s.depth, s.mapCnt, s.oldest]).length := by
  rw [List.length_append]
  rfl

theorem mapLaddr_region (hring : s.ring.length = s.depth.toNat) :
    fdTcacheMapLaddr (pre ++ (s.words magic ++ post)) pre.length =
      some ((pre ++ [magic, s.depth, s.mapCnt, s.oldest]).length + s.ring.length) := by
  rw [fdTcacheMapLaddr, depth_region, List.length_append, hring]
  rfl

/-- One operation on the region is one on the unpacked fields. -/
theorem step_at (pre post : List Ulong) (magic : Ulong) {fuel : Nat} {op : TcacheOp} {dup : Bool}
    (hring : s.ring.length = s.depth.toNat) (h : s.step fuel op = some (s', dup)) :
    tcacheStepAt fuel pre.length (pre ++ (s.words magic ++ post)) op = some (pre ++ (s'.words magic ++ post), dup) ∧
      s'.depth = s.depth ∧ s'.mapCnt = s.mapCnt ∧ s'.ring.length = s.ring.length ∧ s'.map.length = s.map.length := by
  cases op with
  | reset =>
    obtain ⟨⟨ring', map', oldest⟩, hreset, h⟩ := Option.bind_eq_some_iff.1 h
    cases h
    obtain ⟨hres, hlenr, hlen⟩ := reset_window (pre ++ [magic, s.depth, s.mapCnt, s.oldest]) post hreset
    refine ⟨?_, rfl, rfl, hlenr, hlen⟩
    simp only [tcacheStepAt, depth_region, mapCnt_region, mapLaddr_region hring, Option.bind_eq_bind, Option.bind_some]
    rw [region_eq, ringLaddr_region s magic, hres]
    simp only [Option.bind_some]
    rw [← region_eq { s with ring := ring', map := map' }, stOldest_region]
    rfl
  | insert tag =>
    obtain ⟨⟨d, oldest, ring', map'⟩, hinsert, h⟩ := Option.bind_eq_some_iff.1 h
    cases h
    obtain ⟨hres, hlenr, hlen⟩ := insert_window (pre ++ [magic, s.depth, s.mapCnt, s.oldest]) post hinsert
    refine ⟨?_, rfl, rfl, hlenr, hlen⟩
    simp only [tcacheStepAt, depth_region, mapCnt_region, mapLaddr_region hring, oldest_region, Option.bind_eq_bind,
      Option.bind_some]
    rw [region_eq, ringLaddr_region s magic, hres]
    simp only [Option.bind_some]
    rw [← region_eq { s with ring := ring', map := map' }, stOldest_region]
    rfl
  | remove tag =>
    obtain ⟨map', hremove, h⟩ := Option.bind_eq_some_iff.1 h
    cases h
    obtain ⟨hres, hlen⟩ :=
      remove_window (pre ++ [magic, s.depth, s.mapCnt, s.oldest] ++ s.ring) post hremove
    refine ⟨?_, rfl, rfl, rfl, hlen⟩
    simp only [tcacheStepAt, mapCnt_region, mapLaddr_region hring, Option.bind_eq_bind, Option.bind_some]
    rw [region_eq, ← List.length_append, ← List.append_assoc _ s.ring, hres]
    simp only [Option.bind_some]
    rw [List.append_assoc _ s.ring, ← region_eq { s with map := map' }]
    rfl

end Region

end TcachePackedAux

end VerifyFiredancer
