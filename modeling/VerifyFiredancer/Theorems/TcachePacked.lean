import VerifyFiredancer.Lemmas.TcachePacked
import VerifyFiredancer.Lemmas.Scratch
import VerifyFiredancer.Theorems.TcacheInvariant

/-!
# A tcache in its footprint

The bytes `FD_TCACHE_FOOTPRINT` counts hold the header, the ring and the map where the accessors say they are, side by side and
apart. So whatever is done to a tcache in a region of that size is what is done to its unpacked fields, every access is inside
of the region, and the rest of the memory stays as it is.
-/

namespace VerifyFiredancer

open TcacheAux TcachePackedAux

/-- The run of a log on the region of a tcache went as the run on its unpacked fields.
1. The unpacked fields of the memory after it are those after the run on unpacked fields.
2. The region is still one for the tcache.
3. The words before oldest (those of the header among them) and from the end of the map on stay as they are. -/
structure TcachePackedRun (mem mem' : List Ulong) (tcache : Nat) (depth mapCnt : Ulong) (s' : FdTcache) : Prop where
  fields : FdTcache.unpack mem' tcache depth mapCnt = s'
  region : TcacheRegion mem' tcache depth mapCnt
  frame : mem'.length = mem.length ∧
    ∀ i, i < fdTcacheOldestLaddr tcache ∨ fdTcacheRingLaddr tcache + depth.toNat + mapCnt.toNat ≤ i → mem'[i]? = mem[i]?

namespace TcachePackedAux

/-- Operations on the region are those on the unpacked fields. -/
theorem run_at (pre post : List Ulong) (magic : Ulong) (fuel : Nat) :
    ∀ (ops : List TcacheOp) (s : FdTcache) (log : TcacheLog) {s' log'}, s.ring.length = s.depth.toNat →
      s.run fuel log ops = some (s', log') →
      tcacheRunAt fuel pre.length (pre ++ (s.words magic ++ post)) log ops = some (pre ++ (s'.words magic ++ post), log') ∧
        s'.depth = s.depth ∧ s'.mapCnt = s.mapCnt ∧ s'.ring.length = s.ring.length ∧ s'.map.length = s.map.length := by
  intro ops
  induction ops with
  | nil =>
    intro s log s' log' _ h
    cases h
    exact ⟨rfl, rfl, rfl, rfl, rfl⟩
  | cons op ops ih =>
    intro s log s' log' hring h
    obtain ⟨⟨s1, dup⟩, hstep, h⟩ := Option.bind_eq_some_iff.1 h
    obtain ⟨hat, hd, hm, hr, hl⟩ := step_at pre post magic hring hstep
    obtain ⟨hrun, hd', hm', hr', hl'⟩ := ih s1 _ (by rw [hr, hd, hring]) h
    refine ⟨?_, hd'.trans hd, hm'.trans hm, hr'.trans hr, hl'.trans hl⟩
    simp only [tcacheRunAt, hat, Option.bind_eq_bind, Option.bind_some]
    exact hrun

/-- The footprint is exact. -/
theorem footprint_toNat {depth mapCnt : Ulong} (h : Layout.alignUp ((4 + depth.toNat + mapCnt.toNat) * 8) 128 < 2 ^ 64) :
    (fdTcacheFootprint depth mapCnt).toNat = Layout.alignUp ((4 + depth.toNat + mapCnt.toNat) * 8) 128 := by
  have hle := Layout.le_alignUp (x := (4 + depth.toNat + mapCnt.toNat) * 8) (a := 128) (by decide)
  have hwords : ((4 + depth + mapCnt) * 8 : Ulong).toNat = (4 + depth.toNat + mapCnt.toNat) * 8 := by
    have h4 : (4 : Ulong).toNat = 4 := rfl
    have h8 : (8 : Ulong).toNat = 8 := rfl
    rw [BitVec.toNat_mul, BitVec.toNat_add, BitVec.toNat_add, h4, h8]
    omega
  have halign : ∃ k, fdTcacheAlign.toNat = 2 ^ k := ⟨7, rfl⟩
  have hinit : Layout.alignUp fdLayoutInit.toNat fdTcacheAlign.toNat = 0 := by decide
  obtain ⟨happend, _⟩ := ScratchAux.layoutAppend_toNat (l := fdLayoutInit)
    (r := ⟨fdTcacheAlign, (4 + depth + mapCnt) * 8, halign⟩) (by rw [hinit, hwords]; omega)
  rw [hinit, hwords, Nat.zero_add] at happend
  rw [fdTcacheFootprint, fdLayoutFini, ScratchAux.alignUpMacro_toNat _ halign]
  rw [happend]
  exact Nat.mod_eq_of_lt h

section Region

variable {mem : List Ulong} {tcache : Nat} {depth mapCnt : Ulong}

/-- The words of a tcache are in its region. -/
theorem end_le (h : TcacheRegion mem tcache depth mapCnt) : tcache + 4 + depth.toNat + mapCnt.toNat ≤ mem.length := by
  have hinside := h.inside
  rw [footprint_toNat h.fits] at hinside
  have hle := Layout.le_alignUp (x := (4 + depth.toNat + mapCnt.toNat) * 8) (a := 128) (by decide)
  omega

/-- The memory as the words before the region, those of the tcache and those after it. -/
theorem region_split (h : TcacheRegion mem tcache depth mapCnt) :
    ∃ magic, mem = mem.take tcache ++ ((FdTcache.unpack mem tcache depth mapCnt).words magic ++
      mem.drop (tcache + 4 + depth.toNat + mapCnt.toNat)) := by
  have hend := end_le h
  obtain ⟨hd, hdepth⟩ := List.getElem?_eq_some_iff.1 h.depth_eq
  obtain ⟨hm, hmapCnt⟩ := List.getElem?_eq_some_iff.1 h.mapCnt_eq
  have hone : tcache + (1 : Ulong).toNat = tcache + 1 := rfl
  have htwo : tcache + (2 : Ulong).toNat = tcache + 2 := rfl
  simp only [hone] at hdepth
  simp only [htwo] at hmapCnt
  have hmagic : tcache < mem.length := by omega
  refine ⟨mem[tcache], ?_⟩
  have hheader : mem.drop tcache = [mem[tcache], depth, mapCnt, mem.getD (fdTcacheOldestLaddr tcache) 0] ++
      mem.drop (tcache + 4) := by
    rw [List.drop_eq_getElem_cons (by omega), List.drop_eq_getElem_cons (by omega), List.drop_eq_getElem_cons (by omega),
      List.drop_eq_getElem_cons (by omega), hdepth, hmapCnt, List.getD_eq_getElem?_getD,
      List.getElem?_eq_getElem (by rw [fdTcacheOldestLaddr]; omega)]
    rfl
  have hwindow : ∀ n k, mem.drop n = (mem.drop n).take k ++ mem.drop (n + k) := by
    intro n k
    rw [← List.drop_drop, List.take_append_drop]
  have hring := hwindow (tcache + 4) depth.toNat
  have hmap := hwindow (tcache + 4 + depth.toNat) mapCnt.toNat
  calc mem = mem.take tcache ++ mem.drop tcache := (List.take_append_drop tcache mem).symm
    _ = mem.take tcache ++ ([mem[tcache], depth, mapCnt, mem.getD (fdTcacheOldestLaddr tcache) 0] ++
        ((mem.drop (tcache + 4)).take depth.toNat ++ ((mem.drop (tcache + 4 + depth.toNat)).take mapCnt.toNat ++
          mem.drop (tcache + 4 + depth.toNat + mapCnt.toNat)))) := by rw [← hmap, ← hring, ← hheader]
    _ = _ := by simp only [FdTcache.words, FdTcache.unpack, fdTcacheRingLaddr, List.append_assoc]

/-- The unpacked fields of a region have its geometry. -/
theorem unpack_shaped (h : TcacheRegion mem tcache depth mapCnt) : (FdTcache.unpack mem tcache depth mapCnt).Shaped := by
  have hend := end_le h
  refine ⟨h.depth_pos, h.pow2, h.room, ?_, ?_⟩
  · simp only [FdTcache.unpack, fdTcacheRingLaddr, List.length_take, List.length_drop]
    omega
  · simp only [FdTcache.unpack, fdTcacheRingLaddr, List.length_take, List.length_drop]
    omega

/-- What is written as the words of a tcache is unpacked as it. -/
theorem unpack_words {pre post : List Ulong} {magic : Ulong} {s : FdTcache} (hring : s.ring.length = s.depth.toNat)
    (hmap : s.map.length = s.mapCnt.toNat) :
    FdTcache.unpack (pre ++ (s.words magic ++ post)) pre.length s.depth s.mapCnt = s := by
  have hold : (pre ++ (s.words magic ++ post)).getD (fdTcacheOldestLaddr pre.length) 0 = s.oldest := by
    have h : ldWord (pre ++ (s.words magic ++ post)) (fdTcacheOldestLaddr pre.length) 0 = some s.oldest := oldest_region
    rw [ldWord] at h
    rw [List.getD_eq_getElem?_getD]
    exact Option.getD_eq_iff.2 (Or.inl h)
  have hdrop : (pre ++ (s.words magic ++ post)).drop (fdTcacheRingLaddr pre.length) = s.ring ++ (s.map ++ post) := by
    rw [region_eq, ringLaddr_region s magic, List.drop_left]
  have hdrop' : (pre ++ (s.words magic ++ post)).drop (fdTcacheRingLaddr pre.length + s.depth.toNat) = s.map ++ post := by
    rw [← List.drop_drop, hdrop, ← hring, List.drop_left]
  rw [FdTcache.unpack, hold, hdrop, hdrop']
  rw [← hring, List.take_left, ← hmap, List.take_left]

/-- Outside of a window, two memories that differ in the window only are the same. -/
theorem getElem?_outside {pre post a b : List Ulong} (hlen : a.length = b.length) {i : Nat}
    (hi : i < pre.length ∨ pre.length + b.length ≤ i) : (pre ++ (a ++ post))[i]? = (pre ++ (b ++ post))[i]? := by
  rcases hi with hi | hi
  · rw [List.getElem?_append_left hi, List.getElem?_append_left hi]
  · rw [List.getElem?_append_right (by omega), List.getElem?_append_right (by omega), List.getElem?_append_right (by omega),
      List.getElem?_append_right (by omega), hlen]

/-- Two tcaches of one geometry, as words in the same place: they differ from oldest to the end of the map only. -/
theorem words_frame {pre post : List Ulong} {magic : Ulong} {s s' : FdTcache} (hd : s'.depth = s.depth)
    (hm : s'.mapCnt = s.mapCnt) (hr : s'.ring.length = s.ring.length) (hl : s'.map.length = s.map.length) {i : Nat}
    (hi : i < fdTcacheOldestLaddr pre.length ∨ fdTcacheRingLaddr pre.length + s.ring.length + s.map.length ≤ i) :
    (pre ++ (s'.words magic ++ post))[i]? = (pre ++ (s.words magic ++ post))[i]? := by
  have hsplit : ∀ t : FdTcache, t.depth = s.depth → t.mapCnt = s.mapCnt → pre ++ (t.words magic ++ post) =
      (pre ++ [magic, s.depth, s.mapCnt]) ++ (([t.oldest] ++ (t.ring ++ t.map)) ++ post) := by
    intro t htd htm
    rw [FdTcache.words, htd, htm]
    simp only [List.append_assoc, List.cons_append, List.nil_append]
  have hheader : (pre ++ [magic, s.depth, s.mapCnt]).length = pre.length + 3 := List.length_append
  have hbody : ∀ t : FdTcache, ([t.oldest] ++ (t.ring ++ t.map)).length = 1 + (t.ring.length + t.map.length) := by
    intro t
    rw [List.length_append, List.length_append]
    rfl
  rw [hsplit s' hd hm, hsplit s rfl rfl]
  apply getElem?_outside
  · rw [hbody, hbody, hr, hl]
  · rw [hbody, hheader]
    rw [fdTcacheOldestLaddr, fdTcacheRingLaddr] at hi
    omega

/-- A run on the words of a tcache that is in a region goes as the run on its fields. -/
theorem packedRun_words (pre post : List Ulong) (magic : Ulong) {s s' : FdTcache} (hs : s.Shaped)
    (h : TcacheRegion (pre ++ (s.words magic ++ post)) pre.length s.depth s.mapCnt) (hd : s'.depth = s.depth)
    (hm : s'.mapCnt = s.mapCnt) (hr : s'.ring.length = s.ring.length) (hl : s'.map.length = s.map.length) :
    TcachePackedRun (pre ++ (s.words magic ++ post)) (pre ++ (s'.words magic ++ post)) pre.length s.depth s.mapCnt s' := by
  have hlen : (pre ++ (s'.words magic ++ post)).length = (pre ++ (s.words magic ++ post)).length := by
    simp only [FdTcache.words, List.length_append, hr, hl]
    rfl
  refine ⟨?_, ⟨?_, ?_, h.depth_pos, h.pow2, h.room, h.fits, ?_⟩, hlen, ?_⟩
  · rw [← hd, ← hm]
    exact unpack_words (by rw [hr, hs.ring_len, hd]) (by rw [hl, hs.map_len, hm])
  · rw [← hd]
    exact depth_region
  · rw [← hm]
    exact mapCnt_region
  · rw [hlen]
    exact h.inside
  · intro i hi
    rw [← hs.ring_len, ← hs.map_len] at hi
    exact words_frame hd hm hr hl hi

end Region

/-- From a reset on, any operations end. -/
theorem run_ends {s : FdTcache} {fuel : Nat} {ops : List TcacheOp} (h : s.Shaped) (hf : s.mapCnt.toNat ≤ fuel)
    (hops : ∀ op ∈ ops, op.Ok) : ∃ s' log, s.run fuel [] (.reset :: ops) = some (s', log) := by
  obtain ⟨s0, hs0, hinv0, _, hm0, _⟩ := h.reset fuel
  obtain ⟨s', log, hrun, _⟩ := run_induct (fun s' _ => s'.Inv ∧ s'.mapCnt = s.mapCnt) TcacheOp.Ok fuel
    (by
      rintro s1 log op hop ⟨hinv, hm⟩
      have hf1 : s1.mapCnt.toNat ≤ fuel := by rw [hm]; exact hf
      obtain ⟨s2, dup, hs, hinv', hm'⟩ := TcacheInvariantAux.step_inv hinv hf1 op hop
      exact ⟨s2, dup, hs, hinv', hm'.trans hm⟩) ops s0 [(.reset, false)] hops ⟨hinv0, hm0⟩
  refine ⟨s', log, ?_⟩
  simp only [FdTcache.run, hs0, Option.bind_eq_bind, Option.bind_some, List.nil_append]
  exact hrun

end TcachePackedAux

/-- From a reset on, any operations on a tcache in a region of its footprint go as those on its unpacked fields, and change the
ring, the map and oldest only. -/
theorem tcache_packed (mem : List Ulong) (tcache fuel : Nat) (depth mapCnt : Ulong) (ops : List TcacheOp)
    (h : TcacheRegion mem tcache depth mapCnt) (hf : mapCnt.toNat ≤ fuel) (hops : ∀ op ∈ ops, op.Ok) :
    ∃ mem' s' log, tcacheRunAt fuel tcache mem [] (.reset :: ops) = some (mem', log) ∧
      (FdTcache.unpack mem tcache depth mapCnt).run fuel [] (.reset :: ops) = some (s', log) ∧
      TcachePackedRun mem mem' tcache depth mapCnt s' := by
  obtain ⟨magic, hmem⟩ := region_split h
  have hend := end_le h
  have hshaped := unpack_shaped h
  have hpre : (mem.take tcache).length = tcache := by
    rw [List.length_take]
    omega
  obtain ⟨s', log, hrun⟩ := run_ends hshaped hf hops
  let post := mem.drop (tcache + 4 + depth.toNat + mapCnt.toNat)
  obtain ⟨hat, hd, hm, hr, hl⟩ := run_at (mem.take tcache) post magic fuel _ _ _ hshaped.ring_len hrun
  have hpacked := packedRun_words (mem.take tcache) post magic hshaped (by rw [← hmem, hpre]; exact h) hd hm hr hl
  rw [← hmem, hpre] at hat hpacked
  exact ⟨_, s', log, hat, hrun, hpacked⟩

/-- A memory of two words, a region for the smallest tcache (of 16 words, and 7 of padding) and one more word. -/
theorem tcache_packed_smallest :
    ∃ mem' s' log, tcacheRunAt 4 2 ([3, 3] ++ ([9, 1, 4, 8] ++ List.replicate 13 6)) [] [.reset, .insert 5, .insert 9] =
        some (mem', log) ∧
      (FdTcache.unpack ([3, 3] ++ ([9, 1, 4, 8] ++ List.replicate 13 6)) 2 1 4).run 4 [] [.reset, .insert 5, .insert 9] =
        some (s', log) ∧
      TcachePackedRun ([3, 3] ++ ([9, 1, 4, 8] ++ List.replicate 13 6)) mem' 2 1 4 s' :=
  tcache_packed ([3, 3] ++ ([9, 1, 4, 8] ++ List.replicate 13 6)) 2 4 1 4 [.insert 5, .insert 9]
    ⟨rfl, rfl, by decide, ⟨2, rfl⟩, by decide, by decide, by decide⟩ (by decide) (by
      intro op hop
      simp only [List.mem_cons, List.not_mem_nil, or_false] at hop
      rcases hop with rfl | rfl
      · simp [TcacheOp.Ok, fdTcacheTagNull]
      · simp [TcacheOp.Ok, fdTcacheTagNull])

end VerifyFiredancer
