import VerifyFiredancer.TcacheCrab
import VerifyFiredancer.Lemmas.Tcache

/-!
# The abstract interpreter sees every run of a tcache

Whatever slots are drawn, no access is outside of its array, and `oldest` stays below `depth`
(`tcache_crab_safe`): of the map this takes only that it has the size it is indexed by. And the slots the code computes can be
drawn, so that every run of the code is one of these (`tcache_crab_covers`).
-/

namespace VerifyFiredancer

open Harness TcacheAux

/-- The arrays have the sizes they are indexed by, and `oldest` is in the ring. -/
structure FdTcache.Sized (s : FdTcache) : Prop where
  ring_len : s.ring.length = s.depth.toNat
  map_len : s.map.length = s.mapCnt.toNat
  oldest_lt : s.oldest < s.depth

namespace TcacheCrabAux

/-! ## Safety -/

section Safe

variable {map : List Ulong} {mapCnt : Ulong}

/-- An access in bounds. -/
theorem access_ensures {α : Type} {o : Option α} {a : α} {Q : α → Prop} (h : o = some a) (hQ : Q a) : (access o).Ensures Q := by
  rw [h]
  exact .pure hQ

theorem ndUlong_ensures (nd : Draws) : (ndUlong nd).Ensures fun _ => True := by
  cases nd with
  | nil => exact .pruned
  | cons res nd => exact .assume fun _ => .pure trivial

/-- A drawn slot is a slot of the map. -/
theorem mapStart_ensures (tag : Ulong) (nd : Draws) : (fdTcacheMapStartCrab tag mapCnt nd).Ensures fun r => r.1 < mapCnt := by
  refine (ndUlong_ensures nd).bind ?_
  rintro ⟨start, nd⟩ -
  exact .assume fun hlt => .pure hlt

theorem mapNext_ensures (idx : Ulong) (nd : Draws) : (fdTcacheMapNextCrab idx mapCnt nd).Ensures fun r => r.1 < mapCnt :=
  mapStart_ensures idx nd

/-- A read of a slot. -/
theorem ld_ensures (hlen : map.length = mapCnt.toNat) {i : Ulong} (hi : i < mapCnt) :
    (access (ldUlong map i)).Ensures fun _ => True :=
  access_ensures (ldUlong_eq (by rw [hlen]; exact hi)) trivial

/-- A write to a slot. -/
theorem st_ensures (hlen : map.length = mapCnt.toNat) {i : Ulong} (hi : i < mapCnt) (v : Ulong) :
    (access (stUlong map i v)).Ensures fun map' => map'.length = mapCnt.toNat :=
  access_ensures (stUlong_eq (by rw [hlen]; exact hi) v) (by rw [List.length_set, hlen])

theorem queryLoop_ensures (hlen : map.length = mapCnt.toNat) (tag : Ulong) :
    ∀ fuel mapIdx nd, mapIdx < mapCnt → (fdTcacheQueryLoopCrab map mapCnt tag fuel mapIdx nd).Ensures fun r => r.1.2 < mapCnt := by
  intro fuel
  induction fuel with
  | zero => intro mapIdx nd _; exact .pruned
  | succ fuel ih =>
    intro mapIdx nd hlt
    refine (ld_ensures hlen hlt).bind ?_
    intro mapTag _
    dsimp only
    split
    · exact .pure hlt
    · refine (mapNext_ensures mapIdx nd).bind ?_
      rintro ⟨next, nd⟩ hnext
      exact ih next nd hnext

theorem query_ensures (hlen : map.length = mapCnt.toNat) (fuel : Nat) (tag : Ulong) (nd : Draws) :
    (fdTcacheQueryCrab fuel map mapCnt tag nd).Ensures fun r => r.1.2 < mapCnt := by
  refine (mapStart_ensures tag nd).bind ?_
  rintro ⟨start, nd⟩ hstart
  exact queryLoop_ensures hlen tag fuel start nd hstart

theorem removeScan_ensures (hlen : map.length = mapCnt.toNat) (hole : Ulong) :
    ∀ fuel slot nd, (fdTcacheRemoveScanCrab map mapCnt hole fuel slot nd).Ensures fun r => ∀ p ∈ r.1, p.1 < mapCnt := by
  intro fuel
  induction fuel with
  | zero => intro slot nd; exact .pruned
  | succ fuel ih =>
    intro slot nd
    refine (mapNext_ensures slot nd).bind ?_
    rintro ⟨slot, nd⟩ hslot
    refine (ld_ensures hlen hslot).bind ?_
    intro tag _
    dsimp only
    split
    · exact .pure (by simp)
    · refine (mapStart_ensures tag nd).bind ?_
      rintro ⟨start, nd⟩ -
      dsimp only
      split
      · refine .pure ?_
        rintro p ⟨⟩
        exact hslot
      · exact ih slot nd

theorem removeLoop_ensures (scanFuel : Nat) :
    ∀ fuel (map : List Ulong) slot nd, map.length = mapCnt.toNat → slot < mapCnt →
      (fdTcacheRemoveLoopCrab mapCnt scanFuel fuel map slot nd).Ensures fun r => r.1.length = mapCnt.toNat := by
  intro fuel
  induction fuel with
  | zero => intro map slot nd _ _; exact .pruned
  | succ fuel ih =>
    intro map hole nd hlen hhole
    refine (st_ensures hlen hhole _).bind ?_
    intro map hlen
    refine (removeScan_ensures hlen hole scanFuel hole nd).bind ?_
    rintro ⟨moved, nd⟩ hmoved
    cases moved with
    | none => exact .pure hlen
    | some p =>
      obtain ⟨slot, tag⟩ := p
      refine (st_ensures hlen hhole tag).bind ?_
      intro map hlen
      exact ih map slot nd hlen (hmoved _ rfl)

theorem remove_ensures (hlen : map.length = mapCnt.toNat) (fuel : Nat) (tag : Ulong) (nd : Draws) :
    (fdTcacheRemoveCrab fuel map mapCnt tag nd).Ensures fun r => r.1.length = mapCnt.toNat := by
  unfold fdTcacheRemoveCrab
  split
  · refine (query_ensures hlen fuel tag nd).bind ?_
    rintro ⟨⟨found, slot⟩, nd⟩ hslot
    dsimp only
    split
    · exact removeLoop_ensures fuel fuel map slot nd hlen hslot
    · exact .pure hlen
  · exact .pure hlen

/-- The position an insert goes on to is in the ring. -/
theorem oldest_succ_lt {oldest depth : Ulong} (h : oldest < depth) :
    (if depth ≤ oldest + 1 then 0 else oldest + 1) < depth := by
  split <;> bv_omega

theorem insert_ensures {ring : List Ulong} {oldest depth : Ulong} (hring : ring.length = depth.toNat) (hold : oldest < depth)
    (hlen : map.length = mapCnt.toNat) (fuel : Nat) (tag : Ulong) (nd : Draws) :
    (fdTcacheInsertCrab fuel oldest ring depth map mapCnt tag nd).Ensures fun r =>
      r.1.2.1 < depth ∧ r.1.2.2.1.length = depth.toNat ∧ r.1.2.2.2.length = mapCnt.toNat := by
  refine (query_ensures hlen fuel tag nd).bind ?_
  rintro ⟨⟨dup, mapIdx⟩, nd⟩ hidx
  dsimp only
  split
  · refine (st_ensures hlen hidx tag).bind ?_
    intro map hlen
    refine (ld_ensures hring hold).bind ?_
    intro tagOldest _
    refine (st_ensures hring hold tag).bind ?_
    intro ring hring
    refine (remove_ensures hlen fuel tagOldest nd).bind ?_
    rintro ⟨map, nd⟩ hlen
    exact .pure ⟨oldest_succ_lt hold, hring, hlen⟩
  · exact .pure ⟨hold, hring, hlen⟩

theorem step_ensures {s : FdTcache} (h : s.Sized) (fuel : Nat) (op : TcacheOp) (nd : Draws) :
    (s.stepCrab fuel op nd).Ensures fun r => r.1.1.Sized := by
  cases op with
  | reset =>
    have hreset : fdTcacheReset s.ring s.depth s.map s.mapCnt =
        some (List.replicate s.depth.toNat fdTcacheTagNull, List.replicate s.mapCnt.toNat fdTcacheTagNull, 0) := by
      simp only [fdTcacheReset, resetLoop_eq h.ring_len, resetLoop_eq h.map_len, Option.bind_eq_bind, Option.bind_some]
      rfl
    refine Outcome.Ensures.bind (access_ensures (Q := fun r =>
      r.1.length = s.depth.toNat ∧ r.2.1.length = s.mapCnt.toNat ∧ r.2.2 = 0) hreset ⟨by simp, by simp, rfl⟩) ?_
    rintro ⟨ring, map, oldest⟩ ⟨hring, hmap, hold⟩
    have hpos : 0 < s.depth := by
      have hlt := h.oldest_lt
      bv_omega
    obtain rfl : oldest = 0 := hold
    exact .pure ⟨hring, hmap, hpos⟩
  | insert tag =>
    refine (insert_ensures h.ring_len h.oldest_lt h.map_len fuel tag nd).bind ?_
    rintro ⟨⟨dup, oldest, ring, map⟩, nd⟩ ⟨hold, hring, hmap⟩
    exact .pure ⟨hring, hmap, hold⟩
  | remove tag =>
    refine (remove_ensures h.map_len fuel tag nd).bind ?_
    rintro ⟨map, nd⟩ hmap
    exact .pure ⟨h.ring_len, hmap, h.oldest_lt⟩

theorem run_ensures (fuel : Nat) :
    ∀ (ops : List TcacheOp) (s : FdTcache) (log : TcacheLog) (nd : Draws), s.Sized →
      (s.runCrab fuel log ops nd).Ensures fun r => r.1.1.Sized := by
  intro ops
  induction ops with
  | nil => intro s log nd h; exact .pure h
  | cons op ops ih =>
    intro s log nd h
    refine (step_ensures h fuel op nd).bind ?_
    rintro ⟨⟨s, dup⟩, nd⟩ hs
    exact ih s _ nd hs

end Safe

/-! ## Coverage -/

section Covers

variable {map : List Ulong} {mapCnt : Ulong}

/-- A masked value is a slot of the map. -/
theorem mask_lt (hpos : 0 < mapCnt) (x : Ulong) : x &&& (mapCnt - 1) < mapCnt := by
  have hle : (x &&& (mapCnt - 1)).toNat ≤ (mapCnt - 1).toNat := by
    rw [BitVec.toNat_and]
    exact Nat.and_le_right
  have hlt : (mapCnt - 1).toNat < mapCnt.toNat := by bv_omega
  exact hle.trans_lt hlt

/-- The slots of the map can be drawn. -/
theorem ndUlong_reaches {x : Ulong} (hlt : x < mapCnt) (hmax : mapCnt.toNat ≤ 2 ^ 63) : Reaches ndUlong x := by
  have hnat : x.toNat < 2 ^ 63 := lt_of_lt_of_le hlt hmax
  have hsign : 0 ≤ x.toInt := by
    rw [BitVec.toInt_eq_toNat_of_lt (by omega)]
    exact Int.natCast_nonneg _
  exact ⟨[x], fun rest => assume_bind_eq_done.2 ⟨hsign, rfl⟩⟩

/-- So can the slot a probe starts at. -/
theorem mapStart_reaches (hpos : 0 < mapCnt) (hmax : mapCnt.toNat ≤ 2 ^ 63) (tag : Ulong) :
    Reaches (fdTcacheMapStartCrab tag mapCnt) (fdTcacheMapStart tag mapCnt) := by
  have hlt : fdTcacheMapStart tag mapCnt < mapCnt := mask_lt hpos tag
  refine (ndUlong_reaches hlt hmax).seq (.pure fun nd => rfl) ?_
  intro nd nd' hnd
  rw [fdTcacheMapStartCrab, hnd]
  exact assume_bind_eq_done.2 ⟨hlt, rfl⟩

/-- And the slot it goes on to. -/
theorem mapNext_reaches (hpos : 0 < mapCnt) (hmax : mapCnt.toNat ≤ 2 ^ 63) (idx : Ulong) :
    Reaches (fdTcacheMapNextCrab idx mapCnt) (fdTcacheMapNext idx mapCnt) := by
  have hlt : fdTcacheMapNext idx mapCnt < mapCnt := mask_lt hpos (idx + 1)
  refine (ndUlong_reaches hlt hmax).seq (.pure fun nd => rfl) ?_
  intro nd nd' hnd
  rw [fdTcacheMapNextCrab, hnd]
  exact assume_bind_eq_done.2 ⟨hlt, rfl⟩

/-- An access the code does. -/
theorem access_bind {α β : Type} {o : Option α} {a : α} (h : o = some a) (f : α → Outcome β) : (access o >>= f) = f a := by
  rw [h]
  rfl

theorem queryLoop_reaches (hpos : 0 < mapCnt) (hmax : mapCnt.toNat ≤ 2 ^ 63) (tag : Ulong) :
    ∀ fuel mapIdx {r}, fdTcacheQueryLoop map mapCnt tag fuel mapIdx = some r →
      Reaches (fdTcacheQueryLoopCrab map mapCnt tag fuel mapIdx) r := by
  intro fuel
  induction fuel with
  | zero => intro mapIdx r h; cases h
  | succ fuel ih =>
    intro mapIdx r h
    rw [fdTcacheQueryLoop, Option.bind_eq_bind, Option.bind_eq_some_iff] at h
    obtain ⟨mapTag, hld, h⟩ := h
    simp only at h
    split at h
    · next hstop =>
      cases h
      refine .pure fun nd => ?_
      rw [fdTcacheQueryLoopCrab, access_bind hld]
      exact if_pos hstop
    · next hgo =>
      refine (mapNext_reaches hpos hmax mapIdx).seq (ih _ h) ?_
      intro nd nd' hnext
      rw [fdTcacheQueryLoopCrab, access_bind hld]
      simp only [if_neg hgo, hnext]
      rfl

theorem query_reaches (hpos : 0 < mapCnt) (hmax : mapCnt.toNat ≤ 2 ^ 63) {fuel : Nat} {tag : Ulong} {r}
    (h : fdTcacheQuery fuel map mapCnt tag = some r) : Reaches (fdTcacheQueryCrab fuel map mapCnt tag) r := by
  refine (mapStart_reaches hpos hmax tag).seq (queryLoop_reaches hpos hmax tag fuel _ h) ?_
  intro nd nd' hstart
  rw [fdTcacheQueryCrab, hstart]
  rfl

theorem removeScan_reaches (hpos : 0 < mapCnt) (hmax : mapCnt.toNat ≤ 2 ^ 63) (hole : Ulong) :
    ∀ fuel slot {r}, fdTcacheRemoveScan map mapCnt hole fuel slot = some r →
      Reaches (fdTcacheRemoveScanCrab map mapCnt hole fuel slot) r := by
  intro fuel
  induction fuel with
  | zero => intro slot r h; cases h
  | succ fuel ih =>
    intro slot r h
    rw [fdTcacheRemoveScan, Option.bind_eq_bind, Option.bind_eq_some_iff] at h
    obtain ⟨tag, hld, h⟩ := h
    split at h
    · next hnull =>
      cases h
      refine (mapNext_reaches hpos hmax slot).seq (.pure fun nd => rfl) ?_
      intro nd nd' hnext
      rw [fdTcacheRemoveScanCrab, hnext]
      exact (access_bind hld _).trans (if_pos hnull)
    · next hfull =>
      simp only at h
      -- where the probe for the tag in the slot starts is drawn after the slot
      have hdrawn : Reaches (fun nd => fdTcacheMapStartCrab tag mapCnt nd >>= fun p =>
          if !((hole < p.1 && p.1 ≤ fdTcacheMapNext slot mapCnt) ||
              (fdTcacheMapNext slot mapCnt < hole && (hole < p.1 || p.1 ≤ fdTcacheMapNext slot mapCnt))) then
            Outcome.done (some (fdTcacheMapNext slot mapCnt, tag), p.2)
          else fdTcacheRemoveScanCrab map mapCnt hole fuel (fdTcacheMapNext slot mapCnt) p.2) r := by
        split at h
        · next hmove =>
          cases h
          refine (mapStart_reaches hpos hmax tag).seq (.pure fun nd => rfl) ?_
          intro nd nd' hstart
          rw [hstart]
          exact if_pos hmove
        · next hkeep =>
          refine (mapStart_reaches hpos hmax tag).seq (ih _ h) ?_
          intro nd nd' hstart
          rw [hstart]
          exact if_neg hkeep
      refine (mapNext_reaches hpos hmax slot).seq hdrawn ?_
      intro nd nd' hnext
      rw [fdTcacheRemoveScanCrab, hnext]
      exact (access_bind hld _).trans (if_neg hfull)

theorem removeLoop_reaches (hpos : 0 < mapCnt) (hmax : mapCnt.toNat ≤ 2 ^ 63) (scanFuel : Nat) :
    ∀ fuel (map : List Ulong) slot {map'}, fdTcacheRemoveLoop mapCnt scanFuel fuel map slot = some map' →
      Reaches (fdTcacheRemoveLoopCrab mapCnt scanFuel fuel map slot) map' := by
  intro fuel
  induction fuel with
  | zero => intro map slot map' h; cases h
  | succ fuel ih =>
    intro map slot map' h
    rw [fdTcacheRemoveLoop, Option.bind_eq_bind, Option.bind_eq_some_iff] at h
    obtain ⟨map1, hst, h⟩ := h
    simp only [Option.bind_eq_bind, Option.bind_eq_some_iff] at h
    obtain ⟨moved, hscan, h⟩ := h
    cases moved with
    | none =>
      cases h
      refine (removeScan_reaches hpos hmax slot scanFuel slot hscan).seq (.pure fun nd => rfl) ?_
      intro nd nd' hdrawn
      rw [fdTcacheRemoveLoopCrab, access_bind hst]
      simp only [hdrawn]
      rfl
    | some p =>
      obtain ⟨map2, hst2, h⟩ := Option.bind_eq_some_iff.1 h
      refine (removeScan_reaches hpos hmax slot scanFuel slot hscan).seq (ih map2 _ h) ?_
      intro nd nd' hdrawn
      rw [fdTcacheRemoveLoopCrab, access_bind hst]
      simp only [hdrawn]
      exact access_bind hst2 _

theorem remove_reaches (hpos : 0 < mapCnt) (hmax : mapCnt.toNat ≤ 2 ^ 63) {map' : List Ulong} {fuel : Nat} {tag : Ulong}
    (h : fdTcacheRemove fuel map mapCnt tag = some map') : Reaches (fdTcacheRemoveCrab fuel map mapCnt tag) map' := by
  unfold fdTcacheRemove at h
  unfold fdTcacheRemoveCrab
  split at h
  · next htag =>
    simp only [if_pos htag]
    obtain ⟨⟨found, slot⟩, hquery, h⟩ := Option.bind_eq_some_iff.1 h
    simp only at h
    split at h
    · next hfound =>
      refine (query_reaches hpos hmax hquery).seq (removeLoop_reaches hpos hmax fuel fuel map slot h) ?_
      intro nd nd' hdrawn
      rw [hdrawn]
      exact if_pos hfound
    · next hfound =>
      cases h
      refine (query_reaches hpos hmax hquery).seq (.pure fun nd => rfl) ?_
      intro nd nd' hdrawn
      rw [hdrawn]
      exact if_neg hfound
  · next htag =>
    cases h
    exact .pure fun nd => if_neg htag

theorem insert_reaches (hpos : 0 < mapCnt) (hmax : mapCnt.toNat ≤ 2 ^ 63) {ring : List Ulong} {fuel : Nat}
    {oldest depth tag : Ulong} {r} (h : fdTcacheInsert fuel oldest ring depth map mapCnt tag = some r) :
    Reaches (fdTcacheInsertCrab fuel oldest ring depth map mapCnt tag) r := by
  obtain ⟨⟨dup, mapIdx⟩, hquery, h⟩ := Option.bind_eq_some_iff.1 h
  simp only at h
  split at h
  · next hnew =>
    obtain ⟨map1, hst, h⟩ := Option.bind_eq_some_iff.1 h
    obtain ⟨tagOldest, hld, h⟩ := Option.bind_eq_some_iff.1 h
    obtain ⟨ring1, hstr, h⟩ := Option.bind_eq_some_iff.1 h
    obtain ⟨map2, hrem, h⟩ := Option.bind_eq_some_iff.1 h
    cases h
    have hrest : Reaches (fun nd => fdTcacheRemoveCrab fuel map1 mapCnt tagOldest nd >>= fun p =>
        Outcome.done ((dup, if depth ≤ oldest + 1 then 0 else oldest + 1, ring1, p.1), p.2))
        (dup, if depth ≤ oldest + 1 then 0 else oldest + 1, ring1, map2) := by
      refine (remove_reaches hpos hmax hrem).seq (.pure fun nd => rfl) ?_
      intro nd nd' hdrawn
      rw [hdrawn]
      rfl
    refine (query_reaches hpos hmax hquery).seq hrest ?_
    intro nd nd' hdrawn
    rw [fdTcacheInsertCrab, hdrawn]
    refine (if_pos hnew).trans ?_
    rw [access_bind hst, access_bind hld, access_bind hstr]
    rfl
  · next hdup =>
    cases h
    refine (query_reaches hpos hmax hquery).seq (.pure fun nd => rfl) ?_
    intro nd nd' hdrawn
    rw [fdTcacheInsertCrab, hdrawn]
    exact if_neg hdup

/-- The draws for one operation. -/
theorem step_reaches {s s' : FdTcache} (hpos : 0 < s.mapCnt) (hmax : s.mapCnt.toNat ≤ 2 ^ 63) {fuel : Nat} {op : TcacheOp}
    {dup : Bool} (h : s.step fuel op = some (s', dup)) :
    Reaches (s.stepCrab fuel op) (s', dup) ∧ s'.mapCnt = s.mapCnt := by
  cases op with
  | reset =>
    obtain ⟨⟨ring, map, oldest⟩, hreset, h⟩ := Option.bind_eq_some_iff.1 h
    cases h
    exact ⟨.pure fun nd => access_bind hreset _, rfl⟩
  | insert tag =>
    obtain ⟨⟨d, oldest, ring, map⟩, hinsert, h⟩ := Option.bind_eq_some_iff.1 h
    cases h
    refine ⟨(insert_reaches hpos hmax hinsert).seq (.pure fun nd => rfl) ?_, rfl⟩
    intro nd nd' hdrawn
    rw [FdTcache.stepCrab, hdrawn]
    rfl
  | remove tag =>
    obtain ⟨map, hremove, h⟩ := Option.bind_eq_some_iff.1 h
    cases h
    refine ⟨(remove_reaches hpos hmax hremove).seq (.pure fun nd => rfl) ?_, rfl⟩
    intro nd nd' hdrawn
    rw [FdTcache.stepCrab, hdrawn]
    rfl

/-- The draws for a run. -/
theorem run_reaches {fuel : Nat} :
    ∀ (ops : List TcacheOp) {s s' : FdTcache} {log log' : TcacheLog}, 0 < s.mapCnt → s.mapCnt.toNat ≤ 2 ^ 63 →
      s.run fuel log ops = some (s', log') → Reaches (s.runCrab fuel log ops) (s', log') := by
  intro ops
  induction ops with
  | nil =>
    intro s s' log log' _ _ h
    cases h
    exact .pure fun nd => rfl
  | cons op ops ih =>
    intro s s' log log' hpos hmax h
    obtain ⟨⟨s1, dup⟩, hstep, h⟩ := Option.bind_eq_some_iff.1 h
    obtain ⟨hdrawn, hcnt⟩ := step_reaches hpos hmax hstep
    have hrest := ih (by rw [hcnt]; exact hpos) (by rw [hcnt]; exact hmax) h
    refine hdrawn.seq hrest ?_
    intro nd nd' hnd
    rw [FdTcache.runCrab, hnd]
    rfl

end Covers

end TcacheCrabAux

open TcacheCrabAux

/-- No run of a tcache that draws its slots fails, however many rounds its loops take and whatever is drawn, inserted and removed;
`oldest` is in the ring after it. -/
theorem tcache_crab_safe (s : FdTcache) (fuel : Nat) (log : TcacheLog) (ops : List TcacheOp) (nd : Draws) (h : s.Sized) :
    (s.runCrab fuel log ops nd).Ensures fun r => r.1.1.Sized :=
  run_ensures fuel ops s log nd h

/-- It applies to a ring of two words and a map of three, not a power of two. -/
theorem tcache_crab_safe_three :
    (FdTcache.runCrab 5 ⟨2, 3, 1, [7, 7], [7, 7, 7]⟩ [] [.insert 9, .reset, .insert 9, .remove 9] [2, 1, 0, 2, 1, 0]).Ensures
      fun r => r.1.1.Sized :=
  tcache_crab_safe ⟨2, 3, 1, [7, 7], [7, 7, 7]⟩ 5 [] _ _ ⟨rfl, rfl, by decide⟩

/-- Every run of a tcache is one that draws its slots. -/
theorem tcache_crab_covers (s s' : FdTcache) (fuel : Nat) (log log' : TcacheLog) (ops : List TcacheOp) (hpos : 0 < s.mapCnt)
    (hmax : s.mapCnt.toNat ≤ 2 ^ 63) (h : s.run fuel log ops = some (s', log')) :
    ∃ nd, s.runCrab fuel log ops nd = .done ((s', log'), []) := by
  obtain ⟨nd, hnd⟩ := run_reaches ops hpos hmax h
  exact ⟨nd, by rw [← hnd [], List.append_nil]⟩

/-- It applies to a ring of one word and a map of four, from a reset on. -/
theorem tcache_crab_covers_one :
    ∃ nd, FdTcache.runCrab 4 ⟨1, 4, 0, [7], [7, 7, 7, 7]⟩ [] [.reset, .insert 9, .insert 5, .insert 5] nd =
      .done ((⟨1, 4, 0, [5], [0, 5, 0, 0]⟩, [(.reset, false), (.insert 9, false), (.insert 5, false), (.insert 5, true)]), []) :=
  tcache_crab_covers ⟨1, 4, 0, [7], [7, 7, 7, 7]⟩ _ 4 [] _ _ (by decide) (by decide) (by decide)

end VerifyFiredancer
