import VerifyFiredancer.Theorems.TcacheRemove

/-!
# Probing for a tag

`FD_TCACHE_QUERY` needs of a map that no tag is in it twice, that no slot between the start of a tag and its slot is empty, and
that one slot is. Then it makes at most `map_cnt` probes, as the distance to that slot falls with each, and its answer is right;
where the answer is no, the map with the tag in the slot that it ended at is such a map again, except that no slot may be empty.
-/

namespace VerifyFiredancer

open Cyclic LinearProbe TcacheAux

/-- A map that can be probed, any power of two of slots.
1. It has `mapCnt` slots.
2. No tag is in it twice.
3. No slot from the start of a tag around to its slot is empty. -/
structure MapProbed (map : List Ulong) (mapCnt : Ulong) : Prop where
  length_eq : map.length = mapCnt.toNat
  pow2 : ∃ k, mapCnt.toNat = 2 ^ k
  distinct : (mapTags map).Nodup
  noGap : ∀ j, j < mapCnt.toNat → slots map j ≠ fdTcacheTagNull → ∀ i, i < mapCnt.toNat →
    ahead mapCnt.toNat (fdTcacheMapStart (slots map j) mapCnt).toNat i <
      ahead mapCnt.toNat (fdTcacheMapStart (slots map j) mapCnt).toNat j →
    slots map i ≠ fdTcacheTagNull

namespace TcacheProbeAux

variable {map : List Ulong} {mapCnt : Ulong}

/-- A map can be probed when it is a probed table. -/
theorem mapProbed_iff (hlen : map.length = mapCnt.toNat) (hp : ∃ k, mapCnt.toNat = 2 ^ k) :
    MapProbed map mapCnt ↔ Probed mapCnt.toNat fdTcacheTagNull (tcacheHome mapCnt) (slots map) := by
  have hnodup := TcacheRemoveAux.nodup_mapTags_iff map
  rw [hlen] at hnodup
  constructor
  · intro h
    exact ⟨hnodup.1 h.distinct, h.noGap⟩
  · intro h
    exact ⟨hlen, hp, hnodup.2 h.distinct, h.noGap⟩

/-- More fuel does not change what a query has found. -/
theorem queryLoop_mono {tag : Ulong} {r : Bool × Ulong} {n : Nat} :
    ∀ {m : Nat} {idx : Ulong}, m ≤ n → fdTcacheQueryLoop map mapCnt tag m idx = some r →
      fdTcacheQueryLoop map mapCnt tag n idx = some r := by
  induction n with
  | zero =>
    intro m idx hm h
    obtain rfl := Nat.le_zero.1 hm
    exact h
  | succ n ih =>
    intro m idx hm h
    cases m with
    | zero => cases h
    | succ m =>
      rw [fdTcacheQueryLoop] at h ⊢
      obtain ⟨mapTag, hld, h⟩ := Option.bind_eq_some_iff.1 h
      rw [hld]
      simp only [Option.bind_eq_bind, Option.bind_some]
      by_cases hstop : (tag == mapTag || fdTcacheTagIsNull mapTag) = true
      · rw [if_pos hstop] at h ⊢
        exact h
      · rw [if_neg hstop] at h ⊢
        exact ih (Nat.le_of_succ_le_succ hm) h

end TcacheProbeAux

open TcacheProbeAux in
/-- A query of a map with an empty slot ends within `mapCnt` probes, at a slot of the map, and finds the tag exactly when the map
has it. The slot is that of the tag; or it is empty, and the map with the tag stored there can be probed. -/
theorem query_probes {map : List Ulong} {mapCnt tag : Ulong} (h : MapProbed map mapCnt) (hroom : fdTcacheTagNull ∈ map)
    (htag : tag ≠ fdTcacheTagNull) :
    ∃ found mapIdx, (∀ fuel, mapCnt.toNat ≤ fuel → fdTcacheQuery fuel map mapCnt tag = some (found, mapIdx)) ∧
      mapIdx.toNat < mapCnt.toNat ∧ (found = true ↔ tag ∈ map) ∧
      (found = true → ldUlong map mapIdx = some tag) ∧
      (found = false → ldUlong map mapIdx = some fdTcacheTagNull ∧
        ∃ map', stUlong map mapIdx tag = some map' ∧ MapProbed map' mapCnt) := by
  have hprobed := (mapProbed_iff h.length_eq h.pow2).1 h
  have hmem : ∀ y, Holds mapCnt.toNat (slots map) y ↔ y ∈ map := by
    intro y
    rw [← h.length_eq]
    exact holds_iff_mem
  have hmono : ∀ r, fdTcacheQuery mapCnt.toNat map mapCnt tag = some r →
      ∀ fuel, mapCnt.toNat ≤ fuel → fdTcacheQuery fuel map mapCnt tag = some r := fun r hres fuel hf =>
    queryLoop_mono hf hres
  obtain ⟨i, hi, ⟨hres, hat, hheld⟩ | ⟨hres, hempty, habs, hscan⟩⟩ :=
    query_spec h.length_eq h.pow2 (Nat.le_refl _) hprobed ((hmem _).2 hroom) htag
  · have hld := ldUlong_eq (a := map) (i := i) (by rw [h.length_eq]; exact hi)
    rw [hat] at hld
    exact ⟨true, i, hmono _ hres, hi, iff_of_true rfl ((hmem tag).1 hheld), fun _ => hld, nofun⟩
  · have hlt : i.toNat < map.length := by rw [h.length_eq]; exact hi
    have hld := ldUlong_eq hlt
    rw [hempty] at hld
    have hinsert := hprobed.insert hscan (home_lt h.pow2 tag) hi htag hempty
    rw [← slots_set hlt] at hinsert
    refine ⟨false, i, hmono _ hres, hi, iff_of_false Bool.false_ne_true fun hin => habs ((hmem tag).2 hin), nofun,
      fun _ => ⟨hld, _, stUlong_eq hlt tag, ?_⟩⟩
    exact (mapProbed_iff (by rw [List.length_set, h.length_eq]) h.pow2).2 hinsert

/-- A map of four slots with one empty: 3 and 7 share the last slot as their start, and 11, which starts there as well, is looked
for around to the empty slot. -/
theorem query_probes_wrapped :
    fdTcacheQuery 4 [7, 4, 0, 3] 4 11 = some (false, 2) ∧ MapProbed [7, 4, 11, 3] 4 := by
  have hres : fdTcacheQuery 4 [7, 4, 0, 3] 4 11 = some (false, 2) := by decide
  have hok : MapProbed [7, 4, 0, 3] 4 := ⟨rfl, ⟨2, by simp⟩, by decide, by decide⟩
  obtain ⟨found, mapIdx, hquery, _, _, _, hstore⟩ := query_probes hok (by decide) (show (11 : Ulong) ≠ _ by decide)
  have heq := (hquery 4 (by decide)).symm.trans hres
  cases heq
  obtain ⟨_, map', hst, hok'⟩ := hstore rfl
  cases hst
  exact ⟨hres, hok'⟩

end VerifyFiredancer
