import VerifyFiredancer.Lemmas.Tcache

/-!
# Removing a tag

A removal from a linearly probed map shifts later tags back into the slot it empties. `MapOk` is what it needs of a map, and it
keeps it: the tags of the map after it are those before it but for the one removed.
-/

namespace VerifyFiredancer

open Cyclic LinearProbe TcacheAux

/-- The tags of a map, in the order of their slots. -/
def mapTags (map : List Ulong) : List Ulong := map.filter (· ≠ fdTcacheTagNull)

/-- A map of a tcache.
1. It has `mapCnt` slots, a power of two that is at least 2.
2. No tag is in it twice.
3. At least one slot is empty.
4. No slot from the start of a tag around to its slot is empty. -/
structure MapOk (map : List Ulong) (mapCnt : Ulong) : Prop where
  length_eq : map.length = mapCnt.toNat
  pow2 : ∃ k, 1 ≤ k ∧ mapCnt.toNat = 2 ^ k
  distinct : (mapTags map).Nodup
  room : fdTcacheTagNull ∈ map
  noGap : ∀ j, j < mapCnt.toNat → slots map j ≠ fdTcacheTagNull → ∀ i, i < mapCnt.toNat →
    ahead mapCnt.toNat (fdTcacheMapStart (slots map j) mapCnt).toNat i <
      ahead mapCnt.toNat (fdTcacheMapStart (slots map j) mapCnt).toNat j →
    slots map i ≠ fdTcacheTagNull

namespace TcacheRemoveAux

/-- No tag is twice among the tags of a map exactly when no tag is in two of its slots. -/
theorem nodup_mapTags_iff (map : List Ulong) :
    (mapTags map).Nodup ↔ ∀ i j, i < map.length → j < map.length → slots map i = slots map j →
      slots map i ≠ fdTcacheTagNull → i = j := by
  have hslots : ∀ {i : Nat} (hi : i < map.length), slots map i = map[i] := fun hi => by
    rw [slots, List.getD_eq_getElem?_getD, List.getElem?_eq_getElem hi, Option.getD_some]
  rw [mapTags, List.Nodup, List.pairwise_filter, List.pairwise_iff_getElem]
  constructor
  · intro h i j hi hj heq hne
    rw [hslots hi] at hne
    rw [hslots hi, hslots hj] at heq
    rcases Nat.lt_trichotomy i j with hlt | rfl | hgt
    · exact absurd heq (h i j hi hj hlt (by simpa using hne) (by simpa [← heq] using hne))
    · rfl
    · exact absurd heq.symm (h j i hj hi hgt (by simpa [← heq] using hne) (by simpa using hne))
  · intro h i j hi hj hlt hni _ heq
    refine absurd (h i j hi hj ?_ ?_) (Nat.ne_of_lt hlt)
    · rw [hslots hi, hslots hj, heq]
    · rw [hslots hi]
      simpa using hni

/-- What is a tag of a map. -/
theorem mem_mapTags {map : List Ulong} {y : Ulong} : y ∈ mapTags map ↔ y ∈ map ∧ y ≠ fdTcacheTagNull := by
  simp [mapTags]

/-- A slot is empty exactly when there are fewer tags than slots. -/
theorem null_mem_iff (map : List Ulong) : fdTcacheTagNull ∈ map ↔ (mapTags map).length < map.length := by
  rw [mapTags, List.length_filter_lt_length_iff_exists]
  simp

end TcacheRemoveAux

namespace MapOk

variable {map : List Ulong} {mapCnt : Ulong}

theorem probed (h : MapOk map mapCnt) : Probed mapCnt.toNat fdTcacheTagNull (tcacheHome mapCnt) (slots map) where
  distinct := by
    rw [← h.length_eq]
    exact (TcacheRemoveAux.nodup_mapTags_iff map).1 h.distinct
  noGap := h.noGap

theorem holds_iff (h : MapOk map mapCnt) {y : Ulong} : Holds mapCnt.toNat (slots map) y ↔ y ∈ map := by
  rw [← h.length_eq]
  exact holds_iff_mem

end MapOk

open TcacheRemoveAux in
/-- A removal ends, and its map is one again. Of the null tag, or of a tag the map does not have, it leaves the map as it is;
of a tag of the map, it leaves exactly the other tags, each once. -/
theorem remove_deletes {map : List Ulong} {mapCnt : Ulong} {fuel : Nat} (tag : Ulong) (h : MapOk map mapCnt)
    (hf : mapCnt.toNat ≤ fuel) :
    ∃ map', fdTcacheRemove fuel map mapCnt tag = some map' ∧ MapOk map' mapCnt ∧
      (tag = fdTcacheTagNull ∨ tag ∉ map → map' = map) ∧ (mapTags map').Perm ((mapTags map).erase tag) := by
  obtain ⟨k, hk, hpow⟩ := h.pow2
  have hp : ∃ k, mapCnt.toNat = 2 ^ k := ⟨k, hpow⟩
  have hroom : ∃ z, z < mapCnt.toNat ∧ slots map z = fdTcacheTagNull := h.holds_iff.2 h.room
  obtain ⟨map', hres, hlen, hprobed, hholds⟩ := remove_spec h.length_eq hp hf h.probed hroom tag
  have hnodup : (mapTags map').Nodup := by
    rw [nodup_mapTags_iff, hlen]
    exact hprobed.distinct
  have hmem : ∀ y, y ≠ fdTcacheTagNull → (y ∈ map' ↔ y ∈ map ∧ y ≠ tag) := by
    intro y hy
    rw [← holds_iff_mem, hlen, hholds y hy, h.holds_iff]
  have hperm : (mapTags map').Perm ((mapTags map).erase tag) := by
    rw [List.perm_ext_iff_of_nodup hnodup (h.distinct.erase tag)]
    intro y
    rw [h.distinct.mem_erase_iff, mem_mapTags, mem_mapTags]
    constructor
    · rintro ⟨hy, hne⟩
      have := (hmem y hne).1 hy
      exact ⟨this.2, this.1, hne⟩
    · rintro ⟨hyt, hy, hne⟩
      exact ⟨(hmem y hne).2 ⟨hy, hyt⟩, hne⟩
  refine ⟨map', hres, ⟨hlen, ⟨k, hk, hpow⟩, hnodup, ?_, hprobed.noGap⟩, ?_, hperm⟩
  · have hlt := (null_mem_iff map).1 h.room
    rw [null_mem_iff, hperm.length_eq, hlen, ← h.length_eq]
    exact Nat.lt_of_le_of_lt (List.length_erase_le) hlt
  · intro habs
    rw [← h.holds_iff] at habs
    have := remove_absent h.length_eq hp hf h.probed hroom habs
    rw [hres] at this
    exact Option.some.inj this

/-- A map of four slots in which 3 and 7 share the last slot as their start, and 7 has pushed 4 out of the first one. -/
theorem remove_deletes_wrapped :
    ∃ map', fdTcacheRemove 4 [7, 4, 0, 3] 4 3 = some map' ∧ MapOk map' 4 ∧
      ((3 : Ulong) = fdTcacheTagNull ∨ (3 : Ulong) ∉ ([7, 4, 0, 3] : List Ulong) → map' = [7, 4, 0, 3]) ∧
      (mapTags map').Perm ((mapTags [7, 4, 0, 3]).erase 3) :=
  remove_deletes 3 ⟨rfl, ⟨2, by simp⟩, by decide, by decide, by decide⟩ (by decide)

end VerifyFiredancer
