import VerifyFiredancer.Tcache
import VerifyFiredancer.Lib.LinearProbe
import VerifyFiredancer.Lib.PowerMask

/-!
# The operations of a tcache

The map of a tcache as a linearly probed table (`LinearProbe`): the masks of the source are its `next` and its homes, the loop
of `FD_TCACHE_QUERY` is its search, and the loops of `fd_tcache_remove` are its removal, whose test for a tag to move is that the
tag is found through the hole (`TcacheAux.removeTest_iff`). The three specs at the end say all there is to know of an operation:
`TcacheAux.query_spec`, `TcacheAux.remove_spec`, `TcacheAux.insert_spec`; nothing later unfolds one.
-/

namespace VerifyFiredancer

open Cyclic LinearProbe

/-- The words of an array by index; outside of it, null. -/
def slots (a : List Ulong) (i : Nat) : Ulong := a.getD i fdTcacheTagNull

/-- The slot a probe for a tag starts at. -/
def tcacheHome (mapCnt tag : Ulong) : Nat := (fdTcacheMapStart tag mapCnt).toNat

/-- The invariant of a tcache. -/
structure FdTcache.Inv (s : FdTcache) : Prop extends s.Shaped where
  oldest_lt : s.oldest.toNat < s.depth.toNat
  probed : Probed s.mapCnt.toNat fdTcacheTagNull (tcacheHome s.mapCnt) (slots s.map)
  inRing : ∀ i, i < s.mapCnt.toNat → slots s.map i ≠ fdTcacheTagNull → Holds s.depth.toNat (slots s.ring) (slots s.map i)

namespace TcacheAux

/-! ## Arrays -/

theorem tagIsNull_iff (tag : Ulong) : fdTcacheTagIsNull tag = true ↔ tag = fdTcacheTagNull := by
  simp [fdTcacheTagIsNull]

/-- A read in bounds. -/
theorem tagIsNull_eq_false {tag : Ulong} (h : tag ≠ fdTcacheTagNull) : fdTcacheTagIsNull tag = false := by
  rw [Bool.eq_false_iff, ne_eq, tagIsNull_iff]
  exact h

theorem ldUlong_eq {a : List Ulong} {i : Ulong} (h : i.toNat < a.length) : ldUlong a i = some (slots a i.toNat) := by
  simp [ldUlong, slots, List.getElem?_eq_getElem h]

/-- A write in bounds. -/
theorem stUlong_eq {a : List Ulong} {i : Ulong} (h : i.toNat < a.length) (v : Ulong) :
    stUlong a i v = some (a.set i.toNat v) := by
  rw [stUlong, if_pos h]

/-- A write changes its own word only. -/
theorem slots_set {a : List Ulong} {i : Nat} (h : i < a.length) (v : Ulong) :
    slots (a.set i v) = Function.update (slots a) i v := by
  funext j
  by_cases hj : j = i
  · subst hj
    simp [slots, h]
  · rw [Function.update_of_ne hj]
    simp [slots, List.getElem?_set_ne (Ne.symm hj)]

/-- An array of nulls has null in every slot. -/
theorem slots_replicate (n i : Nat) : slots (List.replicate n fdTcacheTagNull) i = fdTcacheTagNull := by
  simp [slots, List.getElem?_replicate]
  split <;> rfl

/-- A word is in an array as it is in its list. -/
theorem holds_iff_mem {a : List Ulong} {y : Ulong} : Holds a.length (slots a) y ↔ y ∈ a := by
  rw [List.mem_iff_getElem]
  constructor
  · rintro ⟨i, hi, rfl⟩
    exact ⟨i, hi, by simp [slots, hi]⟩
  · rintro ⟨i, hi, rfl⟩
    exact ⟨i, hi, by simp [slots, hi]⟩

/-- The reset loop, when `k` words are done. -/
theorem resetLoop_prefix (a : List Ulong) (ha : a.length < 2 ^ 64) :
    ∀ k, k ≤ a.length → (List.range k).foldlM (fun a idx => stUlong a (BitVec.ofNat 64 idx) fdTcacheTagNull) a =
      some (List.replicate k fdTcacheTagNull ++ a.drop k) := by
  intro k
  induction k with
  | zero => intro _; rfl
  | succ k ih =>
    intro hk
    have hnat : (BitVec.ofNat 64 k : Ulong).toNat = k := by
      rw [BitVec.toNat_ofNat]
      exact Nat.mod_eq_of_lt (by omega)
    rw [List.range_succ, List.foldlM_append, ih (by omega)]
    simp only [List.foldlM_cons, List.foldlM_nil, Option.bind_eq_bind, Option.bind_some]
    rw [stUlong_eq (by simp [hnat]; omega), hnat, List.set_append_right _ _ (by simp)]
    simp only [List.length_replicate, Nat.sub_self, Option.bind_some]
    rw [List.drop_eq_getElem_cons (by omega), List.set_cons_zero, List.replicate_succ', List.append_assoc]
    rfl

/-- A reset array has nulls only. -/
theorem resetLoop_eq {a : List Ulong} {cnt : Ulong} (h : a.length = cnt.toNat) :
    fdTcacheResetLoop a cnt = some (List.replicate cnt.toNat fdTcacheTagNull) := by
  have hlt := cnt.isLt
  rw [fdTcacheResetLoop, resetLoop_prefix a (by omega) _ (by omega), List.drop_of_length_le (by omega), List.append_nil]

/-! ## Probing -/

section Probe

variable {mapCnt : Ulong}

/-- The mask of a power of two is a remainder. -/
theorem mask_toNat (hp : ∃ k, mapCnt.toNat = 2 ^ k) (x : Ulong) : (x &&& (mapCnt - 1)).toNat = x.toNat % mapCnt.toNat := by
  obtain ⟨k, hk⟩ := hp
  rw [PowerMask.toNat_and_mask hk, hk]

theorem home_lt (hp : ∃ k, mapCnt.toNat = 2 ^ k) (tag : Ulong) : tcacheHome mapCnt tag < mapCnt.toNat := by
  rw [tcacheHome, fdTcacheMapStart, mask_toNat hp]
  exact Nat.mod_lt _ (PowerMask.toNat_pos hp)

/-- The next location to probe is the next slot of the table. -/
theorem mapNext_toNat (hp : ∃ k, mapCnt.toNat = 2 ^ k) {idx : Ulong} (h : idx.toNat < mapCnt.toNat) :
    (fdTcacheMapNext idx mapCnt).toNat = next mapCnt.toNat idx.toNat := by
  have hlt := mapCnt.isLt
  have hadd : (idx + 1).toNat = idx.toNat + 1 :=
    BitVec.toNat_add_of_lt (y := 1) (show idx.toNat + 1 < 2 ^ 64 by omega)
  rw [fdTcacheMapNext, mask_toNat hp, hadd, next]
  split
  · next he => rw [he, Nat.mod_self]
  · exact Nat.mod_eq_of_lt (by omega)

/-- The test of the source for a tag it leaves in its slot: the tag is not found through the hole. -/
theorem removeTest_iff {hole start slot : Ulong} (hh : hole.toNat < mapCnt.toNat) (hs : slot.toNat < mapCnt.toNat)
    (hst : start.toNat < mapCnt.toNat) (hne : slot.toNat ≠ hole.toNat) :
    ((hole < start && start ≤ slot) || (slot < hole && (hole < start || start ≤ slot))) = true ↔
      ¬ahead mapCnt.toNat start.toNat hole.toNat < ahead mapCnt.toNat start.toNat slot.toNat := by
  simp only [Bool.or_eq_true, Bool.and_eq_true, decide_eq_true_eq, BitVec.lt_def, BitVec.le_def]
  unfold ahead
  split_ifs <;> omega

end Probe

section Loops

variable {map : List Ulong} {mapCnt : Ulong} (hlen : map.length = mapCnt.toNat) (hp : ∃ k, mapCnt.toNat = 2 ^ k)
include hlen hp

/-- The loop of a query ends, at the tag or at an empty slot; the distance to some empty slot falls with every round. -/
theorem queryLoop_spec (tag : Ulong) {z : Nat} (hz : z < mapCnt.toNat) (hnull : slots map z = fdTcacheTagNull) :
    ∀ (fuel : Nat) (idx : Ulong), idx.toNat < mapCnt.toNat → ahead mapCnt.toNat idx.toNat z < fuel →
      Scanned mapCnt.toNat fdTcacheTagNull (tcacheHome mapCnt) (slots map) tag idx.toNat →
      ∃ i : Ulong, fdTcacheQueryLoop map mapCnt tag fuel idx = some (tag == slots map i.toNat, i) ∧
        i.toNat < mapCnt.toNat ∧ (tag = slots map i.toNat ∨ slots map i.toNat = fdTcacheTagNull) ∧
        Scanned mapCnt.toNat fdTcacheTagNull (tcacheHome mapCnt) (slots map) tag i.toNat := by
  intro fuel
  induction fuel with
  | zero => intro idx _ hf; exact absurd hf (Nat.not_lt_zero _)
  | succ fuel ih =>
    intro idx hidx hf hs
    have hld := ldUlong_eq (a := map) (i := idx) (by omega)
    rw [fdTcacheQueryLoop, hld]
    by_cases hstop : tag = slots map idx.toNat ∨ slots map idx.toNat = fdTcacheTagNull
    · refine ⟨idx, ?_, hidx, hstop, hs⟩
      have : (tag == slots map idx.toNat || fdTcacheTagIsNull (slots map idx.toNat)) = true := by
        rw [Bool.or_eq_true, beq_iff_eq, tagIsNull_iff]
        exact hstop
      simp only [Option.bind_eq_bind, Option.bind_some, this, if_true]
      rfl
    · have hgo : (tag == slots map idx.toNat || fdTcacheTagIsNull (slots map idx.toNat)) = false := by
        rw [Bool.eq_false_iff, ne_eq, Bool.or_eq_true, beq_iff_eq, tagIsNull_iff]
        exact hstop
      rw [not_or] at hstop
      have hne : idx.toNat ≠ z := by
        intro e
        rw [e] at hstop
        exact hstop.2 hnull
      have hnext := mapNext_toNat hp hidx
      have hcloser := ahead_next_left hidx hz hne
      obtain ⟨i, hres, h⟩ := ih (fdTcacheMapNext idx mapCnt) (by rw [hnext]; exact next_lt hidx) (by rw [hnext]; omega)
        (by rw [hnext]; exact hs.step (home_lt hp tag) hidx hstop.2 (Ne.symm hstop.1))
      refine ⟨i, ?_, h⟩
      simp only [Option.bind_eq_bind, Option.bind_some, hgo, Bool.false_eq_true, if_false]
      exact hres

/-- The inner loop of a removal ends, at an empty slot or at a tag that is found through the hole. -/
theorem removeScan_spec {hole : Ulong} {z : Nat} (hhole : hole.toNat < mapCnt.toNat) (hz : z < mapCnt.toNat)
    (hnull : slots map z = fdTcacheTagNull) :
    ∀ (fuel : Nat) (slot : Ulong), slot.toNat < mapCnt.toNat → slot.toNat ≠ z → ahead mapCnt.toNat slot.toNat z ≤ fuel →
      Digging mapCnt.toNat fdTcacheTagNull (tcacheHome mapCnt) (slots map) hole.toNat slot.toNat →
      ∃ s, s < mapCnt.toNat ∧ ahead mapCnt.toNat s z ≤ ahead mapCnt.toNat slot.toNat z ∧ s ≠ z ∧
        Digging mapCnt.toNat fdTcacheTagNull (tcacheHome mapCnt) (slots map) hole.toNat s ∧
        (fdTcacheRemoveScan map mapCnt hole fuel slot = some none ∧
            slots map (next mapCnt.toNat s) = fdTcacheTagNull ∨
          ∃ slot' : Ulong, slot'.toNat = next mapCnt.toNat s ∧
            fdTcacheRemoveScan map mapCnt hole fuel slot = some (some (slot', slots map slot'.toNat)) ∧
            slots map slot'.toNat ≠ fdTcacheTagNull ∧
            ahead mapCnt.toNat (tcacheHome mapCnt (slots map slot'.toNat)) hole.toNat <
              ahead mapCnt.toNat (tcacheHome mapCnt (slots map slot'.toNat)) slot'.toNat) := by
  intro fuel
  induction fuel with
  | zero =>
    intro slot hslot hne hf
    have := ahead_pos hslot hne
    omega
  | succ fuel ih =>
    intro slot hslot hne hf hd
    have hnext := mapNext_toNat hp hslot
    have hlt : (fdTcacheMapNext slot mapCnt).toNat < mapCnt.toNat := by
      rw [hnext]
      exact next_lt hslot
    have hld := ldUlong_eq (a := map) (i := fdTcacheMapNext slot mapCnt) (by omega)
    have hcloser := ahead_next_left hslot hz hne
    rw [fdTcacheRemoveScan]
    simp only [hld, Option.bind_eq_bind, Option.bind_some]
    by_cases hempty : slots map (fdTcacheMapNext slot mapCnt).toNat = fdTcacheTagNull
    · refine ⟨slot.toNat, hslot, Nat.le_refl _, hne, hd, Or.inl ⟨?_, by rw [← hnext]; exact hempty⟩⟩
      rw [if_pos ((tagIsNull_iff _).2 hempty)]
      rfl
    · have hfull := hempty
      rw [hnext] at hfull
      rw [if_neg (by rw [tagIsNull_iff]; exact hempty)]
      have htest := removeTest_iff hhole hlt (home_lt hp (slots map (fdTcacheMapNext slot mapCnt).toNat))
        (by rw [hnext]; exact hd.next_ne_hole hfull)
      by_cases hkeep : ¬ahead mapCnt.toNat (tcacheHome mapCnt (slots map (fdTcacheMapNext slot mapCnt).toNat)) hole.toNat <
          ahead mapCnt.toNat (tcacheHome mapCnt (slots map (fdTcacheMapNext slot mapCnt).toNat))
            (fdTcacheMapNext slot mapCnt).toNat
      · rw [tcacheHome] at hkeep
        rw [htest.2 hkeep]
        simp only [Bool.not_true, Bool.false_eq_true, if_false]
        have hz' : (fdTcacheMapNext slot mapCnt).toNat ≠ z := by
          intro e
          rw [e] at hempty
          exact hempty hnull
        have hskip := hd.skip hhole hslot hfull (by rw [← hnext]; exact hkeep)
        rw [← hnext] at hskip
        obtain ⟨s, hs, hds, hsz, h⟩ := ih _ hlt hz' (by rw [hnext]; omega) hskip
        exact ⟨s, hs, by rw [hnext] at hds; omega, hsz, h⟩
      · have hmove := not_not.1 hkeep
        refine ⟨slot.toNat, hslot, Nat.le_refl _, hne, hd, Or.inr ⟨fdTcacheMapNext slot mapCnt, hnext, ?_, hempty, hmove⟩⟩
        rw [tcacheHome] at hkeep
        rw [Bool.eq_false_iff.2 (fun e => hkeep (htest.1 e))]
        rfl

end Loops

/-- The outer loop of a removal ends with a table, without the tag in the slot to empty. -/
theorem removeLoop_spec {mapCnt : Ulong} (hp : ∃ k, mapCnt.toNat = 2 ^ k) {scanFuel z : Nat} (hf : mapCnt.toNat ≤ scanFuel)
    (hz : z < mapCnt.toNat) :
    ∀ (fuel : Nat) (map : List Ulong) (slot : Ulong), map.length = mapCnt.toNat → slot.toNat < mapCnt.toNat →
      slots map z = fdTcacheTagNull → slot.toNat ≠ z → ahead mapCnt.toNat slot.toNat z < fuel →
      Digging mapCnt.toNat fdTcacheTagNull (tcacheHome mapCnt) (Function.update (slots map) slot.toNat fdTcacheTagNull)
        slot.toNat slot.toNat →
      ∃ map', fdTcacheRemoveLoop mapCnt scanFuel fuel map slot = some map' ∧ map'.length = mapCnt.toNat ∧
        Probed mapCnt.toNat fdTcacheTagNull (tcacheHome mapCnt) (slots map') ∧
        ∀ y, y ≠ fdTcacheTagNull → (Holds mapCnt.toNat (slots map') y ↔
          Holds mapCnt.toNat (Function.update (slots map) slot.toNat fdTcacheTagNull) y) := by
  intro fuel
  induction fuel with
  | zero => intro map slot _ _ _ _ h; exact absurd h (Nat.not_lt_zero _)
  | succ fuel ih =>
    intro map slot hlen hslot hnull hne hlt hd
    have hset := slots_set (a := map) (i := slot.toNat) (by omega) fdTcacheTagNull
    have hlen1 : (map.set slot.toNat fdTcacheTagNull).length = mapCnt.toNat := by rw [List.length_set, hlen]
    have hnull1 : slots (map.set slot.toNat fdTcacheTagNull) z = fdTcacheTagNull := by
      rw [hset, Function.update_of_ne (Ne.symm hne), hnull]
    rw [← hset] at hd ⊢
    have hdist := ahead_lt hslot hz
    obtain ⟨s, hs, hds, hsz, hdig, hscan⟩ :=
      removeScan_spec hlen1 hp hslot hz hnull1 scanFuel slot hslot hne (by omega) hd
    rw [fdTcacheRemoveLoop, stUlong_eq (by omega)]
    simp only [Option.bind_eq_bind, Option.bind_some]
    rcases hscan with ⟨hres, hempty⟩ | ⟨slot', hslot', hres, hfull, hfound⟩
    · rw [hres]
      exact ⟨_, rfl, hlen1, hdig.done (home_lt hp) hslot hs hempty, fun _ _ => Iff.rfl⟩
    · have hlt' := next_lt hs
      have hcloser := ahead_next_left hs hz hsz
      have hset2 := slots_set (a := map.set slot.toNat fdTcacheTagNull) (i := slot.toNat) (by omega)
        (slots (map.set slot.toNat fdTcacheTagNull) slot'.toNat)
      rw [hres]
      simp only [Option.bind_some]
      rw [stUlong_eq (by omega)]
      simp only [Option.bind_some]
      rw [hslot'] at hfull hfound
      have hlen2 : ((map.set slot.toNat fdTcacheTagNull).set slot.toNat
          (slots (map.set slot.toNat fdTcacheTagNull) slot'.toNat)).length = mapCnt.toNat := by rw [List.length_set, hlen1]
      obtain ⟨map', hloop, hlen', hprobed, hholds⟩ := ih _ slot' hlen2 (by omega)
        (by rw [hset2, Function.update_of_ne (Ne.symm hne), hnull1])
        (by rw [hslot']; intro e; rw [e] at hfull; exact hfull hnull1)
        (by rw [hslot']; omega)
        (by rw [hset2, hslot']; exact hdig.move hs hfull hfound)
      refine ⟨map', hloop, hlen', hprobed, fun y hy => ?_⟩
      rw [hholds y hy, hset2, hslot', hdig.holds_move hslot hs hfull hy]

/-! ## Specs -/

section Specs

variable {map : List Ulong} {mapCnt : Ulong} {fuel : Nat} (hlen : map.length = mapCnt.toNat)
  (hp : ∃ k, mapCnt.toNat = 2 ^ k) (hf : mapCnt.toNat ≤ fuel)
  (hprobed : Probed mapCnt.toNat fdTcacheTagNull (tcacheHome mapCnt) (slots map))
  (hroom : ∃ z, z < mapCnt.toNat ∧ slots map z = fdTcacheTagNull)
include hlen hp hf hprobed hroom

/-- A query of a table with an empty slot ends, and finds a tag exactly when the table holds it; where it does not, it has come
to an empty slot for the tag. -/
theorem query_spec {tag : Ulong} (htag : tag ≠ fdTcacheTagNull) :
    ∃ i : Ulong, i.toNat < mapCnt.toNat ∧
      (fdTcacheQuery fuel map mapCnt tag = some (true, i) ∧ slots map i.toNat = tag ∧
          Holds mapCnt.toNat (slots map) tag ∨
        fdTcacheQuery fuel map mapCnt tag = some (false, i) ∧ slots map i.toNat = fdTcacheTagNull ∧
          ¬Holds mapCnt.toNat (slots map) tag ∧
          Scanned mapCnt.toNat fdTcacheTagNull (tcacheHome mapCnt) (slots map) tag i.toNat) := by
  obtain ⟨z, hz, hnull⟩ := hroom
  have hhome := home_lt hp tag
  have hdist := ahead_lt hhome hz
  obtain ⟨i, hres, hi, hstop, hscan⟩ := queryLoop_spec hlen hp tag hz hnull fuel (fdTcacheMapStart tag mapCnt) hhome
    (by rw [tcacheHome] at hdist; omega) Scanned.start
  refine ⟨i, hi, ?_⟩
  rw [fdTcacheQuery, hres]
  by_cases heq : tag = slots map i.toNat
  · refine Or.inl ⟨?_, heq.symm, ⟨i.toNat, hi, heq.symm⟩⟩
    rw [beq_iff_eq.2 heq]
  · have hempty := hstop.resolve_left heq
    refine Or.inr ⟨?_, hempty, hscan.absent hprobed hhome hi htag hempty, hscan⟩
    rw [beq_eq_false_iff_ne.2 heq]

/-- A removal of the null tag or of a tag the table does not hold leaves the table as it is. -/
theorem remove_absent {tag : Ulong} (h : tag = fdTcacheTagNull ∨ ¬Holds mapCnt.toNat (slots map) tag) :
    fdTcacheRemove fuel map mapCnt tag = some map := by
  by_cases htag : tag = fdTcacheTagNull
  · rw [fdTcacheRemove, (tagIsNull_iff tag).2 htag]
    rfl
  · have hnn := tagIsNull_eq_false htag
    obtain ⟨i, hi, ⟨_, _, hheld⟩ | ⟨hres, _, _, _⟩⟩ := query_spec hlen hp hf hprobed hroom htag
    · exact absurd hheld (h.resolve_left htag)
    · simp only [fdTcacheRemove, hnn, hres, Option.bind_eq_bind, Option.bind_some]
      rfl

/-- A removal from a table with an empty slot ends with the table without the tag. -/
theorem remove_spec (tag : Ulong) :
    ∃ map', fdTcacheRemove fuel map mapCnt tag = some map' ∧ map'.length = mapCnt.toNat ∧
      Probed mapCnt.toNat fdTcacheTagNull (tcacheHome mapCnt) (slots map') ∧
      ∀ y, y ≠ fdTcacheTagNull → (Holds mapCnt.toNat (slots map') y ↔ Holds mapCnt.toNat (slots map) y ∧ y ≠ tag) := by
  by_cases habs : tag = fdTcacheTagNull ∨ ¬Holds mapCnt.toNat (slots map) tag
  · refine ⟨map, remove_absent hlen hp hf hprobed hroom habs, hlen, hprobed, fun y hy => ?_⟩
    constructor
    · intro h
      refine ⟨h, ?_⟩
      rintro rfl
      exact habs.elim hy (fun hn => hn h)
    · exact And.left
  · rw [not_or, not_not] at habs
    obtain ⟨htag, hheld⟩ := habs
    have hnn := tagIsNull_eq_false htag
    obtain ⟨i, hi, ⟨hres, hat, _⟩ | ⟨_, _, habs, _⟩⟩ := query_spec hlen hp hf hprobed hroom htag
    · obtain ⟨z, hz, hnull⟩ := hroom
      have hne : i.toNat ≠ z := by
        rintro rfl
        exact htag (hat.symm.trans hnull)
      have hdist := ahead_lt hi hz
      obtain ⟨map', hloop, hlen', hprobed', hholds⟩ :=
        removeLoop_spec hp hf hz fuel map i hlen hi hnull hne (by omega) (Digging.start hprobed)
      refine ⟨map', ?_, hlen', hprobed', fun y hy => ?_⟩
      · simp only [fdTcacheRemove, hnn, hres, Option.bind_eq_bind, Option.bind_some]
        exact hloop
      · rw [hholds y hy, holds_start hprobed hi hy, hat]
    · exact absurd hheld habs

end Specs

end TcacheAux

open TcacheAux

namespace FdTcache.Inv

variable {s : FdTcache} {fuel : Nat}

/-- The map holds at most `depth` tags. -/
theorem count_le (h : s.Inv) : count s.mapCnt.toNat fdTcacheTagNull (slots s.map) ≤ s.depth.toNat :=
  h.probed.count_le h.inRing

/-- The map has an empty slot. -/
theorem room_map (h : s.Inv) : ∃ z, z < s.mapCnt.toNat ∧ slots s.map z = fdTcacheTagNull := by
  have hcount := h.count_le
  have hroom := h.room
  exact exists_null (by omega)

end FdTcache.Inv

/-- The map of a tcache holds a tag. -/
def FdTcache.Has (s : FdTcache) (tag : Ulong) : Prop := Holds s.mapCnt.toNat (slots s.map) tag

/-- The tag the next insert evicts: null until the ring is full. -/
def FdTcache.victim (s : FdTcache) : Ulong := slots s.ring s.oldest.toNat

namespace FdTcache.Inv

variable {s : FdTcache} {fuel : Nat}

/-- After the tag of an insert is in the map and before a tag is evicted, the map has at most one tag more than `depth`. -/
theorem room_inserted (h : s.Inv) {tag : Ulong} {i : Nat} (hi : i < s.mapCnt.toNat)
    (hs : Scanned s.mapCnt.toNat fdTcacheTagNull (tcacheHome s.mapCnt) (slots s.map) tag i)
    (htag : tag ≠ fdTcacheTagNull) (he : slots s.map i = fdTcacheTagNull) :
    ∃ z, z < s.mapCnt.toNat ∧ Function.update (slots s.map) i tag z = fdTcacheTagNull := by
  have hroom := h.room
  have hprobed := h.probed.insert hs (home_lt h.pow2 tag) hi htag he
  have hcount := hprobed.count_le (d := s.depth.toNat + 1)
    (r := fun k => if k < s.depth.toNat then slots s.ring k else tag) (by
      intro j hj hne
      by_cases hji : j = i
      · rw [hji, Function.update_self]
        exact ⟨s.depth.toNat, Nat.lt_succ_self _, if_neg (Nat.lt_irrefl _)⟩
      · rw [Function.update_of_ne hji] at hne ⊢
        obtain ⟨k, hk, hr⟩ := h.inRing j hj hne
        exact ⟨k, Nat.lt_succ_of_lt hk, (if_pos hk).trans hr⟩)
  exact exists_null (by omega)

/-- What a query finds. -/
theorem query (h : s.Inv) (hf : s.mapCnt.toNat ≤ fuel) {tag : Ulong} (htag : tag ≠ fdTcacheTagNull) :
    ∃ found i, fdTcacheQuery fuel s.map s.mapCnt tag = some (found, i) ∧ (found = true ↔ s.Has tag) := by
  obtain ⟨i, _, ⟨hres, _, hhas⟩ | ⟨hres, _, habs, _⟩⟩ := query_spec h.map_len h.pow2 hf h.probed h.room_map htag
  · exact ⟨true, i, hres, by simp [FdTcache.Has, hhas]⟩
  · exact ⟨false, i, hres, by simp [FdTcache.Has, habs]⟩

/-- A removal removes its tag from the map, and nothing else. -/
theorem remove (h : s.Inv) (hf : s.mapCnt.toNat ≤ fuel) (tag : Ulong) :
    ∃ map, s.step fuel (.remove tag) = some ({ s with map }, false) ∧ ({ s with map } : FdTcache).Inv ∧
      ∀ y, y ≠ fdTcacheTagNull → (({ s with map } : FdTcache).Has y ↔ s.Has y ∧ y ≠ tag) := by
  obtain ⟨map, hres, hlen, hprobed, hholds⟩ := remove_spec h.map_len h.pow2 hf h.probed h.room_map tag
  refine ⟨map, ?_, ?_, hholds⟩
  · simp only [FdTcache.step, hres, Option.bind_eq_bind, Option.bind_some]
    rfl
  · refine ⟨⟨h.depth_pos, h.pow2, h.room, h.ring_len, hlen⟩, h.oldest_lt, hprobed, fun i hi hne => ?_⟩
    obtain ⟨j, hj, hjy⟩ := ((hholds _ hne).1 ⟨i, hi, rfl⟩).1
    rw [← hjy] at hne ⊢
    exact h.inRing j hj hne

/-- The next `oldest`, around. -/
theorem oldest_next (h : s.Inv) :
    (if s.depth ≤ s.oldest + 1 then (0 : Ulong) else s.oldest + 1).toNat = next s.depth.toNat s.oldest.toNat := by
  have hlt := h.oldest_lt
  have hd := s.depth.isLt
  have hadd : (s.oldest + 1).toNat = s.oldest.toNat + 1 :=
    BitVec.toNat_add_of_lt (y := 1) (show s.oldest.toNat + 1 < 2 ^ 64 by omega)
  unfold next
  by_cases hwrap : s.depth ≤ s.oldest + 1
  · rw [if_pos hwrap]
    rw [BitVec.le_def, hadd] at hwrap
    rw [if_pos (by omega)]
    rfl
  · rw [if_neg hwrap, hadd]
    rw [BitVec.le_def, hadd] at hwrap
    rw [if_neg (by omega)]

/-- An insert of a tag the map holds changes nothing; any other goes into the map and into the ring, and evicts. -/
theorem insert (h : s.Inv) (hf : s.mapCnt.toNat ≤ fuel) {tag : Ulong} (htag : tag ≠ fdTcacheTagNull) :
    s.Has tag ∧ s.step fuel (.insert tag) = some (s, true) ∨
      ¬s.Has tag ∧ ∃ s' : FdTcache, s.step fuel (.insert tag) = some (s', false) ∧ s'.Inv ∧ s'.depth = s.depth ∧
        s'.mapCnt = s.mapCnt ∧ s'.oldest.toNat = next s.depth.toNat s.oldest.toNat ∧
        slots s'.ring = Function.update (slots s.ring) s.oldest.toNat tag ∧
        ∀ y, y ≠ fdTcacheTagNull → (s'.Has y ↔ (s.Has y ∨ y = tag) ∧ y ≠ s.victim) := by
  obtain ⟨i, hi, ⟨hres, _, hhas⟩ | ⟨hres, hempty, habs, hscan⟩⟩ :=
    query_spec h.map_len h.pow2 hf h.probed h.room_map htag
  · refine Or.inl ⟨hhas, ?_⟩
    simp only [FdTcache.step, fdTcacheInsert, hres, Option.bind_eq_bind, Option.bind_some]
    rfl
  · refine Or.inr ⟨habs, ?_⟩
    have hold := h.oldest_lt
    have hset := slots_set (a := s.map) (i := i.toNat) (by rw [h.map_len]; exact hi) tag
    have hring := slots_set (a := s.ring) (i := s.oldest.toNat) (by rw [h.ring_len]; exact hold) tag
    have hprobed := h.probed.insert hscan (home_lt h.pow2 tag) hi htag hempty
    have hroom := h.room_inserted hi hscan htag hempty
    rw [← hset] at hprobed hroom
    obtain ⟨map, hrem, hlen, hprobed', hholds⟩ :=
      remove_spec (by rw [List.length_set, h.map_len]) h.pow2 hf hprobed hroom s.victim
    have hhas : ∀ y, y ≠ fdTcacheTagNull →
        (Holds s.mapCnt.toNat (slots map) y ↔ (s.Has y ∨ y = tag) ∧ y ≠ s.victim) := by
      intro y hy
      rw [hholds y hy, hset, holds_insert hi hempty hy]
      rfl
    refine ⟨{ s with oldest := _, ring := _, map := map }, ?_, ?_, rfl, rfl, h.oldest_next, hring, hhas⟩
    · simp only [FdTcache.step, fdTcacheInsert, hres, Option.bind_eq_bind, Option.bind_some, Bool.not_false, if_true]
      rw [stUlong_eq (by rw [h.map_len]; exact hi), ldUlong_eq (by rw [h.ring_len]; exact hold),
        stUlong_eq (by rw [h.ring_len]; exact hold)]
      simp only [Option.bind_some]
      rw [FdTcache.victim] at hrem
      rw [hrem]
      rfl
    · refine ⟨⟨h.depth_pos, h.pow2, h.room, by rw [List.length_set]; exact h.ring_len, hlen⟩, ?_, hprobed', ?_⟩
      · show (if s.depth ≤ s.oldest + 1 then (0 : Ulong) else s.oldest + 1).toNat < _
        rw [h.oldest_next]
        exact next_lt hold
      · intro j hj hne
        show Holds s.depth.toNat (slots (s.ring.set s.oldest.toNat tag)) _
        rw [hring]
        obtain ⟨hin, hvictim⟩ := (hhas _ hne).1 ⟨j, hj, rfl⟩
        rcases hin with ⟨k, hk, hky⟩ | heq
        · -- a tag that was in the map is in the ring elsewhere than where it is overwritten
          rw [← hky] at hne hvictim ⊢
          obtain ⟨l, hl, hly⟩ := h.inRing k hk hne
          have hlo : l ≠ s.oldest.toNat := by
            rintro rfl
            exact hvictim hly.symm
          exact ⟨l, hl, by rw [Function.update_of_ne hlo, hly]⟩
        · rw [heq]
          exact ⟨s.oldest.toNat, hold, Function.update_self _ _ _⟩

end FdTcache.Inv

/-! ## Runs -/

namespace TcacheAux

/-- A property of states and logs that every operation of a run keeps holds at its end, and the run does not get stuck. -/
theorem run_induct (P : FdTcache → TcacheLog → Prop) (ok : TcacheOp → Prop) (fuel : Nat)
    (hstep : ∀ s log op, ok op → P s log → ∃ s' dup, s.step fuel op = some (s', dup) ∧ P s' (log ++ [(op, dup)])) :
    ∀ (ops : List TcacheOp) (s : FdTcache) (log : TcacheLog), (∀ op ∈ ops, ok op) → P s log →
      ∃ s' log', s.run fuel log ops = some (s', log') ∧ P s' log' := by
  intro ops
  induction ops with
  | nil => intro s log _ h; exact ⟨s, log, rfl, h⟩
  | cons op ops ih =>
    intro s log hok h
    obtain ⟨s1, dup, hs, h1⟩ := hstep s log op (hok op (List.mem_cons_self ..)) h
    obtain ⟨s', log', hrun, h'⟩ := ih s1 _ (fun o ho => hok o (List.mem_cons_of_mem op ho)) h1
    refine ⟨s', log', ?_, h'⟩
    simp only [FdTcache.run, hs, Option.bind_eq_bind, Option.bind_some]
    exact hrun

/-- An event of a log with one more event is the last one or an event of the log. -/
theorem concat_eq_split {log pre post : TcacheLog} {e x : TcacheOp × Bool} (h : log ++ [e] = pre ++ x :: post) :
    post = [] ∧ log = pre ∧ e = x ∨ ∃ post', post = post' ++ [e] ∧ log = pre ++ x :: post' := by
  rcases List.eq_nil_or_concat post with rfl | ⟨post', y, rfl⟩
  · obtain ⟨h1, h2⟩ := List.append_inj' h rfl
    exact Or.inl ⟨rfl, h1, List.head_eq_of_cons_eq h2⟩
  · rw [List.concat_eq_append, ← List.cons_append, ← List.append_assoc] at h
    obtain ⟨h1, h2⟩ := List.append_inj' h rfl
    refine Or.inr ⟨post', ?_, h1⟩
    rw [List.concat_eq_append, h2]

theorem inserted_append (l l' : TcacheLog) : (l ++ l').inserted = l.inserted ++ l'.inserted :=
  List.filterMap_append

end TcacheAux

/-- A reset gives a tcache of the same geometry that holds nothing. -/
theorem FdTcache.Shaped.reset {s : FdTcache} (h : s.Shaped) (fuel : Nat) :
    ∃ s', s.step fuel .reset = some (s', false) ∧ s'.Inv ∧ s'.depth = s.depth ∧ s'.mapCnt = s.mapCnt ∧
      s'.oldest = 0 ∧ (∀ i, slots s'.ring i = fdTcacheTagNull) ∧ ∀ i, slots s'.map i = fdTcacheTagNull := by
  have hring := resetLoop_eq h.ring_len
  have hmap := resetLoop_eq h.map_len
  let s' : FdTcache :=
    { s with
      oldest := 0
      ring := List.replicate s.depth.toNat fdTcacheTagNull
      map := List.replicate s.mapCnt.toNat fdTcacheTagNull }
  refine ⟨s', ?_, ?_, rfl, rfl, rfl, slots_replicate _, slots_replicate _⟩
  · simp only [FdTcache.step, fdTcacheReset, hring, hmap, Option.bind_eq_bind, Option.bind_some]
    rfl
  · refine ⟨⟨h.depth_pos, h.pow2, h.room, List.length_replicate, List.length_replicate⟩, h.depth_pos, ?_, ?_⟩
    · exact Probed.empty fun i _ => slots_replicate _ i
    · intro i _ hne
      exact absurd (slots_replicate _ i) hne

end VerifyFiredancer
