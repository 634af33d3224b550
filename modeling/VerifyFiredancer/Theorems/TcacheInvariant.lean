import VerifyFiredancer.Lemmas.Tcache

/-!
# The representation invariant of a tcache

Whatever resets, inserts and removes are made, the ring and the map of a tcache stay related as `TcacheInvariant` says. User
removes leave tags in the ring that are not in the map, and an insert can put a tag into the ring that is there already; the
invariant needs no more than that every tag of the map is in the ring, which bounds the tags of the map by `depth` and so keeps
empty slots in it for every probe to stop at.
-/

namespace VerifyFiredancer

open Cyclic LinearProbe TcacheAux

/-- The representation invariant.
1. `oldest` is below `depth`.
2. No tag is in two slots of the map.
3. Every tag in the map is in the ring.
4. The map has at most `depth` tags.
5. No slot between the start of a tag and its slot is empty. -/
structure TcacheInvariant (s : FdTcache) : Prop where
  oldest_lt : s.oldest.toNat < s.depth.toNat
  distinct : ∀ i j, i < s.mapCnt.toNat → j < s.mapCnt.toNat → slots s.map i = slots s.map j →
    slots s.map i ≠ fdTcacheTagNull → i = j
  inRing : ∀ tag ∈ s.map, tag ≠ fdTcacheTagNull → tag ∈ s.ring
  count_le : count s.mapCnt.toNat fdTcacheTagNull (slots s.map) ≤ s.depth.toNat
  noGap : ∀ j, j < s.mapCnt.toNat → slots s.map j ≠ fdTcacheTagNull → ∀ i, i < s.mapCnt.toNat →
    ahead s.mapCnt.toNat (fdTcacheMapStart (slots s.map j) s.mapCnt).toNat i <
      ahead s.mapCnt.toNat (fdTcacheMapStart (slots s.map j) s.mapCnt).toNat j →
    slots s.map i ≠ fdTcacheTagNull

/-- An operation a tcache is made for: the tag of an insert is not null. -/
def TcacheOp.Ok : TcacheOp → Prop
  | .insert tag => tag ≠ fdTcacheTagNull
  | _ => True

/-- Every operation ends: a query and an insert of a tag that is not null, a remove of any tag, a reset. -/
structure TcacheTerminates (s : FdTcache) (fuel : Nat) : Prop where
  query : ∀ tag, tag ≠ fdTcacheTagNull → ∃ r, fdTcacheQuery fuel s.map s.mapCnt tag = some r
  step : ∀ op : TcacheOp, op.Ok → ∃ r, s.step fuel op = some r

namespace TcacheInvariantAux

/-- The invariant the operations keep gives the representation invariant. -/
theorem invariant_of_inv {s : FdTcache} (h : s.Inv) : TcacheInvariant s where
  oldest_lt := h.oldest_lt
  distinct := h.probed.distinct
  inRing := by
    intro tag htag hne
    rw [← holds_iff_mem, h.map_len] at htag
    obtain ⟨i, hi, rfl⟩ := htag
    rw [← holds_iff_mem, h.ring_len]
    exact h.inRing i hi hne
  count_le := h.count_le
  noGap := h.probed.noGap

/-- Every operation ends, keeps the invariant and keeps the geometry. -/
theorem step_inv {s : FdTcache} {fuel : Nat} (h : s.Inv) (hf : s.mapCnt.toNat ≤ fuel) (op : TcacheOp) (hop : op.Ok) :
    ∃ s' dup, s.step fuel op = some (s', dup) ∧ s'.Inv ∧ s'.mapCnt = s.mapCnt := by
  cases op with
  | reset =>
    obtain ⟨s', hs, hinv, _, hm, _⟩ := h.toShaped.reset fuel
    exact ⟨s', false, hs, hinv, hm⟩
  | insert tag =>
    rcases h.insert hf hop with ⟨_, hs⟩ | ⟨_, s', hs, hinv, _, hm, _⟩
    · exact ⟨s, true, hs, h, rfl⟩
    · exact ⟨s', false, hs, hinv, hm⟩
  | remove tag =>
    obtain ⟨map, hs, hinv, _⟩ := h.remove hf tag
    exact ⟨_, false, hs, hinv, rfl⟩

/-- Every operation ends in a tcache with the invariant. -/
theorem terminates_of_inv {s : FdTcache} {fuel : Nat} (h : s.Inv) (hf : s.mapCnt.toNat ≤ fuel) : TcacheTerminates s fuel where
  query := by
    intro tag htag
    obtain ⟨found, i, hres, _⟩ := h.query hf htag
    exact ⟨_, hres⟩
  step := by
    intro op hop
    obtain ⟨s', dup, hs, _⟩ := step_inv h hf op hop
    exact ⟨_, hs⟩

end TcacheInvariantAux

open TcacheInvariantAux

/-- From a reset tcache, any operations lead to a tcache with the representation invariant, in which every operation ends. -/
theorem tcache_invariant (s : FdTcache) (fuel : Nat) (ops : List TcacheOp) (h : s.Shaped) (hf : s.mapCnt.toNat ≤ fuel)
    (hops : ∀ op ∈ ops, op.Ok) :
    ∃ s' log, s.run fuel [] (.reset :: ops) = some (s', log) ∧ TcacheInvariant s' ∧ TcacheTerminates s' fuel := by
  obtain ⟨s0, hs0, hinv0, _, hm0, _⟩ := h.reset fuel
  obtain ⟨s', log, hrun, hinv, hm⟩ := run_induct (fun s' _ => s'.Inv ∧ s'.mapCnt = s.mapCnt) TcacheOp.Ok fuel
    (by
      rintro s1 log op hop ⟨hinv, hm⟩
      have hf1 : s1.mapCnt.toNat ≤ fuel := by rw [hm]; exact hf
      obtain ⟨s2, dup, hs, hinv', hm'⟩ := step_inv hinv hf1 op hop
      exact ⟨s2, dup, hs, hinv', hm'.trans hm⟩) ops s0 [(.reset, false)] hops ⟨hinv0, hm0⟩
  refine ⟨s', log, ?_, invariant_of_inv hinv, terminates_of_inv hinv (by rw [hm]; exact hf)⟩
  simp only [FdTcache.run, hs0, Option.bind_eq_bind, Option.bind_some, List.nil_append]
  exact hrun

/-- The smallest tcache, whose arrays hold anything, through a remove that leaves its tag in the ring. -/
theorem tcache_invariant_smallest :
    ∃ s' log, (FdTcache.mk 1 4 0 [7] [7, 7, 7, 7]).run 4 [] [.reset, .insert 5, .remove 5, .insert 5] = some (s', log) ∧
      TcacheInvariant s' ∧ TcacheTerminates s' 4 :=
  tcache_invariant (FdTcache.mk 1 4 0 [7] [7, 7, 7, 7]) 4 [.insert 5, .remove 5, .insert 5]
    ⟨by decide, ⟨2, rfl⟩, by decide, rfl, rfl⟩ (by decide) (by
      intro op hop
      simp only [List.mem_cons, List.not_mem_nil, or_false] at hop
      rcases hop with rfl | rfl | rfl
      · exact (by decide : (5 : Ulong) ≠ fdTcacheTagNull)
      · trivial
      · exact (by decide : (5 : Ulong) ≠ fdTcacheTagNull))

end VerifyFiredancer
