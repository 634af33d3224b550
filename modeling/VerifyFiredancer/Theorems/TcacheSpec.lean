import VerifyFiredancer.Theorems.TcacheInvariant
import VerifyFiredancer.Lib.History
import Mathlib.Data.Finset.Basic

/-!
# The tcache as a history and a set

The abstract tcache is the history of the tags inserted and the set of the tags it holds (`TcacheSpec`): it has no map, no ring
and no position. A remove takes a tag out of the set and leaves the history; an insert that is not a duplicate takes the tag
inserted `depth` inserts before out of the set, whoever holds it there. Every tcache does what the abstract one does
(`tcache_simulates`), so nothing a user sees depends on the size of the map or on what the memory had before the reset
(`tcache_map_hidden`).
-/

namespace VerifyFiredancer

open Cyclic LinearProbe TcacheAux History

/-- The abstract tcache: the tags inserted since the last reset, the newest last, and the tags it holds. -/
structure TcacheSpec where
  history : List Ulong
  held : Finset Ulong
  deriving DecidableEq

/-- The tag an insert evicts: none until `depth` tags were inserted, then the one inserted `depth` inserts before. -/
def TcacheSpec.evicted (depth : Nat) (a : TcacheSpec) : Finset Ulong :=
  if h : 0 < depth ∧ depth ≤ a.history.length then {a.history[a.history.length - depth]} else ∅

/-- One operation, and the `dup` of an insert. -/
def TcacheSpec.step (depth : Nat) (a : TcacheSpec) : TcacheOp → TcacheSpec × Bool
  | .reset => (⟨[], ∅⟩, false)
  | .insert tag =>
    if tag ∈ a.held then (a, true)
    else (⟨a.history ++ [tag], insert tag a.held \ a.evicted depth⟩, false)
  | .remove tag => (⟨a.history, a.held.erase tag⟩, false)

/-- Operations one after the other, with the log of them. -/
def TcacheSpec.run (depth : Nat) : TcacheSpec → TcacheLog → List TcacheOp → TcacheSpec × TcacheLog
  | a, log, [] => (a, log)
  | a, log, op :: ops => TcacheSpec.run depth (a.step depth op).1 (log ++ [(op, (a.step depth op).2)]) ops

/-- A tcache does what the abstract one does: its ring has the last `depth` tags of the history, and a query finds exactly the
tags held. -/
structure TcacheRepresents (s : FdTcache) (fuel : Nat) (a : TcacheSpec) : Prop where
  ring : Recent s.depth.toNat fdTcacheTagNull (slots s.ring) s.oldest.toNat a.history
  query : ∀ tag, tag ≠ fdTcacheTagNull → ∃ i, fdTcacheQuery fuel s.map s.mapCnt tag = some (decide (tag ∈ a.held), i)

namespace TcacheSpecAux

/-- What the operations keep. -/
structure Simulated (s : FdTcache) (a : TcacheSpec) : Prop extends s.Inv where
  ring : Recent s.depth.toNat fdTcacheTagNull (slots s.ring) s.oldest.toNat a.history
  held : ∀ tag, tag ≠ fdTcacheTagNull → (s.Has tag ↔ tag ∈ a.held)

/-- What the abstract tcache evicts is the tag the ring overwrites. -/
theorem mem_evicted {s : FdTcache} {a : TcacheSpec} (h : Simulated s a) {tag : Ulong} (htag : tag ≠ fdTcacheTagNull) :
    tag ∈ a.evicted s.depth.toNat ↔ tag = s.victim := by
  have hpos := h.depth_pos
  unfold TcacheSpec.evicted FdTcache.victim
  rcases h.ring.overwritten hpos with ⟨hlt, hnull⟩ | ⟨hle, hold⟩
  · rw [dif_neg (by omega), hnull]
    simp [htag]
  · rw [dif_pos ⟨hpos, hle⟩, hold, Finset.mem_singleton]

/-- A reset. -/
theorem simulated_reset {s : FdTcache} (h : s.Shaped) (fuel : Nat) :
    ∃ s', s.step fuel .reset = some (s', false) ∧ Simulated s' ⟨[], ∅⟩ ∧ s'.depth = s.depth ∧ s'.mapCnt = s.mapCnt := by
  obtain ⟨s', hs, hinv, hd, hm, h0, hring, hmap⟩ := h.reset fuel
  refine ⟨s', hs, ⟨hinv, ?_, ?_⟩, hd, hm⟩
  · rw [h0]
    exact Recent.empty hring
  · intro tag htag
    constructor
    · rintro ⟨i, _, rfl⟩
      exact absurd (hmap i) htag
    · intro hmem
      exact absurd hmem (Finset.notMem_empty tag)

/-- One operation, on the tcache and on the abstract one. -/
theorem simulated_step {s : FdTcache} {a : TcacheSpec} {fuel : Nat} (h : Simulated s a) (hf : s.mapCnt.toNat ≤ fuel)
    (op : TcacheOp) (hop : op.Ok) :
    ∃ s', s.step fuel op = some (s', (a.step s.depth.toNat op).2) ∧ Simulated s' (a.step s.depth.toNat op).1 ∧
      s'.depth = s.depth ∧ s'.mapCnt = s.mapCnt := by
  cases op with
  | reset => exact simulated_reset h.toShaped fuel
  | remove tag =>
    obtain ⟨map, hs, hinv, hhas⟩ := h.toInv.remove hf tag
    refine ⟨_, hs, ⟨hinv, h.ring, ?_⟩, rfl, rfl⟩
    intro y hy
    rw [hhas y hy, h.held y hy, TcacheSpec.step, Finset.mem_erase]
    exact and_comm
  | insert tag =>
    rcases h.toInv.insert hf hop with ⟨hhas, hs⟩ | ⟨habs, s', hs, hinv, hd, hm, hold, hring, hhas⟩
    · rw [h.held tag hop] at hhas
      rw [TcacheSpec.step, if_pos hhas]
      exact ⟨s, hs, h, rfl, rfl⟩
    · rw [h.held tag hop] at habs
      rw [TcacheSpec.step, if_neg habs]
      refine ⟨s', hs, ⟨hinv, ?_, ?_⟩, hd, hm⟩
      · rw [hd, hold, hring]
        exact h.ring.push h.depth_pos tag
      · intro y hy
        rw [hhas y hy, h.held y hy, Finset.mem_sdiff, mem_evicted h hy, Finset.mem_insert, or_comm]

/-- Operations, on the tcache and on the abstract one. -/
theorem simulated_run (fuel : Nat) :
    ∀ (ops : List TcacheOp) (s : FdTcache) (a : TcacheSpec) (log : TcacheLog), s.mapCnt.toNat ≤ fuel → Simulated s a →
      (∀ op ∈ ops, op.Ok) →
      ∃ s', s.run fuel log ops = some (s', (a.run s.depth.toNat log ops).2) ∧
        Simulated s' (a.run s.depth.toNat log ops).1 ∧ s'.depth = s.depth ∧ s'.mapCnt = s.mapCnt := by
  intro ops
  induction ops with
  | nil =>
    intro s a log _ h _
    exact ⟨s, rfl, h, rfl, rfl⟩
  | cons op ops ih =>
    intro s a log hf h hops
    rw [List.forall_mem_cons] at hops
    obtain ⟨s1, hs, h1, hd, hm⟩ := simulated_step h hf op hops.1
    obtain ⟨s', hrun, h', hd', hm'⟩ := ih s1 _ (log ++ [(op, (a.step s.depth.toNat op).2)]) (by rw [hm]; exact hf) h1 hops.2
    rw [hd] at hrun h'
    refine ⟨s', ?_, h', hd'.trans hd, hm'.trans hm⟩
    simp only [FdTcache.run, hs, Option.bind_eq_bind, Option.bind_some]
    exact hrun

/-- A run from a reset on, whatever the abstract tcache was. -/
theorem simulated_run_reset {s : FdTcache} {fuel : Nat} {ops : List TcacheOp} (h : s.Shaped) (hf : s.mapCnt.toNat ≤ fuel)
    (hops : ∀ op ∈ ops, op.Ok) (a : TcacheSpec) :
    ∃ s', s.run fuel [] (.reset :: ops) = some (s', (a.run s.depth.toNat [] (.reset :: ops)).2) ∧
      Simulated s' (a.run s.depth.toNat [] (.reset :: ops)).1 ∧ s'.depth = s.depth ∧ s'.mapCnt = s.mapCnt := by
  obtain ⟨s0, hs0, h0, hd0, hm0⟩ := simulated_reset h fuel
  obtain ⟨s', hrun, h', hd', hm'⟩ := simulated_run fuel ops s0 _ [(.reset, false)] (by rw [hm0]; exact hf) h0 hops
  rw [hd0] at hrun h'
  refine ⟨s', ?_, h', hd'.trans hd0, hm'.trans hm0⟩
  simp only [FdTcache.run, hs0, Option.bind_eq_bind, Option.bind_some, List.nil_append]
  exact hrun

/-- What a query finds. -/
theorem simulated_query {s : FdTcache} {a : TcacheSpec} {fuel : Nat} (h : Simulated s a) (hf : s.mapCnt.toNat ≤ fuel)
    {tag : Ulong} (htag : tag ≠ fdTcacheTagNull) :
    ∃ i, fdTcacheQuery fuel s.map s.mapCnt tag = some (decide (tag ∈ a.held), i) := by
  obtain ⟨found, i, hres, hiff⟩ := h.toInv.query hf htag
  have hfound : found = decide (tag ∈ a.held) := by
    rw [Bool.eq_iff_iff, hiff, h.held tag htag, decide_eq_true_iff]
  exact ⟨i, by rw [hres, hfound]⟩

/-- The ring and its position are those of the history. -/
theorem simulated_ring {s t : FdTcache} {a : TcacheSpec} (hs : Simulated s a) (ht : Simulated t a) (hd : s.depth = t.depth) :
    s.oldest = t.oldest ∧ s.ring = t.ring := by
  have hrs := hs.ring
  have hrt := ht.ring
  have hls := hs.ring_len
  have hlt := ht.ring_len
  rw [hd] at hrs hls
  refine ⟨BitVec.eq_of_toNat_eq (hrs.pos_eq.trans hrt.pos_eq.symm), ?_⟩
  apply List.ext_getElem (by rw [hls, hlt])
  intro i h1 h2
  have hcell := hrs.unique hrt (i := i) (by omega)
  simpa [slots, h1, h2] using hcell

end TcacheSpecAux

open TcacheSpecAux

/-- From a reset on, any operations give the log of the abstract tcache, and a tcache that does what the abstract one does. -/
theorem tcache_simulates (s : FdTcache) (fuel : Nat) (ops : List TcacheOp) (a : TcacheSpec) (h : s.Shaped)
    (hf : s.mapCnt.toNat ≤ fuel) (hops : ∀ op ∈ ops, op.Ok) :
    ∃ s', s.run fuel [] (.reset :: ops) = some (s', (a.run s.depth.toNat [] (.reset :: ops)).2) ∧
      TcacheRepresents s' fuel (a.run s.depth.toNat [] (.reset :: ops)).1 := by
  obtain ⟨s', hrun, hsim, _, hm⟩ := simulated_run_reset h hf hops a
  have hf' : s'.mapCnt.toNat ≤ fuel := by rw [hm]; exact hf
  exact ⟨s', hrun, hsim.ring, fun tag htag => simulated_query hsim hf' htag⟩

/-- The smallest tcache, through a remove of a tag that the next insert brings back and evicts. -/
theorem tcache_simulates_smallest :
    ∃ s', (FdTcache.mk 1 4 0 [7] [7, 7, 7, 7]).run 4 [] [.reset, .insert 5, .remove 5, .insert 5] =
        some (s', ((TcacheSpec.mk [] ∅).run 1 [] [.reset, .insert 5, .remove 5, .insert 5]).2) ∧
      TcacheRepresents s' 4 ((TcacheSpec.mk [] ∅).run 1 [] [.reset, .insert 5, .remove 5, .insert 5]).1 :=
  tcache_simulates (FdTcache.mk 1 4 0 [7] [7, 7, 7, 7]) 4 [.insert 5, .remove 5, .insert 5] ⟨[], ∅⟩
    ⟨by decide, ⟨2, rfl⟩, by decide, rfl, rfl⟩ (by decide) (by
      intro op hop
      simp only [List.mem_cons, List.not_mem_nil, or_false] at hop
      rcases hop with rfl | rfl | rfl <;> simp [TcacheOp.Ok, fdTcacheTagNull])

/-- Two tcaches of one depth: from a reset on, the same operations give the same `dup` of every insert, the same queries and the
same ring, whatever the sizes of the maps and what the memory had before. -/
theorem tcache_map_hidden (s t : FdTcache) (fuel : Nat) (ops : List TcacheOp) (hs : s.Shaped) (ht : t.Shaped)
    (hd : s.depth = t.depth) (hfs : s.mapCnt.toNat ≤ fuel) (hft : t.mapCnt.toNat ≤ fuel) (hops : ∀ op ∈ ops, op.Ok) :
    ∃ s' t' log, s.run fuel [] (.reset :: ops) = some (s', log) ∧ t.run fuel [] (.reset :: ops) = some (t', log) ∧
      s'.oldest = t'.oldest ∧ s'.ring = t'.ring ∧ ∀ tag, tag ≠ fdTcacheTagNull → ∃ found i j,
        fdTcacheQuery fuel s'.map s'.mapCnt tag = some (found, i) ∧ fdTcacheQuery fuel t'.map t'.mapCnt tag = some (found, j) := by
  obtain ⟨s', hruns, hsims, hds, hms⟩ := simulated_run_reset hs hfs hops ⟨[], ∅⟩
  obtain ⟨t', hrunt, hsimt, hdt, hmt⟩ := simulated_run_reset ht hft hops ⟨[], ∅⟩
  rw [hd] at hruns hsims
  obtain ⟨hold, hring⟩ := simulated_ring hsims hsimt (by rw [hds, hdt, hd])
  have hfs' : s'.mapCnt.toNat ≤ fuel := by rw [hms]; exact hfs
  have hft' : t'.mapCnt.toNat ≤ fuel := by rw [hmt]; exact hft
  refine ⟨s', t', _, hruns, hrunt, hold, hring, ?_⟩
  intro tag htag
  obtain ⟨i, hi⟩ := simulated_query hsims hfs' htag
  obtain ⟨j, hj⟩ := simulated_query hsimt hft' htag
  exact ⟨_, i, j, hi, hj⟩

/-- A tcache of depth one with a map of 4 slots and one with a map of 8, over memories that differ. -/
theorem tcache_map_hidden_one :
    ∃ s' t' log,
      (FdTcache.mk 1 4 0 [7] [7, 7, 7, 7]).run 8 [] [.reset, .insert 5, .insert 9] = some (s', log) ∧
      (FdTcache.mk 1 8 0 [3] [0, 1, 2, 3, 4, 5, 6, 7]).run 8 [] [.reset, .insert 5, .insert 9] = some (t', log) ∧
      s'.oldest = t'.oldest ∧ s'.ring = t'.ring ∧ ∀ tag, tag ≠ fdTcacheTagNull → ∃ found i j,
        fdTcacheQuery 8 s'.map s'.mapCnt tag = some (found, i) ∧ fdTcacheQuery 8 t'.map t'.mapCnt tag = some (found, j) :=
  tcache_map_hidden (FdTcache.mk 1 4 0 [7] [7, 7, 7, 7]) (FdTcache.mk 1 8 0 [3] [0, 1, 2, 3, 4, 5, 6, 7]) 8
    [.insert 5, .insert 9] ⟨by decide, ⟨2, rfl⟩, by decide, rfl, rfl⟩ ⟨by decide, ⟨3, rfl⟩, by decide, rfl, rfl⟩ rfl
    (by decide) (by decide) (by
      intro op hop
      simp only [List.mem_cons, List.not_mem_nil, or_false] at hop
      rcases hop with rfl | rfl
      · simp [TcacheOp.Ok, fdTcacheTagNull]
      · simp [TcacheOp.Ok, fdTcacheTagNull])

end VerifyFiredancer
