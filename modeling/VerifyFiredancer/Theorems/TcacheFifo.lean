import VerifyFiredancer.Lemmas.Tcache
import VerifyFiredancer.Lib.History

/-!
# The tcache as a queue of the most recent tags

The abstract tcache is a history of tags: an insert is a duplicate when its tag is among the last `depth` tags of the history,
and adds its tag to the history otherwise. A tcache that only inserts refines it: its ring holds the last `depth` tags
(`History.Recent`), and its map is the set of them (`TcacheRefines`).
-/

namespace VerifyFiredancer

open Cyclic LinearProbe TcacheAux History

/-- A tcache behaves, after the run of the log, as the history of the tags inserted without being duplicates.
1. Each insert of the log is a duplicate exactly when its tag is among the last `depth` of the tags inserted before it.
2. A query finds a tag exactly when it is among the last `depth` of the tags inserted.
3. The next insert ends, is a duplicate exactly then, and a duplicate changes nothing. -/
structure TcacheIsFifo (s : FdTcache) (fuel : Nat) (log : TcacheLog) : Prop where
  dups : ∀ (pre : TcacheLog) tag dup post, log = pre ++ (.insert tag, dup) :: post →
    (dup = true ↔ tag ∈ pre.inserted.rtake s.depth.toNat)
  query : ∀ tag, tag ≠ fdTcacheTagNull → ∃ found i, fdTcacheQuery fuel s.map s.mapCnt tag = some (found, i) ∧
    (found = true ↔ tag ∈ log.inserted.rtake s.depth.toNat)
  insert : ∀ tag, tag ≠ fdTcacheTagNull → ∃ s' dup, s.step fuel (.insert tag) = some (s', dup) ∧
    (dup = true ↔ tag ∈ log.inserted.rtake s.depth.toNat) ∧ (dup = true → s' = s)

/-- The ring of a tcache holds the last `depth` tags of a history, no tag twice, and its map is the set of them. -/
structure TcacheRefines (s : FdTcache) (H : List Ulong) : Prop extends s.Inv where
  ring : Recent s.depth.toNat fdTcacheTagNull (slots s.ring) s.oldest.toNat H
  nodup : (H.rtake s.depth.toNat).Nodup
  has_iff : ∀ tag, tag ≠ fdTcacheTagNull → (s.Has tag ↔ tag ∈ H.rtake s.depth.toNat)

namespace TcacheFifoAux

/-- A reset tcache refines the empty history. -/
theorem refines_reset {s : FdTcache} (h : s.Shaped) (fuel : Nat) :
    ∃ s', s.step fuel .reset = some (s', false) ∧ TcacheRefines s' [] ∧ s'.depth = s.depth ∧ s'.mapCnt = s.mapCnt := by
  obtain ⟨s', hs, hinv, hd, hm, h0, hring, hmap⟩ := h.reset fuel
  have hnil : ([] : List Ulong).rtake s'.depth.toNat = [] := List.drop_nil
  refine ⟨s', hs, ⟨hinv, ?_, ?_, ?_⟩, hd, hm⟩
  · rw [h0]
    exact Recent.empty hring
  · rw [hnil]
    exact List.nodup_nil
  · intro tag htag
    rw [hnil]
    constructor
    · rintro ⟨i, _, rfl⟩
      exact absurd (hmap i) htag
    · intro hmem
      cases hmem

/-- One insert, on the tcache and on the history it refines. -/
theorem refines_insert {s : FdTcache} {H : List Ulong} {fuel : Nat} (h : TcacheRefines s H) (hf : s.mapCnt.toNat ≤ fuel)
    {tag : Ulong} (htag : tag ≠ fdTcacheTagNull) :
    tag ∈ H.rtake s.depth.toNat ∧ s.step fuel (.insert tag) = some (s, true) ∨
      tag ∉ H.rtake s.depth.toNat ∧ ∃ s', s.step fuel (.insert tag) = some (s', false) ∧ TcacheRefines s' (H ++ [tag]) ∧
        s'.depth = s.depth ∧ s'.mapCnt = s.mapCnt := by
  rcases h.toInv.insert hf htag with ⟨hhas, hs⟩ | ⟨habs, s', hs, hinv, hd, hm, hold, hring, hhas⟩
  · exact Or.inl ⟨(h.has_iff tag htag).1 hhas, hs⟩
  · rw [h.has_iff tag htag] at habs
    have hpos := h.depth_pos
    refine Or.inr ⟨habs, s', hs, ⟨hinv, ?_, ?_, ?_⟩, hd, hm⟩
    · rw [hd, hold, hring]
      exact h.ring.push hpos tag
    · rw [hd]
      exact nodup_rtake_concat hpos h.nodup habs
    · intro y hy
      rw [hhas y hy, h.has_iff y hy, hd, h.ring.mem_rtake_concat hpos h.nodup habs hy]
      rfl

/-- What the inserts of a run keep: the tcache refines the history of the log, and the duplicates of the log are those of the
history. -/
structure FifoRun (d m : Ulong) (s : FdTcache) (log : TcacheLog) : Prop where
  refines : TcacheRefines s log.inserted
  depth : s.depth = d
  mapCnt : s.mapCnt = m
  dups : ∀ (pre : TcacheLog) tag dup post, log = pre ++ (.insert tag, dup) :: post → (dup = true ↔ tag ∈ pre.inserted.rtake d.toNat)

/-- One more insert keeps it. -/
theorem fifoRun_step {d m : Ulong} {fuel : Nat} (hf : m.toNat ≤ fuel) {s : FdTcache} {log : TcacheLog} {op : TcacheOp}
    (hop : ∃ tag, op = .insert tag ∧ tag ≠ fdTcacheTagNull) (h : FifoRun d m s log) :
    ∃ s' dup, s.step fuel op = some (s', dup) ∧ FifoRun d m s' (log ++ [(op, dup)]) := by
  obtain ⟨tag, rfl, htag⟩ := hop
  have hf' : s.mapCnt.toNat ≤ fuel := by rw [h.mapCnt]; exact hf
  -- the events of the longer log are those of the log and the insert
  have hdups : ∀ dup, (dup = true ↔ tag ∈ log.inserted.rtake d.toNat) → ∀ (pre : TcacheLog) t b post,
      log ++ [(.insert tag, dup)] = pre ++ (.insert t, b) :: post → (b = true ↔ t ∈ pre.inserted.rtake d.toNat) := by
    intro dup hdup pre t b post heq
    rcases concat_eq_split heq with ⟨_, rfl, he⟩ | ⟨post', _, hlog⟩
    · simp only [Prod.mk.injEq, TcacheOp.insert.injEq] at he
      obtain ⟨rfl, rfl⟩ := he
      exact hdup
    · exact h.dups pre t b post' hlog
  rcases refines_insert h.refines hf' htag with ⟨hmem, hs⟩ | ⟨hmem, s', hs, hr, hd, hm⟩
  · refine ⟨s, true, hs, ⟨?_, h.depth, h.mapCnt, hdups true ?_⟩⟩
    · rw [inserted_append]
      simpa [TcacheLog.inserted] using h.refines
    · rw [h.depth] at hmem
      simp [hmem]
  · refine ⟨s', false, hs, ⟨?_, hd.trans h.depth, hm.trans h.mapCnt, hdups false ?_⟩⟩
    · rw [inserted_append]
      exact hr
    · rw [h.depth] at hmem
      simp [hmem]

end TcacheFifoAux

open TcacheFifoAux

/-- From a reset tcache, any inserts make the tcache of the history of the tags inserted. -/
theorem tcache_fifo (s : FdTcache) (fuel : Nat) (tags : List Ulong) (h : s.Shaped) (hf : s.mapCnt.toNat ≤ fuel)
    (htags : ∀ tag ∈ tags, tag ≠ fdTcacheTagNull) :
    ∃ s' log, s.run fuel [] (.reset :: tags.map .insert) = some (s', log) ∧ s'.depth = s.depth ∧ TcacheIsFifo s' fuel log := by
  obtain ⟨s0, hs0, href, hd0, hm0⟩ := refines_reset h fuel
  have hstart : FifoRun s.depth s.mapCnt s0 [(.reset, false)] := by
    refine ⟨href, hd0, hm0, ?_⟩
    intro pre tag dup post heq
    have hsplit : ([] : TcacheLog) ++ [(.reset, false)] = pre ++ (.insert tag, dup) :: post := heq
    rcases concat_eq_split hsplit with ⟨_, _, he⟩ | ⟨_, _, hnil⟩
    · cases he
    · simp at hnil
  obtain ⟨s', log, hrun, hend⟩ := run_induct (FifoRun s.depth s.mapCnt)
    (fun op => ∃ tag, op = .insert tag ∧ tag ≠ fdTcacheTagNull) fuel
    (fun s log op hop hfifo => fifoRun_step hf hop hfifo) (tags.map .insert) s0 _ (by
      intro op hop
      obtain ⟨tag, hmem, rfl⟩ := List.mem_map.1 hop
      exact ⟨tag, rfl, htags tag hmem⟩) hstart
  have hf' : s'.mapCnt.toNat ≤ fuel := by rw [hend.mapCnt]; exact hf
  refine ⟨s', log, ?_, hend.depth, ?_, ?_, ?_⟩
  · simp only [FdTcache.run, hs0, Option.bind_eq_bind, Option.bind_some, List.nil_append]
    exact hrun
  · rw [hend.depth]
    exact hend.dups
  · intro tag htag
    obtain ⟨found, i, hres, hiff⟩ := hend.refines.toInv.query hf' htag
    exact ⟨found, i, hres, hiff.trans (hend.refines.has_iff tag htag)⟩
  · intro tag htag
    rcases refines_insert hend.refines hf' htag with ⟨hmem, hs⟩ | ⟨hmem, s2, hs, _⟩
    · exact ⟨s', true, hs, by simp [hmem], fun _ => rfl⟩
    · exact ⟨s2, false, hs, by simp [hmem], by simp⟩

/-- The smallest tcache, whose arrays hold anything, through two tags and the first of them again. -/
theorem tcache_fifo_smallest :
    ∃ s' log, (FdTcache.mk 1 4 0 [7] [7, 7, 7, 7]).run 4 [] (.reset :: [5, 9, 5].map .insert) = some (s', log) ∧
      s'.depth = 1 ∧ TcacheIsFifo s' 4 log :=
  tcache_fifo (FdTcache.mk 1 4 0 [7] [7, 7, 7, 7]) 4 [5, 9, 5] ⟨by decide, ⟨2, rfl⟩, by decide, rfl, rfl⟩ (by decide)
    (by simp [fdTcacheTagNull])

end VerifyFiredancer
