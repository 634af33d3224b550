import VerifyFiredancer.Lemmas.Tcache
import VerifyFiredancer.Lib.History

/-!
# Retention under removes

A tag that was inserted, was not removed since and was followed by fewer than `depth` other insertions is still found, in every
run each insert of which evicts the oldest tag and no other (`FdTcache.EvictsOldest`). It can evict another one when a user
removed a tag and it was inserted again while the ring still held it: when its older entry of the ring is overwritten the tag
leaves the map, whatever its newer entry says; at depth one, by the very insert (`tcache_reinsert_not_retained`).
-/

namespace VerifyFiredancer

open Cyclic LinearProbe TcacheAux History

/-- The last insert of the tag in the log was not a duplicate, the tag was not removed since, and fewer than `depth` inserts
since were no duplicates. -/
def TcacheLog.Retained (depth : Nat) (log : TcacheLog) (tag : Ulong) : Prop :=
  ∃ pre post : TcacheLog, log = pre ++ (.insert tag, false) :: post ∧
    (∀ e ∈ post, e.1 ≠ .insert tag ∧ e.1 ≠ .remove tag) ∧ post.inserted.length < depth

/-- Every tag the log retains is found. -/
def TcacheRetains (s : FdTcache) (fuel : Nat) (log : TcacheLog) : Prop :=
  ∀ tag, tag ≠ fdTcacheTagNull → log.Retained s.depth.toNat tag → ∃ i, fdTcacheQuery fuel s.map s.mapCnt tag = some (true, i)

/-- An operation that evicts the oldest tag only: an insert of a tag the map has, or one that overwrites an entry of the ring
which is not the tag inserted and which no other entry of the ring repeats while it is in the map. -/
def FdTcache.EvictsOldest (s : FdTcache) : TcacheOp → Prop
  | .insert tag => tag ∈ s.map ∨ s.victim ≠ tag ∧ (s.victim ≠ fdTcacheTagNull → s.victim ∈ s.map →
      ∀ i, i < s.depth.toNat → i ≠ s.oldest.toNat → slots s.ring i ≠ s.victim)
  | _ => True

instance (s : FdTcache) : (op : TcacheOp) → Decidable (s.EvictsOldest op)
  | .insert tag => inferInstanceAs (Decidable (tag ∈ s.map ∨ s.victim ≠ tag ∧ (s.victim ≠ fdTcacheTagNull →
      s.victim ∈ s.map → ∀ i, i < s.depth.toNat → i ≠ s.oldest.toNat → slots s.ring i ≠ s.victim)))
  | .remove _ => isTrue trivial
  | .reset => isTrue trivial

/-- A run each operation of which evicts the oldest tag only, where it is made. -/
def FdTcache.RunsOldest (fuel : Nat) : FdTcache → List TcacheOp → Prop
  | _, [] => True
  | s, op :: ops => s.EvictsOldest op ∧ ∀ r ∈ s.step fuel op, FdTcache.RunsOldest fuel r.1 ops

instance FdTcache.decidableRunsOldest (fuel : Nat) :
    (ops : List TcacheOp) → (s : FdTcache) → Decidable (s.RunsOldest fuel ops)
  | [], _ => isTrue trivial
  | op :: ops, s =>
    have : DecidablePred fun r : FdTcache × Bool => r.1.RunsOldest fuel ops := fun r => decidableRunsOldest fuel ops r.1
    inferInstanceAs (Decidable (s.EvictsOldest op ∧ ∀ r ∈ s.step fuel op, r.1.RunsOldest fuel ops))

/-- An insert or a remove of a tag that is not null. -/
def TcacheOp.User : TcacheOp → Prop
  | .insert tag => tag ≠ fdTcacheTagNull
  | .remove tag => tag ≠ fdTcacheTagNull
  | .reset => False

namespace TcacheRetentionAux

/-- What the operations keep: the ring holds the last tags inserted, and every retained tag is in the map. -/
structure RetainsRun (d m : Ulong) (s : FdTcache) (log : TcacheLog) : Prop extends s.Inv where
  depth : s.depth = d
  mapCnt : s.mapCnt = m
  ring : Recent s.depth.toNat fdTcacheTagNull (slots s.ring) s.oldest.toNat log.inserted
  has : ∀ tag, tag ≠ fdTcacheTagNull → log.Retained s.depth.toNat tag → s.Has tag

/-- A tag a longer log retains was just inserted, or the log has its insert and the new event is not about it. -/
theorem retained_concat {depth : Nat} {log : TcacheLog} {e : TcacheOp × Bool} {tag : Ulong}
    (h : TcacheLog.Retained depth (log ++ [e]) tag) :
    e = (.insert tag, false) ∨ (e.1 ≠ .insert tag ∧ e.1 ≠ .remove tag) ∧ ∃ pre post : TcacheLog,
      log = pre ++ (.insert tag, false) :: post ∧ (∀ x ∈ post, x.1 ≠ .insert tag ∧ x.1 ≠ .remove tag) ∧
        (post.inserted ++ TcacheLog.inserted [e]).length < depth := by
  obtain ⟨pre, post, heq, hpost, hlen⟩ := h
  rcases concat_eq_split heq with ⟨_, _, he⟩ | ⟨post', rfl, hlog⟩
  · exact Or.inl he
  · rw [inserted_append] at hlen
    exact Or.inr ⟨hpost e (by simp), pre, post', hlog, fun x hx => hpost x (List.mem_append_left _ hx), hlen⟩

/-- An event that inserts nothing and is not about a tag: if the longer log retains the tag, so does the log. -/
theorem retained_of_concat {depth : Nat} {log : TcacheLog} {e : TcacheOp × Bool} {tag : Ulong}
    (h : TcacheLog.Retained depth (log ++ [e]) tag) (he : TcacheLog.inserted [e] = []) :
    (e.1 ≠ .insert tag ∧ e.1 ≠ .remove tag) ∧ log.Retained depth tag := by
  rcases retained_concat h with rfl | ⟨hne, pre, post, hlog, hpost, hlen⟩
  · cases he
  · rw [he, List.append_nil] at hlen
    exact ⟨hne, pre, post, hlog, hpost, hlen⟩

/-- One more operation that evicts the oldest tag only keeps it. -/
theorem retainsRun_step {d m : Ulong} {fuel : Nat} (hf : m.toNat ≤ fuel) {s : FdTcache} {log : TcacheLog} {op : TcacheOp}
    (hop : op.User) (hevict : s.EvictsOldest op) (h : RetainsRun d m s log) :
    ∃ s' dup, s.step fuel op = some (s', dup) ∧ RetainsRun d m s' (log ++ [(op, dup)]) := by
  have hf' : s.mapCnt.toNat ≤ fuel := by rw [h.mapCnt]; exact hf
  have hpos := h.depth_pos
  cases op with
  | reset => exact absurd hop id
  | remove tag =>
    obtain ⟨map, hs, hinv, hhas⟩ := h.toInv.remove hf' tag
    have hsame : (log ++ [(TcacheOp.remove tag, false)]).inserted = log.inserted := by
      rw [inserted_append]
      exact List.append_nil _
    refine ⟨_, false, hs, ⟨hinv, h.depth, h.mapCnt, ?_, ?_⟩⟩
    · rw [hsame]
      exact h.ring
    · intro y hy hret
      obtain ⟨⟨_, hne⟩, hret'⟩ := retained_of_concat hret rfl
      refine (hhas y hy).2 ⟨h.has y hy hret', ?_⟩
      rintro rfl
      exact hne rfl
  | insert tag =>
    rcases h.toInv.insert hf' hop with ⟨_, hs⟩ | ⟨habs, s', hs, hinv, hd, hm, hold, hring, hhas⟩
    · have hsame : (log ++ [(TcacheOp.insert tag, true)]).inserted = log.inserted := by
        rw [inserted_append]
        exact List.append_nil _
      refine ⟨s, true, hs, ⟨h.toInv, h.depth, h.mapCnt, ?_, ?_⟩⟩
      · rw [hsame]
        exact h.ring
      · intro y hy hret
        exact h.has y hy (retained_of_concat hret rfl).2
    · have hadd : (log ++ [(TcacheOp.insert tag, false)]).inserted = log.inserted ++ [tag] := inserted_append _ _
      obtain ⟨hvictim, hrepeat⟩ := Or.resolve_left hevict fun hmem => by
        rw [← holds_iff_mem, h.map_len] at hmem
        exact habs hmem
      refine ⟨s', false, hs, ⟨hinv, hd.trans h.depth, hm.trans h.mapCnt, ?_, ?_⟩⟩
      · rw [hd, hold, hring, hadd]
        exact h.ring.push hpos tag
      · intro y hy hret
        rw [hd] at hret
        refine (hhas y hy).2 ?_
        rcases retained_concat hret with heq | ⟨_, pre, post, hlog, hpost, hlen⟩
        · simp only [Prod.mk.injEq, TcacheOp.insert.injEq, and_true] at heq
          rw [← heq]
          exact ⟨Or.inr rfl, Ne.symm hvictim⟩
        · have hlen' : post.inserted.length + 1 < s.depth.toNat := by
            rw [List.length_append] at hlen
            exact hlen
          have hin := h.has y hy ⟨pre, post, hlog, hpost, by omega⟩
          refine ⟨Or.inl hin, ?_⟩
          -- the entry of a tag to retain is not the one that is overwritten, so that one repeats it
          have hH : log.inserted = pre.inserted ++ y :: post.inserted := by
            rw [hlog, inserted_append]
            rfl
          obtain ⟨i, hi, hne, hcell⟩ := h.ring.newer_cell hpos hH hlen'
          intro hyv
          rw [FdTcache.Has, ← h.map_len, holds_iff_mem] at hin
          rw [hyv] at hy hin hcell
          exact hrepeat hy hin i hi hne hcell

/-- Any run of such operations does. -/
theorem retainsRun_run {d m : Ulong} {fuel : Nat} (hf : m.toNat ≤ fuel) (ops : List TcacheOp) :
    ∀ (s : FdTcache) (log : TcacheLog), (∀ op ∈ ops, op.User) → s.RunsOldest fuel ops → RetainsRun d m s log →
      ∃ s' log', s.run fuel log ops = some (s', log') ∧ RetainsRun d m s' log' := by
  induction ops with
  | nil => intro s log _ _ h; exact ⟨s, log, rfl, h⟩
  | cons op ops ih =>
    intro s log hops hevict h
    obtain ⟨s1, dup, hs, h1⟩ := retainsRun_step hf (hops op (List.mem_cons_self ..)) hevict.1 h
    obtain ⟨s', log', hrun, h'⟩ := ih s1 _ (fun o ho => hops o (List.mem_cons_of_mem op ho)) (hevict.2 (s1, dup) hs) h1
    refine ⟨s', log', ?_, h'⟩
    simp only [FdTcache.run, hs, Option.bind_eq_bind, Option.bind_some]
    exact hrun

/-- A reset tcache retains nothing. -/
theorem retainsRun_reset {s : FdTcache} (h : s.Shaped) (fuel : Nat) :
    ∃ s', s.step fuel .reset = some (s', false) ∧ RetainsRun s.depth s.mapCnt s' [(.reset, false)] := by
  obtain ⟨s', hs, hinv, hd, hm, h0, hring, _⟩ := h.reset fuel
  refine ⟨s', hs, ⟨hinv, hd, hm, ?_, ?_⟩⟩
  · rw [h0]
    exact Recent.empty hring
  · rintro tag _ ⟨pre, post, heq, _⟩
    have hsplit : ([] : TcacheLog) ++ [(.reset, false)] = pre ++ (.insert tag, false) :: post := heq
    rcases concat_eq_split hsplit with ⟨_, _, he⟩ | ⟨_, _, hnil⟩
    · cases he
    · simp at hnil

end TcacheRetentionAux

open TcacheRetentionAux

/-- From a reset tcache, any inserts and removes that evict the oldest tag only lead to a tcache that finds every tag it is to
retain. -/
theorem tcache_retains (s : FdTcache) (fuel : Nat) (ops : List TcacheOp) (h : s.Shaped) (hf : s.mapCnt.toNat ≤ fuel)
    (hops : ∀ op ∈ ops, op.User) (hevict : s.RunsOldest fuel (.reset :: ops)) :
    ∃ s' log, s.run fuel [] (.reset :: ops) = some (s', log) ∧ s'.depth = s.depth ∧ TcacheRetains s' fuel log := by
  obtain ⟨s0, hs0, hstart⟩ := retainsRun_reset h fuel
  obtain ⟨s', log, hrun, hend⟩ := retainsRun_run hf ops s0 _ hops (hevict.2 (s0, false) hs0) hstart
  refine ⟨s', log, ?_, hend.depth, ?_⟩
  · simp only [FdTcache.run, hs0, Option.bind_eq_bind, Option.bind_some, List.nil_append]
    exact hrun
  · intro tag htag hret
    have hf' : s'.mapCnt.toNat ≤ fuel := by rw [hend.mapCnt]; exact hf
    obtain ⟨found, i, hres, hiff⟩ := hend.toInv.query hf' htag
    rw [hiff.2 (hend.has tag htag hret)] at hres
    exact ⟨i, hres⟩

/-- A tcache of depth two, whose arrays hold anything: a tag is removed and inserted again while the ring still holds it, and
removed again before its older entry is overwritten. -/
theorem tcache_retains_depth_two :
    ∃ s' log, (FdTcache.mk 2 4 0 [7, 7] [7, 7, 7, 7]).run 4 []
        [.reset, .insert 5, .remove 5, .insert 5, .remove 5, .insert 9] = some (s', log) ∧
      s'.depth = 2 ∧ TcacheRetains s' 4 log :=
  tcache_retains (FdTcache.mk 2 4 0 [7, 7] [7, 7, 7, 7]) 4 [.insert 5, .remove 5, .insert 5, .remove 5, .insert 9]
    ⟨by decide, ⟨2, rfl⟩, by decide, rfl, rfl⟩ (by decide) (by simp [TcacheOp.User, fdTcacheTagNull]) (by decide)

/-- At depth one a tag inserted, removed and inserted again is not found: the second insert is not a duplicate, and what it
evicts is the first. -/
theorem tcache_reinsert_not_retained :
    ¬∃ s' log, (FdTcache.mk 1 4 0 [7] [7, 7, 7, 7]).run 4 [] [.reset, .insert 5, .remove 5, .insert 5] = some (s', log) ∧
      TcacheRetains s' 4 log := by
  rintro ⟨s', log, hrun, hret⟩
  have hend : (FdTcache.mk 1 4 0 [7] [7, 7, 7, 7]).run 4 [] [.reset, .insert 5, .remove 5, .insert 5] =
      some (FdTcache.mk 1 4 0 [5] [0, 0, 0, 0],
        [(.reset, false), (.insert 5, false), (.remove 5, false), (.insert 5, false)]) := by decide
  rw [hend] at hrun
  simp only [Option.some.injEq, Prod.mk.injEq] at hrun
  obtain ⟨rfl, rfl⟩ := hrun
  obtain ⟨i, hi⟩ := hret 5 (by decide)
    ⟨[(.reset, false), (.insert 5, false), (.remove 5, false)], [], rfl, by simp, by decide⟩
  have hmiss : fdTcacheQuery 4 [0, 0, 0, 0] 4 5 = some (false, 1) := by decide
  rw [hmiss] at hi
  simp at hi

end VerifyFiredancer
