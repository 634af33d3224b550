import VerifyFiredancer.McacheVector
import VerifyFiredancer.Lemmas.McachePosition

/-!
# The variants of publication and wait

A variant accesses several fields in one step, and each of its steps is a run of the steps that access one (`publishBy_run`,
`waitBy_run`). So every run of a system with any variants is a run of the system without, and what a wait gets is not torn, whichever
way the line is published (`mcache_variants_untorn`). With publications and waits of whole lines a wait that finds a later
fragment has the metadata of that one too (`mcache_avx_overrun`).
-/

namespace VerifyFiredancer

open McacheAux Seqlock

variable {cfg : McacheCfg}

namespace McacheAux

section Scalar

variable {fdSeqDec : Ulong → Ulong → Ulong} {fdSeqDiff : Ulong → Ulong → Long} {args : Nat → PublishArgs}

/-- The fields of a part that are left to store are those of a list without them. -/
theorem subset_erase {f : FragField} {part todo : List FragField} (hnodup : (f :: part).Nodup) (hsub : ∀ g ∈ f :: part, g ∈ todo) :
    ∀ g ∈ part, g ∈ todo.erase f := by
  intro g hg
  have hne : g ≠ f := by
    rintro rfl
    exact (List.nodup_cons.1 hnodup).1 hg
  exact (List.mem_erase_of_ne hne).2 (hsub g (List.mem_cons_of_mem f hg))

/-- A store of a part is a run of the stores of its fields. -/
theorem storePart_run (s : McacheSys cfg) (part : List FragField) :
    ∀ (mcache : Mcache cfg) (todo : List FragField), part.Nodup → (∀ f ∈ part, f ∈ todo) →
      McacheRun fdSeqDec fdSeqDiff args { s with mcache := mcache, producer := .body todo }
        { s with
          mcache := Function.update mcache (cfg.line (cfg.seq s.published))
            ((mcache (cfg.line (cfg.seq s.published))).storeAll part (cfg.frag args s.published))
          producer := .body (todo.diff part) } := by
  induction part with
  | nil =>
    intro mcache todo _ _
    rw [FdFragMeta.storeAll, List.foldl_nil, Function.update_eq_self]
    exact Relation.ReflTransGen.refl
  | cons f part ih =>
    intro mcache todo hnodup hsub
    have hrest := ih (Function.update mcache (cfg.line (cfg.seq s.published))
      ((mcache (cfg.line (cfg.seq s.published))).store f (cfg.frag args s.published))) (todo.erase f)
      (List.nodup_cons.1 hnodup).2 (subset_erase hnodup hsub)
    rw [Function.update_self, Function.update_idem] at hrest
    have hstep : PublishStep fdSeqDec args { s with mcache := mcache, producer := .body todo } _ :=
      .store _ todo f rfl (hsub f List.mem_cons_self)
    rw [List.diff_cons]
    exact Relation.ReflTransGen.head (Or.inl hstep) hrest

/-- A read of a part is a run of the reads of its fields. -/
theorem copyPart_run (s : McacheSys cfg) (seqExpected pollMax seqFound : Ulong) (part : List FragField) :
    ∀ (frag : FdFragMeta) (todo : List FragField), part.Nodup → (∀ f ∈ part, f ∈ todo) →
      McacheRun fdSeqDec fdSeqDiff args { s with consumer := .copy seqExpected pollMax frag seqFound todo }
        { s with
          consumer := .copy seqExpected pollMax (frag.storeAll part (s.mcache (cfg.line seqExpected))) seqFound
            (todo.diff part) } := by
  induction part with
  | nil =>
    intro frag todo _ _
    exact Relation.ReflTransGen.refl
  | cons f part ih =>
    intro frag todo hnodup hsub
    have hrest := ih (frag.store f (s.mcache (cfg.line seqExpected))) (todo.erase f) (List.nodup_cons.1 hnodup).2
      (subset_erase hnodup hsub)
    have hstep : WaitStep fdSeqDiff { s with consumer := .copy seqExpected pollMax frag seqFound todo } _ :=
      .copy _ seqExpected pollMax frag seqFound todo f rfl (hsub f List.mem_cons_self)
    rw [List.diff_cons]
    exact Relation.ReflTransGen.head (Or.inr hstep) hrest

/-- A publication leaves the metadata on the line. -/
theorem publish_eq (mcache : Mcache cfg) (seq : Ulong) (p : PublishArgs) :
    fdMcachePublish fdSeqDec mcache seq p = Function.update mcache (cfg.line seq) (p.frag seq) := rfl

/-- Every step of a variant of the publication is a run of its stores. -/
theorem publishBy_run {access : PublishAccess} {s t : McacheSys cfg} (hs : PublishByStep fdSeqDec access args s t) :
    McacheRun fdSeqDec fdSeqDiff args s t := by
  cases hs with
  | mark hw hp =>
    have hmark : McacheStep fdSeqDec fdSeqDiff args s _ := Or.inl (.mark s hp)
    have hstores : McacheRun fdSeqDec fdSeqDiff args _ _ := storePart_run s access.mark
      (Function.update s.mcache (cfg.line (cfg.seq s.published))
        { s.mcache (cfg.line (cfg.seq s.published)) with seq := fdSeqDec (cfg.seq s.published) 1 }) FragField.body
      access.mark_nodup access.mark_subset
    rw [Function.update_self, Function.update_idem] at hstores
    exact Relation.ReflTransGen.head hmark hstores
  | store todo part hw hp hpart hsub =>
    have hstores : McacheRun fdSeqDec fdSeqDiff args _ _ := storePart_run s part s.mcache todo (access.parts_nodup part hpart) hsub
    rw [← hp] at hstores
    exact hstores
  | stamp hw hp => exact Relation.ReflTransGen.single (Or.inl (.stamp s hp))
  | whole hw hp =>
    have hrun : McacheRun fdSeqDec fdSeqDiff args s _ := publish_run s hp
    rw [publish_eq] at hrun
    exact hrun

/-- What is left of a list without its beginning. -/
theorem append_diff_left {α : Type} [DecidableEq α] (l l' : List α) : (l ++ l').diff l = l' := by
  induction l with
  | nil => rfl
  | cons a l ih => rw [List.cons_append, List.diff_cons, List.erase_cons_head, ih]

/-- The parts of a publication that are left, in their order. -/
theorem parts_run {pub : PublishAccess} {wait : WaitAccess} (hw : pub.whole = false) (s : McacheSys cfg)
    (parts : List (List FragField)) : (∀ part ∈ parts, part ∈ pub.parts) →
      ∀ mcache : Mcache cfg, McacheByRun fdSeqDec fdSeqDiff pub wait args
        { s with mcache := mcache, producer := .body parts.flatten }
        { s with
          mcache := Function.update mcache (cfg.line (cfg.seq s.published))
            (parts.foldl (fun line part => line.storeAll part (cfg.frag args s.published))
              (mcache (cfg.line (cfg.seq s.published))))
          producer := .body [] } := by
  induction parts with
  | nil =>
    intro _ mcache
    rw [List.foldl_nil, Function.update_eq_self]
    exact Relation.ReflTransGen.refl
  | cons part parts ih =>
    intro hparts mcache
    have hrest := ih (fun q hq => hparts q (List.mem_cons_of_mem part hq)) (Function.update mcache
      (cfg.line (cfg.seq s.published)) ((mcache (cfg.line (cfg.seq s.published))).storeAll part (cfg.frag args s.published)))
    rw [Function.update_self, Function.update_idem] at hrest
    have hstep : PublishByStep fdSeqDec pub args { s with mcache := mcache, producer := .body (part :: parts).flatten } _ :=
      .store _ (part :: parts).flatten part hw rfl (hparts part List.mem_cons_self)
        fun f hf => List.mem_append_left _ hf
    rw [List.flatten_cons, append_diff_left] at hstep
    exact Relation.ReflTransGen.head (Or.inl hstep) hrest

/-- A publication that nothing comes between is the function of its variant. -/
theorem publishBy_fun_run {pub : PublishAccess} {wait : WaitAccess} (s : McacheSys cfg) (hp : s.producer = .ready) :
    McacheByRun fdSeqDec fdSeqDiff pub wait args s
      { s with
        mcache := fdMcachePublishBy fdSeqDec pub s.mcache (cfg.seq s.published) (args s.published)
        published := s.published + 1 } := by
  unfold fdMcachePublishBy
  cases hw : pub.whole with
  | true => exact Relation.ReflTransGen.single (Or.inl (.whole s hw hp))
  | false =>
    have hmark : McacheByStep fdSeqDec fdSeqDiff pub wait args s _ := Or.inl (.mark s hw hp)
    rw [pub.todo] at hmark
    have hparts : McacheByRun fdSeqDec fdSeqDiff pub wait args _ _ := parts_run hw s pub.parts (fun _ h => h)
      (Function.update s.mcache (cfg.line (cfg.seq s.published))
        (({ s.mcache (cfg.line (cfg.seq s.published)) with seq := fdSeqDec (cfg.seq s.published) 1 } : FdFragMeta).storeAll
          pub.mark ((args s.published).frag (cfg.seq s.published))))
    rw [Function.update_self, Function.update_idem] at hparts
    have hstamp : McacheByStep fdSeqDec fdSeqDiff pub wait args { s with
        mcache := Function.update s.mcache (cfg.line (cfg.seq s.published))
          (pub.parts.foldl (fun line part => line.storeAll part (cfg.frag args s.published))
            (({ s.mcache (cfg.line (cfg.seq s.published)) with seq := fdSeqDec (cfg.seq s.published) 1 } : FdFragMeta).storeAll
              pub.mark ((args s.published).frag (cfg.seq s.published))))
        producer := .body [] } _ := Or.inl (.stamp _ hw rfl)
    simp only [Function.update_self, Function.update_idem] at hstamp
    rw [← hp] at hstamp
    exact (Relation.ReflTransGen.head hmark hparts).tail hstamp

/-- The variants are one function. -/
theorem publishSse_eq (mcache : Mcache cfg) (seq : Ulong) (p : PublishArgs) :
    fdMcachePublishSse fdSeqDec mcache seq p = fdMcachePublish fdSeqDec mcache seq p ∧
      fdMcachePublishAvx fdSeqDec mcache seq p = fdMcachePublish fdSeqDec mcache seq p :=
  ⟨rfl, rfl⟩

/-- Every step of a variant of the wait is a run of its reads. -/
theorem waitBy_run {access : WaitAccess} {s t : McacheSys cfg} (hs : WaitByStep fdSeqDiff access s t) :
    McacheRun fdSeqDec fdSeqDiff args s t := by
  cases hs with
  | wait e p frag hc hp => exact Relation.ReflTransGen.single (Or.inr (.wait s e p frag hc hp))
  | found e p frag hw hc =>
    have hfound : McacheStep fdSeqDec fdSeqDiff args s _ := Or.inr (.found s e p frag hc)
    have hcopies : McacheRun fdSeqDec fdSeqDiff args _ _ :=
      copyPart_run s e p (s.mcache (cfg.line e)).seq access.first frag FragField.all access.first_nodup fun f _ => mem_all f
    exact Relation.ReflTransGen.head hfound hcopies
  | copy e p frag seqFound todo part hc hpart hsub =>
    have hcopies : McacheRun fdSeqDec fdSeqDiff args { s with consumer := .copy e p frag seqFound todo } _ :=
      copyPart_run s e p seqFound part frag todo (access.parts_nodup part hpart) hsub
    rw [← hc] at hcopies
    exact hcopies
  | test e p frag seqFound hc => exact Relation.ReflTransGen.single (Or.inr (.test s e p frag seqFound hc))
  | whole e p frag hw hc =>
    have hfound : McacheStep fdSeqDec fdSeqDiff args s _ := Or.inr (.found s e p frag hc)
    have hcopies : McacheRun fdSeqDec fdSeqDiff args _ _ :=
      copyPart_run s e p (s.mcache (cfg.line e)).seq access.first frag FragField.all access.first_nodup fun f _ => mem_all f
    rw [access.todo, access.whole_parts hw] at hcopies
    have htest : WaitStep fdSeqDiff
        { s with
          consumer := .copy e p (frag.storeAll access.first (s.mcache (cfg.line e))) (s.mcache (cfg.line e)).seq [] } _ :=
      .test _ e p _ _ rfl
    exact (Relation.ReflTransGen.head hfound hcopies).tail (Or.inr htest)
  | decide e p frag seqFound seqTest hc => exact Relation.ReflTransGen.single (Or.inr (.decide s e p frag seqFound seqTest hc))

/-- A read of a line at once is the line. -/
theorem storeAll_avx (dst src : FdFragMeta) : dst.storeAll WaitAccess.avx.first src = src := by
  cases dst
  cases src
  rfl

/-- A poll that reads a line at once, and is done as the line is not behind. -/
theorem wholePoll_run {pub : PublishAccess} (s : McacheSys cfg) (e p : Ulong) (frag : FdFragMeta)
    (hc : s.consumer = .found e p frag) (hseq : 0 ≤ (fdSeqDiff (s.mcache (cfg.line e)).seq e).toInt) :
    McacheByRun fdSeqDec fdSeqDiff pub .avx args s
      { s with
        consumer := .done e (p - 1) (s.mcache (cfg.line e)) (s.mcache (cfg.line e)).seq
          (fdSeqDiff (s.mcache (cfg.line e)).seq e) } := by
  have hwhole : McacheByStep fdSeqDec fdSeqDiff pub .avx args s _ := Or.inr (.whole s e p frag rfl hc)
  rw [storeAll_avx] at hwhole
  have hdecide : WaitByStep fdSeqDiff .avx
      { s with consumer := .decide e p (s.mcache (cfg.line e)) (s.mcache (cfg.line e)).seq (s.mcache (cfg.line e)).seq } _ :=
    .decide _ e p _ _ _ rfl
  rw [if_pos ((waitDone_iff _ _ _ _).2 (Or.inl ⟨rfl, hseq⟩))] at hdecide
  exact (Relation.ReflTransGen.single hwhole).tail (Or.inr hdecide)

/-- The sequence number is on the line of a publication. -/
theorem publishBy_seq (pub : PublishAccess) (mcache : Mcache cfg) (seq : Ulong) (p : PublishArgs) :
    (fdMcachePublishBy fdSeqDec pub mcache seq p (cfg.line seq)).seq = seq := by
  unfold fdMcachePublishBy
  split_ifs
  · rw [Function.update_self]
    rfl
  · rw [Function.update_self]

/-- Publications that nothing comes between, the last of which is on its line. -/
theorem publishesBy_run {pub : PublishAccess} {wait : WaitAccess} {s0 : McacheSys cfg} (h0 : s0.Initial) (n : Nat) :
    ∃ mcache, McacheByRun fdSeqDec fdSeqDiff pub wait args s0 { s0 with mcache := mcache, published := n + 1 } ∧
      (mcache (cfg.line (cfg.seq n))).seq = cfg.seq n := by
  induction n with
  | zero =>
    have hrun : McacheByRun fdSeqDec fdSeqDiff pub wait args s0 _ := publishBy_fun_run s0 h0.producer
    rw [h0.published] at hrun
    exact ⟨_, hrun, publishBy_seq pub s0.mcache (cfg.seq 0) (args 0)⟩
  | succ n ih =>
    obtain ⟨mcache, hrun, _⟩ := ih
    have hnext : McacheByRun fdSeqDec fdSeqDiff pub wait args { s0 with mcache := mcache, published := n + 1 } _ :=
      publishBy_fun_run _ h0.producer
    exact ⟨_, hrun.trans hnext, publishBy_seq pub mcache (cfg.seq (n + 1)) (args (n + 1))⟩

/-- Publications up to `n` on a new mcache, and then a wait for a number `x` on the line of the last one. -/
theorem poll_after_run (pub : PublishAccess) (args : Nat → PublishArgs) {s0 : McacheSys cfg} (h0 : s0.Initial) {x n : Nat}
    (hxn : x ≤ n) (hn : n < 2 ^ 62) (hline : cfg.line (cfg.seq x) = cfg.line (cfg.seq n)) :
    ∃ s frag, McacheByRun (fun a n => a - n) (fun a b => a - b) pub .avx args s0 s ∧ s.published = n + 1 ∧
      s.producer = .ready ∧ s.consumer = .done (cfg.seq x) 1 frag (cfg.seq n) (cfg.seq n - cfg.seq x) := by
  obtain ⟨mcache, hpublish, hseq⟩ : ∃ mcache : Mcache cfg,
      McacheByRun (fun a n => a - n) (fun a b => a - b) pub .avx args s0 _ ∧ _ := publishesBy_run h0 n
  rw [← hline] at hseq
  have hwait : McacheByStep (fun a n => a - n) (fun a b => a - b) pub .avx args
      { s0 with mcache := mcache, published := n + 1 } _ :=
    Or.inr (.wait _ (cfg.seq x) 2 (mcache (cfg.line (cfg.seq x))) (Or.inl h0.consumer) (by decide))
  have hnear := toInt_sub_of_near (cfg.seq n) (cfg.seq x) cfg.seq0
  rw [seq_sub_seq0 (n := n) (by omega), seq_sub_seq0 (n := x) (by omega)] at hnear
  have hpoll : McacheByRun (fun a n => a - n) (fun a b => a - b) pub .avx args _ _ :=
    wholePoll_run { s0 with
      mcache := mcache, published := n + 1, consumer := .found (cfg.seq x) 2 (mcache (cfg.line (cfg.seq x))) }
      (cfg.seq x) 2 _ rfl (by dsimp only; rw [hseq, hnear (by omega) (by omega)]; omega)
  simp only [hseq] at hpoll
  exact ⟨_, _, (hpublish.tail hwait).trans hpoll, rfl, h0.producer, rfl⟩

/-- Every run with variants is a run without. -/
theorem byRun_run {pub : PublishAccess} {wait : WaitAccess} {s t : McacheSys cfg}
    (hrun : McacheByRun fdSeqDec fdSeqDiff pub wait args s t) : McacheRun fdSeqDec fdSeqDiff args s t := by
  induction hrun with
  | refl => exact Relation.ReflTransGen.refl
  | tail _ hstep ih =>
    rcases hstep with hs | hs
    · exact ih.trans (publishBy_run hs)
    · exact ih.trans (waitBy_run hs)

end Scalar

end McacheAux

/-- Whatever variants publish and wait, a wait for the number `x` that comes back in time, with less than `2^62` publications
begun, has what was published for it, or it reports an overrun: the number it found is at least a depth less one later. It is
before what is begun, but may be the marker of a publication that is not done. -/
theorem mcache_variants_untorn (fdSeqDec : Ulong → Ulong → Ulong) (fdSeqDiff : Ulong → Ulong → Long)
    (hdec : ∀ a n, fdSeqDec a n = a - n) (hdiff : ∀ a b, fdSeqDiff a b = a - b) (pub : PublishAccess) (wait : WaitAccess)
    (args : Nat → PublishArgs) (s0 s : McacheSys cfg) (h0 : s0.Initial)
    (hrun : McacheByRun fdSeqDec fdSeqDiff pub wait args s0 s) (hb : s.begun < 2 ^ 62) (x : Nat) (hx : x < 2 ^ 62)
    (pollMax : Ulong) (frag : FdFragMeta) (seqFound : Ulong) (seqDiff : Long)
    (hdone : s.consumer = .done (cfg.seq x) pollMax frag seqFound seqDiff) (hpoll : pollMax ≠ 0) :
    (seqDiff = 0 ∧ seqFound = cfg.seq x ∧ frag = (args x).frag (cfg.seq x)) ∨
      (0 < seqDiff.toInt ∧ ∃ y, seqFound = cfg.seq y ∧ x + cfg.depth.toNat ≤ y + 1 ∧ y < s.begun) := by
  obtain ⟨cells, _, hinv⟩ := sim_run hdec hdiff h0 (byRun_run hrun) hb
  rw [hdone] at hinv
  rcases done_position hinv hpoll hb hx with hfound | ⟨hpos, y, hy, hskip, hlt, _⟩
  · exact Or.inl hfound
  · exact Or.inr ⟨hpos, y, hy, hskip, hlt⟩

/-- A publication by halves and then a wait that reads the line at once. -/
theorem mcache_variants_untorn_one :
    ∃ s : McacheSys blockCfg,
      McacheByRun (fun a n => a - n) (fun a b => a - b) .sse .avx countingArgs (newMcacheSys blockCfg) s ∧ s.published = 1 ∧
      s.consumer = .done (blockCfg.seq 0) 1 ((countingArgs 0).frag (blockCfg.seq 0)) (blockCfg.seq 0) 0 := by
  have h0 := newMcacheSys_initial blockCfg
  obtain ⟨s, frag, hrun, hpub, hprod, hdone⟩ : ∃ (s : McacheSys blockCfg) (frag : FdFragMeta), _ :=
    poll_after_run .sse countingArgs h0 (Nat.le_refl 0) (Nat.two_pow_pos 62) rfl
  rw [BitVec.sub_self] at hdone
  have hbegun : s.begun < 2 ^ 62 := by
    rw [McacheSys.begun, hprod, hpub]
    decide
  rcases mcache_variants_untorn (fun a n => a - n) (fun a b => a - b) (fun _ _ => rfl) (fun _ _ => rfl) .sse .avx countingArgs _ s
    h0 hrun hbegun 0 (by decide) 1 frag _ 0 hdone (by decide) with ⟨_, _, rfl⟩ | ⟨hpos, _⟩
  · exact ⟨s, hrun, hpub, hdone⟩
  · exact absurd hpos (by decide)

/-! ## Whole lines -/

/-- A line is as new, or it is all that was published as some number. -/
def WholeLine (args : Nat → PublishArgs) (published : Nat) (i : Fin cfg.depth.toNat) (line : FdFragMeta) : Prop :=
  (-2 ^ 62 ≤ cfg.off line.seq ∧ cfg.off line.seq < 0) ∨
    ∃ n < published, cfg.line (cfg.seq n) = i ∧ line = cfg.frag args n

/-- What holds where lines are published and read as a whole. -/
structure WholeInv (args : Nat → PublishArgs) (s : McacheSys cfg) : Prop where
  producer : s.producer = .ready
  lines : ∀ i, WholeLine args s.published i (s.mcache i)
  copy : ∀ e p frag found todo, s.consumer ≠ .copy e p frag found todo
  decide : ∀ e p frag found test, s.consumer = .decide e p frag found test →
    found = frag.seq ∧ test = frag.seq ∧ WholeLine args s.published (cfg.line e) frag
  done : ∀ e p frag found diff, s.consumer = .done e p frag found diff →
    diff = found - e ∧ (p ≠ 0 → 0 ≤ diff.toInt) ∧ found = frag.seq ∧ WholeLine args s.published (cfg.line e) frag

namespace McacheAux

section Whole

variable {fdSeqDec : Ulong → Ulong → Ulong} {fdSeqDiff : Ulong → Ulong → Long} {args : Nat → PublishArgs}
  {s t : McacheSys cfg}

/-- A line stays what it is when more is published. -/
theorem WholeLine.mono {n m : Nat} {i : Fin cfg.depth.toNat} {line : FdFragMeta} (h : WholeLine args n i line) (hle : n ≤ m) :
    WholeLine args m i line := by
  refine h.imp id ?_
  rintro ⟨k, hk, hline, heq⟩
  exact ⟨k, Nat.lt_of_lt_of_le hk hle, hline, heq⟩

/-- Every step keeps it. -/
theorem wholeInv_step (hdiff : ∀ a b, fdSeqDiff a b = a - b) (h : WholeInv args s)
    (hs : McacheByStep fdSeqDec fdSeqDiff .avx .avx args s t) : WholeInv args t := by
  rcases hs with hs | hs
  · cases hs with
    | mark hw hp => cases hw
    | store todo part hw hp hpart hsub => cases hw
    | stamp hw hp => cases hw
    | whole hw hp =>
      have hle := Nat.le_succ s.published
      refine ⟨hp, fun i => ?_, h.copy, fun e p frag found test hc => ?_, fun e p frag found diff hc => ?_⟩
      · dsimp only
        by_cases hi : i = cfg.line (cfg.seq s.published)
        · subst hi
          rw [Function.update_self]
          exact Or.inr ⟨s.published, Nat.lt_succ_self _, rfl, rfl⟩
        · rw [Function.update_of_ne hi]
          exact WholeLine.mono (h.lines i) hle
      · obtain ⟨hfound, htest, hline⟩ := h.decide e p frag found test hc
        exact ⟨hfound, htest, WholeLine.mono hline hle⟩
      · obtain ⟨hd, hnonneg, hfound, hline⟩ := h.done e p frag found diff hc
        exact ⟨hd, hnonneg, hfound, WholeLine.mono hline hle⟩
  · cases hs with
    | wait e p frag hc hp => exact ⟨h.producer, h.lines, nofun, nofun, nofun⟩
    | found e p frag hw hc => cases hw
    | copy e p frag found todo part hc hpart hsub => exact absurd hc (h.copy _ _ _ _ _)
    | test e p frag found hc => exact absurd hc (h.copy _ _ _ _ _)
    | whole e p frag hw hc =>
      rw [storeAll_avx]
      refine ⟨h.producer, h.lines, nofun, ?_, nofun⟩
      intro e' p' frag' found' test' heq
      obtain ⟨rfl, rfl, rfl, rfl, rfl⟩ := WaitPc.decide.inj heq
      exact ⟨rfl, rfl, h.lines (cfg.line e)⟩
    | decide e p frag found test hc =>
      obtain ⟨hfound, htest, hline⟩ := h.decide e p frag found test hc
      split_ifs with hd
      · refine ⟨h.producer, h.lines, nofun, nofun, ?_⟩
        intro e' p' frag' found' diff' heq
        obtain ⟨rfl, rfl, rfl, rfl, rfl⟩ := WaitPc.done.inj heq
        exact ⟨hdiff _ _, fun hpoll => (((waitDone_iff _ _ _ _).1 hd).resolve_right hpoll).2, hfound, hline⟩
      · exact ⟨h.producer, h.lines, nofun, nofun, nofun⟩

/-- It holds in every state of every run from a new mcache. -/
theorem wholeInv_run (hdiff : ∀ a b, fdSeqDiff a b = a - b) (h0 : s.Initial)
    (hrun : McacheByRun fdSeqDec fdSeqDiff .avx .avx args s t) : WholeInv args t := by
  induction hrun with
  | refl =>
    refine ⟨h0.producer, fun i => ?_, ?_, ?_, ?_⟩
    · obtain ⟨j, hj, hle, hseq⟩ := h0.before i
      exact Or.inl (offset_blank hj hle hseq)
    · rw [h0.consumer]
      nofun
    · rw [h0.consumer]
      nofun
    · rw [h0.consumer]
      nofun
  | tail _ hstep ih => exact wholeInv_step hdiff ih hstep

end Whole

end McacheAux

/-- Where lines are published and read as a whole, a wait for the number `x` that comes back in time, with less than `2^62`
fragments published, has all of the metadata of the fragment it found, be it `x` or a later one on its line. -/
theorem mcache_avx_overrun (fdSeqDec : Ulong → Ulong → Ulong) (fdSeqDiff : Ulong → Ulong → Long)
    (hdiff : ∀ a b, fdSeqDiff a b = a - b) (args : Nat → PublishArgs) (s0 s : McacheSys cfg) (h0 : s0.Initial)
    (hrun : McacheByRun fdSeqDec fdSeqDiff .avx .avx args s0 s) (hb : s.published < 2 ^ 62) (x : Nat) (hx : x < 2 ^ 62)
    (pollMax : Ulong) (frag : FdFragMeta) (seqFound : Ulong) (seqDiff : Long)
    (hdone : s.consumer = .done (cfg.seq x) pollMax frag seqFound seqDiff) (hpoll : pollMax ≠ 0) :
    ∃ n, x ≤ n ∧ n < s.published ∧ n % cfg.depth.toNat = x % cfg.depth.toNat ∧ seqFound = cfg.seq n ∧
      seqDiff.toInt = (n : Int) - x ∧ frag = (args n).frag (cfg.seq n) := by
  have hinv : WholeInv args s := wholeInv_run hdiff h0 hrun
  obtain ⟨rfl, hnonneg, rfl, hline⟩ := hinv.done _ _ _ _ _ hdone
  have hnonneg := hnonneg hpoll
  have hnear := toInt_sub_of_near frag.seq (cfg.seq x) cfg.seq0
  rw [seq_sub_seq0 hx] at hnear
  rcases hline with ⟨hlow, hneg⟩ | ⟨n, hn, hline, rfl⟩
  · rw [McacheCfg.off] at hlow hneg
    have := hnear (by omega) (by omega)
    omega
  · have hseq : (cfg.frag args n).seq = cfg.seq n := rfl
    rw [hseq] at hnear hnonneg ⊢
    rw [seq_sub_seq0 (Nat.lt_trans hn hb)] at hnear
    have hval := hnear (by omega) (by omega)
    exact ⟨n, by omega, hn, (line_seq_eq_iff n x).1 hline, rfl, hval, rfl⟩

/-- A wait for the first fragment when 129 are published comes to the last one, and has all of it. -/
theorem mcache_avx_overrun_lap :
    ∃ s : McacheSys blockCfg,
      McacheByRun (fun a n => a - n) (fun a b => a - b) .avx .avx countingArgs (newMcacheSys blockCfg) s ∧ s.published = 129 ∧
      s.consumer = .done (blockCfg.seq 0) 1 ((countingArgs 128).frag (blockCfg.seq 128)) (blockCfg.seq 128) 128 := by
  have h0 := newMcacheSys_initial blockCfg
  obtain ⟨s, frag, hrun, hpub, _, hdone⟩ : ∃ (s : McacheSys blockCfg) (frag : FdFragMeta), _ :=
    poll_after_run .avx countingArgs h0 (Nat.zero_le 128) (by decide) (by decide)
  have hdiff : blockCfg.seq 128 - blockCfg.seq 0 = 128 := by decide
  rw [hdiff] at hdone
  obtain ⟨n, _, hn, _, hseq, hval, rfl⟩ := mcache_avx_overrun (fun a n => a - n) (fun a b => a - b) (fun _ _ => rfl) countingArgs
    _ s h0 hrun (by rw [hpub]; decide) 0 (by decide) 1 frag _ 128 hdone (by decide)
  have hlong : (128 : Long).toInt = 128 := by decide
  obtain rfl : n = 128 := by
    rw [hlong] at hval
    omega
  exact ⟨s, hrun, hpub, hdone⟩

end VerifyFiredancer
