import VerifyFiredancer.Lemmas.Mcache

/-!
# A wait never accepts torn metadata

Every line of a mcache is a stamped cell (`McacheSim`): the producer's stores are the writes of the cell (`sim_publish`), and
what a wait knows of its line while it copies it is what a reader of the cell knows (`WaitInv`). When a wait comes back in time,
it has the metadata published for its sequence number, or the producer has begun to overwrite the line
(`mcache_wait_untorn`).
-/

namespace VerifyFiredancer

open McacheAux Seqlock

variable {cfg : McacheCfg}

/-- What is published as number `n`. -/
def McacheCfg.frag (cfg : McacheCfg) (args : Nat → PublishArgs) (n : Nat) : FdFragMeta := (args n).frag (cfg.seq n)

/-- The writes of the cell of a line. -/
abbrev McacheCfg.Writes (cfg : McacheCfg) (args : Nat → PublishArgs) : Cell FragField Nat → Cell FragField Nat → Prop :=
  Write FragField.body fun n => (cfg.frag args n).get

/-- The lines of the system are the cells. -/
structure McacheSim (args : Nat → PublishArgs) (s : McacheSys cfg) (cells : Fin cfg.depth.toNat → Cell FragField Nat) :
    Prop where
  came : ∀ i, Came cfg i s.begun (cells i).phase (s.mcache i).seq
  body : ∀ i, ∀ f ∈ FragField.body, (cells i).body f = (s.mcache i).get f
  inv : ∀ i, Inv FragField.body (fun n => (cfg.frag args n).get) (cells i)
  producer : ∀ todo, s.producer = .body todo → todo ⊆ FragField.body ∧
    (cells (cfg.line (cfg.seq s.published))).phase = .writing s.published ∧
    (cells (cfg.line (cfg.seq s.published))).todo = todo

/-- What a wait knows, where `begun` publications are begun. It found its line in a phase, and as long as the line is there what
it has copied is what was published. -/
def WaitInv (args : Nat → PublishArgs) (begun : Nat) (cells : Fin cfg.depth.toNat → Cell FragField Nat) : WaitPc → Prop
  | .idle => True
  | .found _ _ _ => True
  | .copy seqExpected _ frag seqFound todo => ∃ p, Came cfg (cfg.line seqExpected) begun p seqFound ∧
      Watched p (∀ n, p = .written n → ∀ f, f ∉ todo → frag.get f = (cfg.frag args n).get f) (cells (cfg.line seqExpected))
  | .decide seqExpected _ frag seqFound seqTest => ∃ p, Came cfg (cfg.line seqExpected) begun p seqFound ∧
      (seqFound = seqTest → ∀ n, p = .written n → frag = cfg.frag args n)
  | .done seqExpected pollMax frag seqFound seqDiff => seqDiff = seqFound - seqExpected ∧ (pollMax ≠ 0 → 0 ≤ seqDiff.toInt ∧
      ∃ p, Came cfg (cfg.line seqExpected) begun p seqFound ∧ ∀ n, p = .written n → frag = cfg.frag args n)

namespace McacheAux

variable {args : Nat → PublishArgs} {s t : McacheSys cfg} {cells : Fin cfg.depth.toNat → Cell FragField Nat}

/-- A line that is stored to, and its cell. -/
theorem sim_update (h : McacheSim args s cells) {i : Fin cfg.depth.toNat} {line : FdFragMeta} {c : Cell FragField Nat}
    (hm : t.mcache = Function.update s.mcache i line) (hle : s.begun ≤ t.begun)
    (hw : cfg.Writes args (cells i) c) (hcame : Came cfg i t.begun c.phase line.seq)
    (hbody : ∀ f ∈ FragField.body, c.body f = line.get f)
    (hprod : ∀ todo, t.producer = .body todo → todo ⊆ FragField.body ∧ cfg.line (cfg.seq t.published) = i ∧
      c.phase = .writing t.published ∧ c.todo = todo) :
    McacheSim args t (Function.update cells i c) := by
  refine ⟨?_, ?_, ?_, ?_⟩
  · intro j
    rw [hm]
    by_cases hj : j = i
    · subst hj
      rw [Function.update_self, Function.update_self]
      exact hcame
    · rw [Function.update_of_ne hj, Function.update_of_ne hj]
      exact (h.came j).mono hle
  · intro j f hf
    rw [hm]
    by_cases hj : j = i
    · subst hj
      rw [Function.update_self, Function.update_self]
      exact hbody f hf
    · rw [Function.update_of_ne hj, Function.update_of_ne hj]
      exact h.body j f hf
  · exact (Function.forall_update_iff cells fun _ d => Inv FragField.body _ d).2 ⟨(h.inv i).write hw, fun j _ => h.inv j⟩
  · intro todo ht
    obtain ⟨hsub, hline, hphase, htodo⟩ := hprod todo ht
    rw [hline, Function.update_self]
    exact ⟨hsub, hphase, htodo⟩

/-- Every step of the producer is a write of the cell of the line it publishes to. -/
theorem sim_publish {fdSeqDec : Ulong → Ulong → Ulong} (hdec : ∀ a n, fdSeqDec a n = a - n) (h : McacheSim args s cells)
    (hs : PublishStep fdSeqDec args s t) (hb : t.begun < 2 ^ 62) :
    ∃ i c, cfg.Writes args (cells i) c ∧ McacheSim args t (Function.update cells i c) := by
  cases hs with
  | mark hp =>
    have hbegun : s.begun = s.published := by rw [McacheSys.begun, hp]
    have hlt : s.published < 2 ^ 62 := Nat.lt_of_succ_lt hb
    have hw : cfg.Writes args (cells (cfg.line (cfg.seq s.published))) _ :=
      .start _ s.published (Phase.rank_lt_writing fun u hu => hbegun ▸ ((h.came _).version u hu).1)
    refine ⟨_, _, hw, sim_update h rfl (Nat.le_trans (Nat.le_of_eq hbegun) (Nat.le_succ _)) hw ?_ ?_ ?_⟩
    · refine ⟨?_, fun n hn => ?_⟩
      · show (fdSeqDec (cfg.seq s.published) 1 - cfg.seq0).toInt = _
        rw [hdec, seq_dec_sub_seq0 hlt]
      · obtain rfl : s.published = n := Option.some.inj hn
        exact ⟨Nat.lt_succ_self _, rfl⟩
    · intro f hf
      rw [get_with_seq _ _ hf]
      exact h.body _ f hf
    · intro todo ht
      obtain rfl : FragField.body = todo := PublishPc.body.inj ht
      exact ⟨List.Subset.refl _, rfl, rfl, rfl⟩
  | store todo f hp hf =>
    obtain ⟨hsub, hphase, htodo⟩ := h.producer todo hp
    have hw : cfg.Writes args (cells (cfg.line (cfg.seq s.published))) _ :=
      .store _ s.published f hphase
    have hbegun : s.begun = s.published + 1 := by rw [McacheSys.begun, hp]
    refine ⟨_, _, hw, sim_update h rfl (Nat.le_of_eq hbegun) hw ?_ ?_ ?_⟩
    · have hseq : ∀ line src : FdFragMeta, (line.store f src).seq = line.seq := by
        intro line src
        exact BitVec.eq_of_toNat_eq (get_store_of_ne line src (ne_seq_of_mem_body (hsub hf)).symm)
      rw [hseq]
      exact (h.came _).mono (Nat.le_of_eq hbegun)
    · intro g hg
      by_cases hgf : g = f
      · subst hgf
        rw [get_store_self]
        exact Function.update_self ..
      · rw [get_store_of_ne _ _ hgf]
        exact (Function.update_of_ne hgf _ _).trans (h.body _ g hg)
    · intro todo' ht
      obtain rfl : todo.erase f = todo' := PublishPc.body.inj ht
      exact ⟨fun g hg => hsub (List.mem_of_mem_erase hg), rfl, hphase, by rw [htodo]⟩
  | stamp hp =>
    obtain ⟨hsub, hphase, htodo⟩ := h.producer [] hp
    have hw : cfg.Writes args (cells (cfg.line (cfg.seq s.published))) _ :=
      .finish _ s.published hphase htodo
    have hbegun : s.begun = s.published + 1 := by rw [McacheSys.begun, hp]
    refine ⟨_, _, hw, sim_update h rfl (Nat.le_of_eq hbegun) hw ?_ ?_ ?_⟩
    · refine ⟨seq_sub_seq0 (Nat.lt_of_succ_lt hb), fun n hn => ?_⟩
      obtain rfl : s.published = n := Option.some.inj hn
      exact ⟨Nat.lt_succ_self _, rfl⟩
    · intro f hf
      rw [get_with_seq _ _ hf]
      exact h.body _ f hf
    · intro todo ht
      cases ht

/-- A write of a cell takes nothing away from a wait. -/
theorem waitInv_write {begun begun' : Nat} {i : Fin cfg.depth.toNat} {c : Cell FragField Nat} {pc : WaitPc}
    (h : WaitInv args begun cells pc) (hle : begun ≤ begun')
    (hw : cfg.Writes args (cells i) c) :
    WaitInv args begun' (Function.update cells i c) pc := by
  cases pc with
  | idle => trivial
  | found e poll frag => trivial
  | copy e poll frag seqFound todo =>
    obtain ⟨p, hcame, hwatch⟩ := h
    refine ⟨p, hcame.mono hle, ?_⟩
    by_cases hi : cfg.line e = i
    · subst hi
      rw [Function.update_self]
      exact hwatch.write hw
    · rw [Function.update_of_ne hi]
      exact hwatch
  | decide e poll frag seqFound seqTest =>
    obtain ⟨p, hcame, hfrag⟩ := h
    exact ⟨p, hcame.mono hle, hfrag⟩
  | done e poll frag seqFound seqDiff =>
    obtain ⟨hdiff, hret⟩ := h
    refine ⟨hdiff, fun hpoll => ?_⟩
    obtain ⟨hnonneg, p, hcame, hfrag⟩ := hret hpoll
    exact ⟨hnonneg, p, hcame.mono hle, hfrag⟩

/-- A line in the written phase of a publication holds what was published. -/
theorem sim_written (h : McacheSim args s cells) {i : Fin cfg.depth.toNat} {n : Nat} (hp : (cells i).phase = .written n) :
    s.mcache i = cfg.frag args n := by
  refine get_ext fun f => ?_
  by_cases hf : f = .seq
  · subst hf
    have hcame := h.came i
    rw [hp] at hcame
    exact congrArg BitVec.toNat (eq_seq hcame.offset)
  · have hmem := mem_body_of_ne hf
    exact (h.body i f hmem).symm.trans ((h.inv i).written n hp f hmem)

/-- Every step of the consumer keeps what a wait knows. -/
theorem waitInv_step {fdSeqDiff : Ulong → Ulong → Long} (hdiff : ∀ a b, fdSeqDiff a b = a - b) (h : McacheSim args s cells)
    (hinv : WaitInv args s.begun cells s.consumer) (hs : WaitStep fdSeqDiff s t) :
    McacheSim args t cells ∧ WaitInv args t.begun cells t.consumer := by
  refine ⟨by cases hs <;> exact ⟨h.came, h.body, h.inv, h.producer⟩, ?_⟩
  cases hs with
  | wait e poll frag hc hp => trivial
  | found e poll frag hc =>
    refine ⟨_, h.came _, .start _ ?_⟩
    intro n hn f hf
    exact absurd (mem_all f) hf
  | copy e poll frag seqFound todo f hc hf =>
    rw [hc] at hinv
    obtain ⟨p, hcame, hwatch⟩ := hinv
    refine ⟨p, hcame, hwatch.look ?_⟩
    intro hp hcopied n hn g hg
    by_cases hgf : g = f
    · subst hgf
      rw [get_store_self, sim_written h (hp.trans hn)]
    · rw [get_store_of_ne _ _ hgf]
      exact hcopied n hn g fun hmem => hg ((List.mem_erase_of_ne hgf).2 hmem)
  | test e poll frag seqFound hc =>
    rw [hc] at hinv
    obtain ⟨p, hcame, hwatch⟩ := hinv
    refine ⟨p, hcame, ?_⟩
    rintro rfl n rfl
    -- the same sequence number twice, so the line is still where it was found
    have hp := hcame.eq_written (h.came (cfg.line e))
    exact get_ext fun f => hwatch.here hp n rfl f List.not_mem_nil
  | decide e poll frag seqFound seqTest hc =>
    rw [hc] at hinv
    obtain ⟨p, hcame, hfrag⟩ := hinv
    dsimp only
    by_cases hd : fdMcacheWaitDone seqFound seqTest (fdSeqDiff seqFound e) (poll - 1)
    · rw [if_pos hd]
      refine ⟨hdiff _ _, fun hpoll => ?_⟩
      obtain ⟨htest, hnonneg⟩ := ((waitDone_iff _ _ _ _).1 hd).resolve_right hpoll
      exact ⟨hnonneg, p, hcame, hfrag htest⟩
    · rw [if_neg hd]
      trivial

variable {fdSeqDec : Ulong → Ulong → Ulong} {fdSeqDiff : Ulong → Ulong → Long}

/-- Publications that are begun stay begun. -/
theorem begun_le_of_step (hs : McacheStep fdSeqDec fdSeqDiff args s t) : s.begun ≤ t.begun := by
  rcases hs with hs | hs
  · cases hs with
    | mark hp =>
      rw [McacheSys.begun, hp]
      exact Nat.le_succ _
    | store todo f hp hf =>
      rw [McacheSys.begun, hp]
      exact Nat.le_refl _
    | stamp hp =>
      rw [McacheSys.begun, hp]
      exact Nat.le_refl _
  · cases hs <;> exact Nat.le_refl _

/-- What holds in every state of every run from a new mcache. -/
theorem sim_run (hdec : ∀ a n, fdSeqDec a n = a - n) (hdiff : ∀ a b, fdSeqDiff a b = a - b) {s0 : McacheSys cfg}
    (h0 : s0.Initial) (hrun : McacheRun fdSeqDec fdSeqDiff args s0 s) (hb : s.begun < 2 ^ 62) :
    ∃ cells, McacheSim args s cells ∧ WaitInv args s.begun cells s.consumer := by
  induction hrun with
  | refl =>
    refine ⟨fun i => ⟨.blank, [], (s0.mcache i).get⟩, ⟨?_, fun _ _ _ => rfl, fun _ => ⟨nofun, nofun⟩, ?_⟩, ?_⟩
    · intro i
      obtain ⟨j, hj, hle, hseq⟩ := h0.before i
      exact ⟨offset_blank hj hle hseq, nofun⟩
    · intro todo ht
      rw [h0.producer] at ht
      cases ht
    · rw [h0.consumer]
      trivial
  | tail _ hstep ih =>
    have hle := begun_le_of_step hstep
    obtain ⟨cells, hsim, hinv⟩ := ih (Nat.lt_of_le_of_lt hle hb)
    rcases hstep with hs | hs
    · obtain ⟨i, c, hw, hsim'⟩ := sim_publish hdec hsim hs hb
      refine ⟨_, hsim', ?_⟩
      have hc := waitInv_write hinv hle hw
      cases hs <;> exact hc
    · exact ⟨cells, waitInv_step hdiff hsim hinv hs⟩

/-- The stores of a publication that are left, in the order of the source. -/
theorem stores_run (s : McacheSys cfg) (todo : List FragField) :
    ∀ mcache : Mcache cfg, McacheRun fdSeqDec fdSeqDiff args { s with mcache := mcache, producer := .body todo }
      { s with
        mcache := Function.update mcache (cfg.line (cfg.seq s.published))
          (todo.foldl (fun line f => line.store f (cfg.frag args s.published)) (mcache (cfg.line (cfg.seq s.published))))
        producer := .body [] } := by
  induction todo with
  | nil =>
    intro mcache
    rw [List.foldl_nil, Function.update_eq_self]
  | cons f todo ih =>
    intro mcache
    have hrest := ih (Function.update mcache (cfg.line (cfg.seq s.published))
      ((mcache (cfg.line (cfg.seq s.published))).store f (cfg.frag args s.published)))
    rw [Function.update_self, Function.update_idem] at hrest
    have hstep : PublishStep fdSeqDec args _ _ :=
      .store { s with mcache := mcache, producer := .body (f :: todo) } (f :: todo) f rfl List.mem_cons_self
    rw [List.erase_cons_head] at hstep
    exact Relation.ReflTransGen.head (Or.inl hstep) hrest

/-- A publication that nothing comes between is `fd_mcache_publish`. -/
theorem publish_run (s : McacheSys cfg) (hp : s.producer = .ready) :
    McacheRun fdSeqDec fdSeqDiff args s
      { s with
        mcache := fdMcachePublish fdSeqDec s.mcache (cfg.seq s.published) (args s.published)
        published := s.published + 1 } := by
  have hmark : McacheStep fdSeqDec fdSeqDiff args _ _ := Or.inl (.mark s hp)
  have hstores : McacheRun fdSeqDec fdSeqDiff args _ _ := stores_run s FragField.body
    (Function.update s.mcache (cfg.line (cfg.seq s.published))
      { s.mcache (cfg.line (cfg.seq s.published)) with seq := fdSeqDec (cfg.seq s.published) 1 })
  rw [Function.update_idem, Function.update_self] at hstores
  have hstamp : PublishStep fdSeqDec args _ _ := .stamp
    { s with
      mcache := Function.update s.mcache (cfg.line (cfg.seq s.published))
        (FragField.body.foldl (fun line f => line.store f (cfg.frag args s.published))
          { s.mcache (cfg.line (cfg.seq s.published)) with seq := fdSeqDec (cfg.seq s.published) 1 })
      producer := .body [] } rfl
  simp only [Function.update_self, Function.update_idem] at hstamp
  rw [← hp] at hstamp
  exact (Relation.ReflTransGen.head hmark hstores).tail (Or.inl hstamp)

/-- The copies of a poll that are left, in the order of the fields. -/
theorem copies_run (s : McacheSys cfg) (seqExpected pollMax seqFound : Ulong) (todo : List FragField) :
    ∀ frag : FdFragMeta, McacheRun fdSeqDec fdSeqDiff args
      { s with consumer := .copy seqExpected pollMax frag seqFound todo }
      { s with
        consumer := .copy seqExpected pollMax
          (todo.foldl (fun frag f => frag.store f (s.mcache (cfg.line seqExpected))) frag) seqFound [] } := by
  induction todo with
  | nil =>
    intro frag
    exact Relation.ReflTransGen.refl
  | cons f todo ih =>
    intro frag
    have hstep : WaitStep fdSeqDiff _ _ :=
      .copy { s with consumer := .copy seqExpected pollMax frag seqFound (f :: todo) } seqExpected pollMax frag seqFound
        (f :: todo) f rfl List.mem_cons_self
    rw [List.erase_cons_head] at hstep
    exact Relation.ReflTransGen.head (Or.inr hstep) (ih _)

/-- A poll that nothing comes between copies the line, and is done when the line is not behind. -/
theorem poll_run (s : McacheSys cfg) (seqExpected pollMax : Ulong) (frag : FdFragMeta)
    (hc : s.consumer = .found seqExpected pollMax frag)
    (hseq : 0 ≤ (fdSeqDiff (s.mcache (cfg.line seqExpected)).seq seqExpected).toInt) :
    McacheRun fdSeqDec fdSeqDiff args s
      { s with
        consumer := .done seqExpected (pollMax - 1) (s.mcache (cfg.line seqExpected)) (s.mcache (cfg.line seqExpected)).seq
          (fdSeqDiff (s.mcache (cfg.line seqExpected)).seq seqExpected) } := by
  have hfound : McacheStep fdSeqDec fdSeqDiff args _ _ := Or.inr (.found s seqExpected pollMax frag hc)
  have hcopies : McacheRun fdSeqDec fdSeqDiff args _ _ :=
    copies_run s seqExpected pollMax (s.mcache (cfg.line seqExpected)).seq FragField.all frag
  have htest : WaitStep fdSeqDiff _ _ := .test
    { s with
      consumer := .copy seqExpected pollMax (s.mcache (cfg.line seqExpected)) (s.mcache (cfg.line seqExpected)).seq [] }
    _ _ _ _ rfl
  have hdecide : WaitStep fdSeqDiff _ _ := .decide
    { s with
      consumer := .decide seqExpected pollMax (s.mcache (cfg.line seqExpected)) (s.mcache (cfg.line seqExpected)).seq
        (s.mcache (cfg.line seqExpected)).seq } _ _ _ _ _ rfl
  rw [if_pos ((waitDone_iff _ _ _ _).2 (Or.inl ⟨rfl, hseq⟩))] at hdecide
  exact ((Relation.ReflTransGen.head hfound hcopies).tail (Or.inr htest)).tail (Or.inr hdecide)

end McacheAux

/-- A wait that comes back in time, with less than `2^62` publications begun. With `seq_diff` zero it has what was published for
its sequence number; else `seq_diff` is positive, and the line is that of a later publication that is begun, which
`seq_found` is the number or the marker of. -/
theorem mcache_wait_untorn (fdSeqDec : Ulong → Ulong → Ulong) (fdSeqDiff : Ulong → Ulong → Long)
    (hdec : ∀ a n, fdSeqDec a n = a - n) (hdiff : ∀ a b, fdSeqDiff a b = a - b) (args : Nat → PublishArgs)
    (s0 s : McacheSys cfg) (h0 : s0.Initial) (hrun : McacheRun fdSeqDec fdSeqDiff args s0 s) (hb : s.begun < 2 ^ 62)
    (seqExpected pollMax : Ulong) (frag : FdFragMeta) (seqFound : Ulong) (seqDiff : Long)
    (hdone : s.consumer = .done seqExpected pollMax frag seqFound seqDiff) (hpoll : pollMax ≠ 0)
    (hexp : (seqExpected - cfg.seq0).toNat < 2 ^ 62) :
    (seqDiff = 0 → seqFound = seqExpected ∧ frag = (args (seqExpected - cfg.seq0).toNat).frag seqExpected) ∧
      (seqDiff ≠ 0 → 0 < seqDiff.toInt ∧ ∃ n, (seqExpected - cfg.seq0).toNat < n ∧ n < s.begun ∧
        cfg.seq n % cfg.depth = seqExpected % cfg.depth ∧ (seqFound = cfg.seq n ∨ seqFound = cfg.seq n - 1)) := by
  obtain ⟨cells, _, hinv⟩ := sim_run hdec hdiff h0 hrun hb
  rw [hdone] at hinv
  obtain ⟨rfl, hret⟩ := hinv
  obtain ⟨hnonneg, p, hcame, hfrag⟩ := hret hpoll
  obtain ⟨x, hx⟩ : ∃ x, x = (seqExpected - cfg.seq0).toNat := ⟨_, rfl⟩
  rw [← hx] at hexp ⊢
  obtain rfl : seqExpected = cfg.seq x := eq_seq (by rw [hx]; exact BitVec.toInt_eq_toNat_of_lt (by omega))
  have hoff := hcame.offset
  have hnear := toInt_sub_of_near seqFound (cfg.seq x) cfg.seq0
  rw [seq_sub_seq0 hexp] at hnear
  cases p with
  | blank =>
    obtain ⟨hlow, hneg⟩ := hoff
    have := hnear (by omega) (by omega)
    omega
  | writing n =>
    obtain ⟨hn, hline⟩ := hcame.version n rfl
    have hoff : (seqFound - cfg.seq0).toInt = n - 1 := hoff
    have hval := hnear (by omega) (by omega)
    have hne : n ≠ x + 1 := by
      rintro rfl
      exact line_seq_succ_ne x hline.symm
    have hpos : 0 < (seqFound - cfg.seq x).toInt := by omega
    refine ⟨fun hzero => ?_, fun _ => ⟨hpos, n, by omega, hn, line_eq_iff.1 hline, Or.inr ?_⟩⟩
    · rw [hzero] at hpos
      exact absurd hpos (by decide)
    · exact eq_seq_dec (Nat.lt_trans hn hb) hoff
  | written n =>
    obtain ⟨hn, hline⟩ := hcame.version n rfl
    have hoff : (seqFound - cfg.seq0).toInt = n := hoff
    have hval := hnear (by omega) (by omega)
    obtain rfl : seqFound = cfg.seq n := eq_seq hoff
    by_cases hnx : n = x
    · subst hnx
      refine ⟨fun _ => ⟨rfl, hfrag n rfl⟩, fun hne => absurd (BitVec.sub_self _) hne⟩
    · have hpos : 0 < (cfg.seq n - cfg.seq x).toInt := by omega
      refine ⟨fun hzero => ?_, fun _ => ⟨hpos, n, by omega, hn, line_eq_iff.1 hline, Or.inl rfl⟩⟩
      rw [hzero] at hpos
      exact absurd hpos (by decide)

/-- A whole publication and then a whole wait for it: the sequence number is the last one before the wrap. -/
theorem mcache_wait_untorn_one :
    ∃ (cfg : McacheCfg) (args : Nat → PublishArgs) (s0 s : McacheSys cfg) (frag : FdFragMeta), s0.Initial ∧
      McacheRun (fun a n => a - n) (fun a b => a - b) args s0 s ∧ s.consumer = .done ulongMax 1 frag ulongMax 0 ∧
        frag = (args 0).frag ulongMax := by
  let cfg : McacheCfg := ⟨128, ulongMax, by decide, 7, by decide⟩
  let args : Nat → PublishArgs := fun n => ⟨BitVec.ofNat 64 n, 2, 3, 4, 5, 6⟩
  let s0 : McacheSys cfg := ⟨fun _ => ⟨ulongMax - 1, 0, 0, 0, 7, 0, 0⟩, 0, .ready, .idle⟩
  let s1 : McacheSys cfg := ⟨fdMcachePublish (fun a n => a - n) s0.mcache (cfg.seq 0) (args 0), 1, .ready, .idle⟩
  let s2 : McacheSys cfg := { s1 with consumer := .found ulongMax 2 ⟨0, 0, 0, 0, 0, 0, 0⟩ }
  have hpublish : McacheRun (fun a n => a - n) (fun a b => a - b) args s0 s1 := publish_run s0 rfl
  have hwait : WaitStep (fun a b => a - b) s1 s2 := .wait s1 ulongMax 2 ⟨0, 0, 0, 0, 0, 0, 0⟩ (Or.inl rfl) (by decide)
  have hpoll : McacheRun (fun a n => a - n) (fun a b => a - b) args s2 _ := poll_run s2 ulongMax 2 _ rfl (by decide)
  have hseq : (s2.mcache (cfg.line ulongMax)).seq = ulongMax := by decide
  rw [hseq] at hpoll
  have h0 : s0.Initial := by
    refine ⟨rfl, rfl, rfl, fun _ => ⟨1, Nat.le_refl 1, ?_, rfl⟩⟩
    exact Nat.one_le_two_pow
  have hrun := (hpublish.tail (Or.inr hwait)).trans hpoll
  have hzero : (ulongMax - cfg.seq0).toNat = 0 := congrArg BitVec.toNat (BitVec.sub_self ulongMax)
  have hbegun : 1 < 2 ^ 62 := by omega
  have hfrag := (mcache_wait_untorn (fun a n => a - n) (fun a b => a - b) (fun _ _ => rfl) (fun _ _ => rfl) args s0 _ h0 hrun
    hbegun _ _ _ _ _ rfl (by decide) (by rw [hzero]; exact Nat.two_pow_pos 62)).1 (by decide)
  rw [hzero] at hfrag
  exact ⟨cfg, args, s0, _, _, h0, hrun, rfl, hfrag.2⟩

end VerifyFiredancer
