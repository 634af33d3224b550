import VerifyFiredancer.Lemmas.Tango

/-!
# What a receiver or the transmitter can do alone

From every reachable state a receiver that nothing comes between gets to the position of the transmitter (`catchUp_run`), and the
transmitter gets through an update and through publications (`publishes_run`). A step of one receiver leaves the transmitter and the
other receivers as they are (`OnlyRx`), and a run of the transmitter and the active receivers all others (`others_run`).
-/

namespace VerifyFiredancer

open McacheAux TangoAux Seqlock CreditFlow

variable {cfg : McacheCfg}

/-- Runs of one receiver. -/
abbrev RxRun (base : FdTangoBase) (a : Nat) : TangoSys cfg → TangoSys cfg → Prop := Relation.ReflTransGen (RxStep base a)

/-- A step of the transmitter or of an active receiver. -/
def ActiveStep (base : FdTangoBase) (args : Nat → PublishArgs) (rxs : List FdFctlPrivateRx) (s t : TangoSys cfg) : Prop :=
  TxStep base args s t ∨ ∃ a, ActiveRx rxs a ∧ RxStep base a s t

/-- Runs of the transmitter and the active receivers. -/
abbrev ActiveRun (base : FdTangoBase) (args : Nat → PublishArgs) (rxs : List FdFctlPrivateRx) :
    TangoSys cfg → TangoSys cfg → Prop :=
  Relation.ReflTransGen (ActiveStep base args rxs)

/-- Only the receiver `a` is somewhere else, and at its address something else may be published. -/
structure OnlyRx (a : Nat) (s t : TangoSys cfg) : Prop where
  mcache : t.mcache = s.mcache
  published : t.published = s.published
  producer : t.producer = s.producer
  tx : t.tx = s.tx
  flow : t.flow = { s.flow with rxSeq := t.flow.rxSeq, seq := t.flow.seq }
  rx : ∀ b, b ≠ a → t.rx b = s.rx b ∧ t.log b = s.log b ∧ t.flow.rxSeq b = s.flow.rxSeq b ∧ t.flow.seq b = s.flow.seq b

namespace TangoAux

section Rx

variable {base : FdTangoBase} {a : Nat} {s t : TangoSys cfg}

/-- A step of a receiver. -/
theorem onlyRx_step (hs : RxStep base a s t) : OnlyRx a s t := by
  cases hs with
  | crReturn ha =>
    exact ⟨rfl, rfl, rfl, rfl, rfl, fun b hb => ⟨rfl, rfl, rfl, Function.update_of_ne hb _ _⟩⟩
  | join | overrun | clobbered | accept =>
    exact ⟨rfl, rfl, rfl, rfl, rfl, fun b hb =>
      ⟨Function.update_of_ne hb _ _, Function.update_of_ne hb _ _, Function.update_of_ne hb _ _, rfl⟩⟩
  | wait | poll | timeout | receive =>
    exact ⟨rfl, rfl, rfl, rfl, rfl, fun b hb => ⟨Function.update_of_ne hb _ _, rfl, rfl, rfl⟩⟩

/-- A run of a receiver. -/
theorem onlyRx_run (hrun : RxRun base a s t) : OnlyRx a s t := by
  induction hrun with
  | refl => exact ⟨rfl, rfl, rfl, rfl, rfl, fun _ _ => ⟨rfl, rfl, rfl, rfl⟩⟩
  | tail _ hstep ih =>
    have h := onlyRx_step hstep
    refine ⟨h.mcache.trans ih.mcache, h.published.trans ih.published, h.producer.trans ih.producer, h.tx.trans ih.tx, ?_, ?_⟩
    · rw [h.flow, ih.flow]
    · intro b hb
      obtain ⟨hrx, hlog, hrxSeq, hseq⟩ := h.rx b hb
      obtain ⟨hrx', hlog', hrxSeq', hseq'⟩ := ih.rx b hb
      exact ⟨hrx.trans hrx', hlog.trans hlog', hrxSeq.trans hrxSeq', hseq.trans hseq'⟩

/-- It is a run of the system. -/
theorem tango_of_rx {args : Nat → PublishArgs} (hrun : RxRun base a s t) : TangoRun base args s t :=
  hrun.lift id fun _ _ hs => (Or.inr ⟨a, hs⟩ : TangoStep base args _ _)

section Active

variable {args : Nat → PublishArgs} {rxs : List FdFctlPrivateRx}

/-- A run of an active receiver. -/
theorem active_of_rx (hact : ActiveRx rxs a) (hrun : RxRun base a s t) : ActiveRun base args rxs s t :=
  hrun.lift id fun _ _ hs => (Or.inr ⟨a, hact, hs⟩ : ActiveStep base args rxs _ _)

/-- A run of the transmitter and of active receivers is a run of the system. -/
theorem tango_of_active (hrun : ActiveRun base args rxs s t) : TangoRun base args s t :=
  hrun.lift id fun _ _ hs => (hs.imp id fun ⟨b, _, hb⟩ => ⟨b, hb⟩ : TangoStep base args _ _)

/-- The transmitter leaves the receivers where they are. -/
theorem others_tx (hs : TxStep base args s t) : t.rx = s.rx ∧ t.log = s.log ∧ t.flow.rxSeq = s.flow.rxSeq := by
  cases hs with
  | update flow hl hs htx hrx hseq => exact ⟨rfl, rfl, hrx⟩
  | seqUpdate | burst | send | sent => exact ⟨rfl, rfl, rfl⟩

/-- A receiver that is not active stays where it is. -/
theorem others_run (hrun : ActiveRun base args rxs s t) {b : Nat} (hb : ¬ActiveRx rxs b) :
    t.rx b = s.rx b ∧ t.log b = s.log b ∧ t.flow.rxSeq b = s.flow.rxSeq b := by
  induction hrun with
  | refl => exact ⟨rfl, rfl, rfl⟩
  | tail _ hstep ih =>
    obtain ⟨hrx, hlog, hseq⟩ := ih
    rcases hstep with hs | ⟨a, hact, hs⟩
    · obtain ⟨hrx', hlog', hseq'⟩ := others_tx hs
      exact ⟨(congrFun hrx' b).trans hrx, (congrFun hlog' b).trans hlog, (congrFun hseq' b).trans hseq⟩
    · have hba : b ≠ a := fun h => hb (h ▸ hact)
      obtain ⟨hrx', hlog', hseq', _⟩ := (onlyRx_step hs).rx b hba
      exact ⟨hrx'.trans hrx, hlog'.trans hlog, hseq'.trans hseq⟩

end Active

/-- Where a receiver goes twice, it goes. -/
theorem goto_goto (s : TangoSys cfg) (a : Nat) (pc pc' : RxPc) : (s.goto a pc).goto a pc' = s.goto a pc' := by
  simp only [TangoSys.goto, Function.update_idem]

/-- The receiver is where it went. -/
theorem goto_rx (s : TangoSys cfg) (a : Nat) (pc : RxPc) : (s.goto a pc).rx a = pc := Function.update_self ..

/-- A receiver is where it is. -/
theorem goto_self {pc : RxPc} (h : s.rx a = pc) : s.goto a pc = s := by
  rw [TangoSys.goto, ← h, Function.update_eq_self]

/-- It goes on from where it went as from anywhere. -/
theorem goto_advance (s : TangoSys cfg) (a : Nat) (pc : RxPc) (rxSeq pollMax : Ulong) (event : RxEvent) :
    (s.goto a pc).advance a rxSeq pollMax event = s.advance a rxSeq pollMax event := by
  simp only [TangoSys.goto, TangoSys.advance, Function.update_idem]

/-- Back at the top of the loop. -/
theorem advance_rx (s : TangoSys cfg) (a : Nat) (rxSeq pollMax : Ulong) (event : RxEvent) :
    (s.advance a rxSeq pollMax event).rx a = .loop pollMax := Function.update_self ..

/-- With one event more in its log, at a new position. -/
theorem advance_log (s : TangoSys cfg) (a : Nat) (rxSeq pollMax : Ulong) (event : RxEvent) :
    (s.advance a rxSeq pollMax event).log a = s.log a ++ [event] := Function.update_self ..

theorem advance_rxSeq (s : TangoSys cfg) (a : Nat) (rxSeq pollMax : Ulong) (event : RxEvent) :
    (s.advance a rxSeq pollMax event).flow.rxSeq a = rxSeq := Function.update_self ..

/-- A wait that timed out. -/
theorem timeout_step (e : Ulong) (frag : FdFragMeta) (seqFound : Ulong) (seqDiff : Long) {pollMax : Ulong} (hp : 0 < pollMax) :
    RxStep base a (s.goto a (.wait (.done e 0 frag seqFound seqDiff))) (s.goto a (.loop pollMax)) := by
  have h : RxStep base a _ _ := .timeout (s.goto a _) e frag seqFound seqDiff pollMax (goto_rx s a _) hp
  rw [goto_goto] at h
  exact h

/-- A wait that came back with what it waited for. -/
theorem receive_step (e : Ulong) {pollMax : Ulong} (frag : FdFragMeta) (seqFound : Ulong) {seqDiff : Long} (hp : pollMax ≠ 0)
    (hd : seqDiff = 0) :
    RxStep base a (s.goto a (.wait (.done e pollMax frag seqFound seqDiff))) (s.goto a (.process pollMax frag)) := by
  have h : RxStep base a _ _ := .receive (s.goto a _) e pollMax frag seqFound seqDiff (goto_rx s a _) hp hd
  rw [goto_goto] at h
  exact h

/-- A wait that came back too late. -/
theorem overrun_step (e : Ulong) {pollMax : Ulong} (frag : FdFragMeta) (seqFound : Ulong) {seqDiff : Long} (hp : pollMax ≠ 0)
    (hd : seqDiff ≠ 0) :
    RxStep base a (s.goto a (.wait (.done e pollMax frag seqFound seqDiff)))
      (s.advance a seqFound pollMax (.overrun (s.flow.rxSeq a) seqFound)) := by
  have h : RxStep base a _ _ := .overrun (s.goto a _) e pollMax frag seqFound seqDiff (goto_rx s a _) hp hd
  rw [goto_advance] at h
  exact h

/-- A step of a wait. -/
theorem poll_step {pc : WaitPc} {r : McacheSys cfg} (hb : pc.Busy) (hs : WaitStep base.fdSeqDiff (s.view pc) r) :
    RxStep base a (s.goto a (.wait pc)) (s.goto a (.wait r.consumer)) := by
  have h : RxStep base a _ _ := .poll (s.goto a (.wait pc)) pc r (goto_rx s a _) hb hs
  rw [goto_goto] at h
  exact h

/-- The copies of a poll that are left. -/
theorem copies_rx (e pollMax seqFound : Ulong) (todo : List FragField) :
    ∀ frag : FdFragMeta, RxRun base a (s.goto a (.wait (.copy e pollMax frag seqFound todo)))
      (s.goto a (.wait (.copy e pollMax (todo.foldl (fun frag f => frag.store f (s.mcache (cfg.line e))) frag) seqFound []))) := by
  induction todo with
  | nil =>
    intro frag
    exact Relation.ReflTransGen.refl
  | cons f todo ih =>
    intro frag
    have hstep : WaitStep base.fdSeqDiff (s.view (.copy e pollMax frag seqFound (f :: todo))) _ :=
      .copy _ e pollMax frag seqFound (f :: todo) f rfl List.mem_cons_self
    rw [List.erase_cons_head] at hstep
    exact Relation.ReflTransGen.head (poll_step trivial hstep) (ih _)

/-- What a poll comes to that found `seqFound`. -/
def pollEnd (base : FdTangoBase) (s : TangoSys cfg) (e pollMax : Ulong) (frag : FdFragMeta) (seqFound : Ulong) : WaitPc :=
  if fdMcacheWaitDone seqFound (s.mcache (cfg.line e)).seq (base.fdSeqDiff seqFound e) (pollMax - 1) then
    .done e (pollMax - 1) frag seqFound (base.fdSeqDiff seqFound e)
  else .found e (pollMax - 1) frag

/-- A poll from its copy on. -/
theorem copy_rx (e pollMax seqFound : Ulong) (todo : List FragField) (frag : FdFragMeta) :
    RxRun base a (s.goto a (.wait (.copy e pollMax frag seqFound todo)))
      (s.goto a (.wait (pollEnd base s e pollMax
        (todo.foldl (fun frag f => frag.store f (s.mcache (cfg.line e))) frag) seqFound))) := by
  obtain ⟨copied, hcopied⟩ : ∃ copied, copied = todo.foldl (fun frag f => frag.store f (s.mcache (cfg.line e))) frag := ⟨_, rfl⟩
  have htest : WaitStep base.fdSeqDiff (s.view (.copy e pollMax copied seqFound [])) _ := .test _ e pollMax copied seqFound rfl
  have hdecide : WaitStep base.fdSeqDiff (s.view (.decide e pollMax copied seqFound (s.mcache (cfg.line e)).seq)) _ :=
    .decide _ e pollMax copied seqFound _ rfl
  rw [← hcopied]
  have hcopies : RxRun base a (s.goto a _) _ := copies_rx e pollMax seqFound todo frag
  rw [← hcopied] at hcopies
  exact (hcopies.tail (poll_step (by trivial) htest)).tail (poll_step (by trivial) hdecide)

/-- A whole poll. -/
theorem found_rx (e pollMax : Ulong) (frag : FdFragMeta) :
    RxRun base a (s.goto a (.wait (.found e pollMax frag)))
      (s.goto a (.wait (pollEnd base s e pollMax (s.mcache (cfg.line e)) (s.mcache (cfg.line e)).seq))) := by
  have hfound : WaitStep base.fdSeqDiff (s.view (.found e pollMax frag)) _ := .found _ e pollMax frag rfl
  exact Relation.ReflTransGen.head (poll_step trivial hfound) (copy_rx e pollMax _ FragField.all frag)

/-- The receiver gets, with nothing else moved, to the top of its loop or to a wait that is done in time. -/
def GetsOut (base : FdTangoBase) (a : Nat) (s : TangoSys cfg) (pc : WaitPc) : Prop :=
  ∃ pc', RxRun base a (s.goto a (.wait pc)) (s.goto a pc') ∧
    ((∃ pollMax, pc' = .loop pollMax) ∨ ∃ e pollMax frag seqFound seqDiff, pollMax ≠ 0 ∧
      pc' = .wait (.done e pollMax frag seqFound seqDiff))

/-- A run to somewhere it gets out from. -/
theorem GetsOut.head {pc pc' : WaitPc} (h : GetsOut base a s pc')
    (hrun : RxRun base a (s.goto a (.wait pc)) (s.goto a (.wait pc'))) : GetsOut base a s pc := by
  obtain ⟨pc'', hrest, hout⟩ := h
  exact ⟨pc'', hrun.trans hrest, hout⟩

/-- A wait that is done: in time, or it timed out. -/
theorem getsOut_done (e pollMax : Ulong) (frag : FdFragMeta) (seqFound : Ulong) (seqDiff : Long) :
    GetsOut base a s (.done e pollMax frag seqFound seqDiff) := by
  by_cases hp : pollMax = 0
  · subst hp
    exact ⟨_, Relation.ReflTransGen.single (timeout_step e frag seqFound seqDiff (by decide)), Or.inl ⟨2, rfl⟩⟩
  · exact ⟨_, Relation.ReflTransGen.refl, Or.inr ⟨e, pollMax, frag, seqFound, seqDiff, hp, rfl⟩⟩

/-- The end of a poll: done, or another one that is not the last. -/
theorem getsOut_pollEnd (e pollMax : Ulong) (frag : FdFragMeta) (seqFound : Ulong)
    (h : pollMax - 1 ≠ 0 → GetsOut base a s (.found e (pollMax - 1) frag)) :
    GetsOut base a s (pollEnd base s e pollMax frag seqFound) := by
  unfold pollEnd
  split_ifs with hdone
  · exact getsOut_done ..
  · exact h fun hzero => hdone ((waitDone_iff _ _ _ _).2 (Or.inr hzero))

/-- A wait at its next poll gives up after `poll_max` polls. -/
theorem getsOut_found (e : Ulong) (n : Nat) :
    ∀ (pollMax : Ulong) (frag : FdFragMeta), pollMax.toNat = n + 1 → GetsOut base a s (.found e pollMax frag) := by
  induction n with
  | zero =>
    intro pollMax frag hn
    refine (getsOut_pollEnd e pollMax _ _ fun hne => absurd ?_ hne).head (found_rx e pollMax frag)
    bv_omega
  | succ n ih =>
    intro pollMax frag hn
    refine (getsOut_pollEnd e pollMax _ _ fun _ => ih _ _ ?_).head (found_rx e pollMax frag)
    bv_omega

/-- A wait at its next poll. -/
theorem getsOut_of_ne (e : Ulong) {pollMax : Ulong} (frag : FdFragMeta) (hne : pollMax ≠ 0) :
    GetsOut base a s (.found e pollMax frag) := by
  have hpos : pollMax.toNat ≠ 0 := fun hzero => hne (BitVec.eq_of_toNat_eq hzero)
  exact getsOut_found e (pollMax.toNat - 1) pollMax frag (by omega)

/-- From anywhere in a wait. -/
theorem getsOut (pc : WaitPc) (hpc : pc ≠ .idle) : GetsOut base a s pc := by
  cases pc with
  | idle => exact absurd rfl hpc
  | found e pollMax frag =>
    exact (getsOut_pollEnd e pollMax _ _ (getsOut_of_ne e _)).head (found_rx e pollMax frag)
  | copy e pollMax frag seqFound todo =>
    exact (getsOut_pollEnd e pollMax _ seqFound (getsOut_of_ne e _)).head (copy_rx e pollMax seqFound todo frag)
  | decide e pollMax frag seqFound seqTest =>
    have hdecide : WaitStep base.fdSeqDiff (s.view (.decide e pollMax frag seqFound seqTest)) _ :=
      .decide _ e pollMax frag seqFound seqTest rfl
    have hrun : RxRun base a (s.goto a _) (s.goto a _) := Relation.ReflTransGen.single (poll_step (by trivial) hdecide)
    refine GetsOut.head ?_ hrun
    dsimp only
    split_ifs with hdone
    · exact getsOut_done ..
    · exact getsOut_of_ne e _ fun hzero => hdone ((waitDone_iff _ _ _ _).2 (Or.inr hzero))
  | done e pollMax frag seqFound seqDiff => exact getsOut_done ..

/-- From the processing of a fragment to the top of the loop. -/
theorem process_run (base : FdTangoBase) {pollMax : Ulong} {frag : FdFragMeta} (hrx : s.rx a = .process pollMax frag) :
    ∃ t, RxRun base a s t ∧ t.rx a = .loop pollMax := by
  by_cases hne : base.fdSeqNe (base.fdFragMetaSeqQuery (s.mcache (cfg.line (s.flow.rxSeq a)))) (s.flow.rxSeq a)
  · exact ⟨_, Relation.ReflTransGen.single (.clobbered s pollMax frag _ hrx rfl hne), advance_rx ..⟩
  · exact ⟨_, Relation.ReflTransGen.single (.accept s pollMax frag _ hrx rfl hne), advance_rx ..⟩

/-- From anywhere in the loop to its top. -/
theorem loop_run (base : FdTangoBase) (hoff : s.rx a ≠ .off) (hidle : s.rx a ≠ .wait .idle) :
    ∃ t pollMax, RxRun base a s t ∧ t.rx a = .loop pollMax := by
  cases hrx : s.rx a with
  | off => exact absurd hrx hoff
  | loop pollMax => exact ⟨s, pollMax, Relation.ReflTransGen.refl, hrx⟩
  | process pollMax frag =>
    obtain ⟨t, hrun, ht⟩ := process_run base hrx
    exact ⟨t, pollMax, hrun, ht⟩
  | wait pc =>
    obtain ⟨pc', hrun, hout⟩ : GetsOut base a s pc := getsOut pc (by rintro rfl; exact hidle hrx)
    rw [goto_self hrx] at hrun
    rcases hout with ⟨pollMax, rfl⟩ | ⟨e, pollMax, frag, seqFound, seqDiff, hne, rfl⟩
    · exact ⟨_, pollMax, hrun, goto_rx s a _⟩
    · by_cases hd : seqDiff = 0
      · obtain ⟨t, hrest, ht⟩ := process_run base (goto_rx s a (.process pollMax frag))
        exact ⟨t, pollMax, (hrun.tail (receive_step e frag seqFound hne hd)).trans hrest, ht⟩
      · exact ⟨_, pollMax, hrun.tail (overrun_step e frag seqFound hne hd), advance_rx ..⟩

end Rx

section Catch

variable {rxs : List FdFctlPrivateRx} {args : Nat → PublishArgs} {s t : TangoSys cfg}
  {cells : Fin cfg.depth.toNat → Cell FragField Nat} {flow : Flow Nat} {base : FdTangoBase} {a x : Nat}

/-- What a receiver that is behind finds on its line is not behind. -/
theorem behind_done (h : TangoInv rxs args s cells flow) (hb : s.begun < 2 ^ 62) (hx : x < s.published) {line : FdFragMeta}
    (hline : s.mcache (cfg.line (cfg.seq x)) = line) (q : Ulong) :
    fdMcacheWaitDone line.seq line.seq (line.seq - cfg.seq x) q = true := by
  have hpub := (published_le_begun s).1
  have hstored := h.stored x hx
  have hbounds := off_bounds (h.mcache.came (cfg.line (cfg.seq x))) hb
  have hbounds : -2 ^ 62 ≤ cfg.off (s.mcache (cfg.line (cfg.seq x))).seq ∧
    cfg.off (s.mcache (cfg.line (cfg.seq x))).seq < 2 ^ 62 := hbounds
  have hnear := toInt_sub_of_near line.seq (cfg.seq x) cfg.seq0
  rw [hline, McacheCfg.off] at hstored hbounds
  rw [seq_sub_seq0 (n := x) (by omega)] at hnear
  refine (waitDone_iff _ _ _ _).2 (Or.inl ⟨rfl, ?_⟩)
  rw [hnear (by omega) (by omega)]
  omega

/-- A fragment of the last depth is on its line. -/
theorem line_of_recent (h : TangoInv rxs args s cells flow) (hx : x < s.published) (hb : s.begun ≤ x + cfg.depth.toNat) :
    (s.mcache (cfg.line (cfg.seq x))).seq = cfg.seq x := by
  rcases came_later (h.mcache.came (cfg.line (cfg.seq x))) (h.stored x hx) with ⟨_, hseq, _⟩ | ⟨y, _, _, _, hlag⟩
  · exact hseq
  · exact absurd hlag (Nat.not_lt.2 hb)

/-- It comes, in one poll or two, to a wait that is done in time. -/
theorem behind_run (hdiff : ∀ a b, base.fdSeqDiff a b = a - b) (h : TangoInv rxs args s cells flow) (hb : s.begun < 2 ^ 62)
    {pollMax : Ulong} (hrx : s.rx a = .loop pollMax) (hpos : s.flow.rxSeq a = cfg.seq x) (hx : x < s.published)
    {line : FdFragMeta} (hline : s.mcache (cfg.line (cfg.seq x)) = line) :
    ∃ q, q ≠ 0 ∧ RxRun base a s (s.goto a (.wait (.done (cfg.seq x) q line line.seq (line.seq - cfg.seq x)))) := by
  have hpoll : ∀ q, RxRun base a (s.goto a (.loop q))
      (s.goto a (.wait (.done (cfg.seq x) (q - 1) line line.seq (line.seq - cfg.seq x)))) := by
    intro q
    have hwait : RxStep base a _ _ := .wait (s.goto a (.loop q)) q line (goto_rx s a _)
    rw [goto_goto, show (s.goto a (.loop q)).flow.rxSeq a = cfg.seq x from hpos] at hwait
    have hend : RxRun base a (s.goto a _) _ := found_rx (cfg.seq x) q line
    rw [pollEnd, hline, hdiff, if_pos (behind_done h hb hx hline _)] at hend
    exact Relation.ReflTransGen.head hwait hend
  have hfirst := hpoll pollMax
  rw [goto_self hrx] at hfirst
  by_cases hp : pollMax - 1 = 0
  · rw [hp] at hfirst
    exact ⟨1, by decide, (hfirst.tail (timeout_step _ _ _ _ (by decide))).trans (hpoll 2)⟩
  · exact ⟨pollMax - 1, hp, hfirst⟩

/-- One that finds a later number on its line takes an overrun to it. -/
theorem overrun_run (hdiff : ∀ a b, base.fdSeqDiff a b = a - b) (h : TangoInv rxs args s cells flow) (hb : s.begun < 2 ^ 62)
    {pollMax : Ulong} (hrx : s.rx a = .loop pollMax) (hpos : s.flow.rxSeq a = cfg.seq x) (hx : x < s.published) {y : Nat}
    (hseq : (s.mcache (cfg.line (cfg.seq x))).seq = cfg.seq y) (hxy : x < y) (hy : y < s.begun) :
    ∃ q, RxRun base a s (s.advance a (cfg.seq y) q (.overrun (cfg.seq x) (cfg.seq y))) := by
  obtain ⟨q, hq, hrun⟩ := behind_run hdiff h hb hrx hpos hx rfl
  rw [hseq] at hrun
  have hlate : cfg.seq y - cfg.seq x ≠ 0 := by
    intro hzero
    have := eq_of_seq ((BitVec.sub_eq_iff_eq_add.1 hzero).trans (BitVec.zero_add _)) (Nat.le_of_lt hxy) (by omega)
    omega
  have hover : RxStep base a (s.goto a _) _ :=
    overrun_step (cfg.seq x) (s.mcache (cfg.line (cfg.seq x))) (cfg.seq y) hq hlate
  rw [hpos] at hover
  exact ⟨q, hrun.tail hover⟩

/-- A receiver that is behind gets on. -/
theorem advance_run (hbase : base.Documented) (h : TangoInv rxs args s cells flow) (hb : s.begun < 2 ^ 62)
    {pollMax : Ulong} (hrx : s.rx a = .loop pollMax) (hpos : s.flow.rxSeq a = cfg.seq x) (hx : x < s.published) :
    ∃ t q y, RxRun base a s t ∧ t.rx a = .loop q ∧ t.flow.rxSeq a = cfg.seq y ∧ x < y ∧ y ≤ s.published := by
  have hpub := published_le_begun s
  rcases came_later (h.mcache.came (cfg.line (cfg.seq x))) (h.stored x hx) with ⟨_, hseq, _⟩ | ⟨y, hseq, hskip, hy, _⟩
  · have hseq : (s.mcache (cfg.line (cfg.seq x))).seq = cfg.seq x := hseq
    obtain ⟨q, hq, hrun⟩ := behind_run hbase.diff h hb hrx hpos hx rfl
    have haccept : RxStep base a _ _ :=
      .accept (s.goto a (.process q (s.mcache (cfg.line (cfg.seq x))))) q _ _ (goto_rx s a _) rfl (by
        rw [hbase.ne, hbase.query]
        show ¬(s.mcache (cfg.line (s.flow.rxSeq a))).seq ≠ s.flow.rxSeq a
        rw [hpos]
        exact fun hne => hne hseq)
    rw [hseq] at hrun
    have hreceive : RxStep base a (s.goto a _) _ :=
      receive_step (cfg.seq x) (s.mcache (cfg.line (cfg.seq x))) (cfg.seq x) hq (BitVec.sub_self (cfg.seq x))
    refine ⟨_, q, x + 1, (hrun.tail hreceive).tail haccept, advance_rx .., ?_, Nat.lt_succ_self x, hx⟩
    rw [advance_rxSeq, hbase.inc]
    exact (congrArg (· + 1) hpos).trans (seq_add x 1)
  · have hdepth : 128 ≤ cfg.depth.toNat := cfg.block_le
    have hy : y < s.begun := hy
    obtain ⟨q, hrun⟩ := overrun_run hbase.diff h hb hrx hpos hx hseq (by omega) hy
    exact ⟨_, q, y, hrun, advance_rx .., advance_rxSeq .., by omega, by omega⟩

/-- What is known stays known in a run of a receiver. -/
theorem inv_rxRun (hbase : base.Documented) (hcr : ∀ rx ∈ rxs, rx.seqLaddr ≠ none → 1 ≤ rx.crMax.toInt)
    (h : TangoInv rxs args s cells flow) (hb : s.begun < 2 ^ 62) (hrun : RxRun base a s t) :
    t.begun = s.begun ∧ ∃ flow', TangoInv rxs args t cells flow' := by
  induction hrun with
  | refl => exact ⟨rfl, flow, h⟩
  | tail _ hstep ih =>
    obtain ⟨hbegun, flow', h'⟩ := ih
    exact ⟨(begun_rx hstep).trans hbegun, inv_rx hbase hcr h' (hbegun ▸ hb) hstep⟩

/-- A receiver gets, alone, to the position of the transmitter. -/
theorem catchUp_run (hbase : base.Documented) (hcr : ∀ rx ∈ rxs, rx.seqLaddr ≠ none → 1 ≤ rx.crMax.toInt) (n : Nat) :
    ∀ {s : TangoSys cfg} {flow : Flow Nat} {x : Nat} {pollMax : Ulong}, TangoInv rxs args s cells flow → s.begun < 2 ^ 62 →
      s.rx a = .loop pollMax → s.flow.rxSeq a = cfg.seq x → x + n = s.published →
      ∃ t q, RxRun base a s t ∧ t.rx a = .loop q ∧ t.flow.rxSeq a = cfg.seq s.published := by
  induction n using Nat.strongRecOn with
  | ind n ih =>
    intro s flow x pollMax h hb hrx hpos hn
    by_cases hzero : n = 0
    · exact ⟨s, pollMax, Relation.ReflTransGen.refl, hrx, by rw [hpos, ← hn, hzero, Nat.add_zero]⟩
    · obtain ⟨t, q, y, hrun, htrx, htpos, hxy, hy⟩ := advance_run hbase h hb hrx hpos (by omega)
      obtain ⟨hbegun, flow', h'⟩ := inv_rxRun hbase hcr h hb hrun
      have hpub := (onlyRx_run hrun).published
      obtain ⟨u, q', hrest, hurx, hupos⟩ :=
        ih (s.published - y) (by omega) h' (hbegun ▸ hb) htrx htpos (by rw [hpub]; omega)
      exact ⟨u, q', hrun.trans hrest, hurx, hpub ▸ hupos⟩

/-- So it does from anywhere in its loop. -/
theorem joined_run (hbase : base.Documented) (hcr : ∀ rx ∈ rxs, rx.seqLaddr ≠ none → 1 ≤ rx.crMax.toInt)
    (h : TangoInv rxs args s cells flow) (hb : s.begun < 2 ^ 62) (hjoined : Joined rxs args cells s a) :
    ∃ t q, RxRun base a s t ∧ t.rx a = .loop q ∧ t.flow.rxSeq a = cfg.seq s.published := by
  obtain ⟨_, x, _, _, _, _, hat⟩ := hjoined
  obtain ⟨t, pollMax, hrun, htrx⟩ := loop_run (s := s) (a := a) base
    (by intro hoff; rw [hoff] at hat; exact hat) (by intro hidle; rw [hidle] at hat; exact hat.2)
  obtain ⟨hbegun, flow', h'⟩ := inv_rxRun hbase hcr h hb hrun
  have hpub := (onlyRx_run hrun).published
  obtain ⟨_, y, _, hy, hpos, _, _⟩ := joined_of_ne_off h' (a := a) (by rw [htrx]; nofun)
  obtain ⟨u, q, hrest, hurx, hupos⟩ := catchUp_run (a := a) hbase hcr (t.published - y) h' (hbegun ▸ hb) htrx hpos (by omega)
  exact ⟨u, q, hrun.trans hrest, hurx, hpub ▸ hupos⟩

end Catch

section Tx

variable {args : Nat → PublishArgs} {rxs : List FdFctlPrivateRx} {s t : TangoSys cfg} {base : FdTangoBase}

/-- Steps of an update that leave every position as it is. -/
def UpdateStep (fdSeqDiff : Ulong → Ulong → Long) (f g : FctlSys) : Prop :=
  FctlStep fdSeqDiff f g ∧ g.txSeq = f.txSeq ∧ g.rxSeq = f.rxSeq ∧ g.seq = f.seq

/-- The transmitter does them between two bursts. -/
theorem update_tx (hl : s.tx = .loop) {g : FctlSys} (hrun : Relation.ReflTransGen (UpdateStep base.fdSeqDiff) s.flow g) :
    ActiveRun base args rxs s { s with flow := g } := by
  induction hrun with
  | refl => exact Relation.ReflTransGen.refl
  | tail _ hstep ih =>
    obtain ⟨hs, htx, hrx, hseq⟩ := hstep
    exact ih.tail (Or.inl (.update { s with flow := _ } _ hl hs htx hrx hseq))

/-- The reads of a query that are left. -/
theorem reads_update {fdSeqDiff : Ulong → Ulong → Long} (f : FctlSys) (inRefill : Int) (rest : List FdFctlPrivateRx) :
    ∀ (rxIdx : Nat) (acc : Ulong × Ulong), f.fctl.rx.drop rxIdx = rest →
      ∃ i, f.fctl.rx.length ≤ i ∧ Relation.ReflTransGen (UpdateStep fdSeqDiff) { f with pc := .query inRefill rxIdx acc }
        { f with pc := .query inRefill i (fdFctlCrQueryLoop fdSeqDiff f.seq f.txSeq rest rxIdx acc) } := by
  induction rest with
  | nil =>
    intro rxIdx acc hdrop
    exact ⟨rxIdx, List.drop_eq_nil_iff.1 hdrop, Relation.ReflTransGen.refl⟩
  | cons rx rest ih =>
    intro rxIdx acc hdrop
    have hlt : rxIdx < f.fctl.rx.length := by
      refine Nat.lt_of_not_le fun hle => ?_
      rw [List.drop_eq_nil_iff.2 hle] at hdrop
      cases hdrop
    rw [List.drop_eq_getElem_cons hlt, List.cons.injEq] at hdrop
    obtain ⟨hrx, hrest⟩ := hdrop
    obtain ⟨i, hi, hrun⟩ := ih (rxIdx + 1) (fdFctlCrQueryRx fdSeqDiff f.seq f.txSeq rx (BitVec.ofNat 64 rxIdx) acc) hrest
    have hread : UpdateStep fdSeqDiff { f with pc := .query inRefill rxIdx acc } _ :=
      ⟨.read _ inRefill rxIdx acc rx rfl (by rw [← hrx]; exact List.getElem?_eq_getElem hlt), rfl, rfl, rfl⟩
    exact ⟨i, hi, Relation.ReflTransGen.head hread hrun⟩

/-- A query from any receiver on, to its end. -/
theorem query_update {fdSeqDiff : Ulong → Ulong → Long} (f : FctlSys) (inRefill : Int) (rxIdx : Nat) (acc : Ulong × Ulong) :
    Relation.ReflTransGen (UpdateStep fdSeqDiff) { f with pc := .query inRefill rxIdx acc } { f with
      fctl := (fdFctlTxCrUpdateQueried f.fctl f.slow f.crAvail inRefill
        (fdFctlCrQueryLoop fdSeqDiff f.seq f.txSeq (f.fctl.rx.drop rxIdx) rxIdx acc)).1
      slow := (fdFctlTxCrUpdateQueried f.fctl f.slow f.crAvail inRefill
        (fdFctlCrQueryLoop fdSeqDiff f.seq f.txSeq (f.fctl.rx.drop rxIdx) rxIdx acc)).2.1
      crAvail := (fdFctlTxCrUpdateQueried f.fctl f.slow f.crAvail inRefill
        (fdFctlCrQueryLoop fdSeqDiff f.seq f.txSeq (f.fctl.rx.drop rxIdx) rxIdx acc)).2.2
      pc := .run } := by
  obtain ⟨i, hi, hrun⟩ := reads_update f inRefill (f.fctl.rx.drop rxIdx) rxIdx acc rfl
  exact hrun.tail ⟨FctlStep.finish { f with pc := .query inRefill i _ } inRefill i _ rfl hi, rfl, rfl, rfl⟩

/-- The limits of a fctl with which a transmitter whose receivers keep up can always go on: it asks for credits before it has
too few for a burst, and every receiver can grant what it resumes at. -/
structure Live (fctl : FdFctl) : Prop where
  crBurst : 1 ≤ fctl.crBurst
  crRefill : fctl.crBurst ≤ fctl.crRefill
  crResume : fctl.crBurst ≤ fctl.crResume ∧ fctl.crResume ≤ fctl.crMax
  rx : ∀ rx ∈ fctl.rx, (fctl.crResume.toNat : Int) ≤ rx.crMax.toInt

/-- Every receiver can be granted something. -/
theorem Live.crMax_pos {fctl : FdFctl} (h : Live fctl) {rx : FdFctlPrivateRx} (hrx : rx ∈ fctl.rx) : 1 ≤ rx.crMax.toInt := by
  have h1 := h.rx rx hrx
  have h2 := BitVec.le_def.1 h.crResume.1
  have h3 : 1 ≤ fctl.crBurst.toNat := BitVec.le_def.1 h.crBurst
  omega

/-- The limits stay. -/
def SameLimits (f g : FdFctl) : Prop := g = { f with inRefill := g.inRefill }

/-- An update changes whether it is refilling. -/
theorem sameLimits_queried (fctl : FdFctl) (slow : Nat → Ulong) (crAvail : Ulong) (inRefill : Int) (query : Ulong × Ulong) :
    SameLimits fctl (fdFctlTxCrUpdateQueried fctl slow crAvail inRefill query).1 := by
  unfold SameLimits fdFctlTxCrUpdateQueried
  dsimp only
  split_ifs <;> rfl

/-- They stay in every step. -/
theorem sameLimits_step (hs : TangoStep base args s t) : SameLimits s.flow.fctl t.flow.fctl := by
  rcases hs with hs | ⟨a, hs⟩
  · cases hs with
    | update f hl hs htx hrx hseq =>
      cases hs with
      | finish inRefill rxIdx acc hpc hrx => exact sameLimits_queried ..
      | _ => rfl
    | _ => rfl
  · cases hs <;> rfl

/-- They stay in every run. -/
theorem sameLimits_run (hrun : TangoRun base args s t) : SameLimits s.flow.fctl t.flow.fctl := by
  induction hrun with
  | refl => rfl
  | tail _ hstep ih =>
    have h := sameLimits_step hstep
    rw [SameLimits] at ih h ⊢
    rw [h, ih]

/-- So a live fctl stays one. -/
theorem Live.run (h : Live s.flow.fctl) (hrun : TangoRun base args s t) : Live t.flow.fctl := by
  rw [sameLimits_run hrun]
  exact ⟨h.crBurst, h.crRefill, h.crResume, h.rx⟩

/-- With every active receiver caught up, the transmitter gets the credits for a burst. -/
theorem credits_run (args : Nat → PublishArgs) (rxs : List FdFctlPrivateRx) (hdiff : ∀ a b, base.fdSeqDiff a b = a - b)
    (hlive : Live s.flow.fctl) (hl : s.tx = .loop) (hpc : s.flow.pc = .run)
    (hup : ∀ rx ∈ s.flow.fctl.rx, ∀ a, rx.seqLaddr = some a → s.flow.seq a = s.flow.txSeq) :
    ∃ g, ActiveRun base args rxs s { s with flow := g } ∧ g.pc = .run ∧ ¬g.crAvail < g.fctl.crBurst ∧
      SameLimits s.flow.fctl g.fctl := by
  by_cases hcr : s.flow.crAvail < s.flow.fctl.crBurst
  · have hlow := Nat.lt_of_lt_of_le (BitVec.lt_def.1 hcr) (BitVec.le_def.1 hlive.crRefill)
    have hq : s.flow.fctl.Queries s.flow.crAvail := Or.inl (BitVec.lt_def.2 hlow)
    have hstart : UpdateStep base.fdSeqDiff s.flow _ := ⟨.start s.flow hpc hq, rfl, rfl, rfl⟩
    have hquery : Relation.ReflTransGen (UpdateStep base.fdSeqDiff) _ _ :=
      query_update s.flow s.flow.fctl.inRefill 0 (s.flow.fctl.crMax, ulongMax)
    refine ⟨_, update_tx hl (Relation.ReflTransGen.head hstart hquery), rfl, ?_, sameLimits_queried ..⟩
    have hpos : ∀ rx ∈ s.flow.fctl.rx, 1 ≤ rx.crMax.toInt := fun _ hrx => hlive.crMax_pos hrx
    have hres : s.flow.fctl.crResume ≤ (fdFctlCrQueryLoop base.fdSeqDiff s.flow.seq s.flow.txSeq (s.flow.fctl.rx.drop 0) 0
        (s.flow.fctl.crMax, ulongMax)).1 := by
      rw [List.drop_zero]
      refine (FctlAux.le_queryLoop_iff hdiff s.flow.fctl.rx 0 _ hpos hup).2 ⟨hlive.crResume.2, fun rx hrx _ => ?_⟩
      have h1 := hlive.rx rx hrx
      have h2 := FctlAux.toNat_of_nonneg (Int.le_trans (by decide) (hpos rx hrx))
      omega
    simp only [fdFctlTxCrUpdateQueried, if_pos hres]
    rw [BitVec.not_lt]
    exact BitVec.le_trans hlive.crResume.1 hres
  · exact ⟨s.flow, Relation.ReflTransGen.refl, hpc, hcr, rfl⟩

/-- A publication of a burst from any store on. -/
theorem body_run (base : FdTangoBase) (rxs : List FdFctlPrivateRx) {txCnt : Ulong} {first : Nat} (todo : List FragField) :
    ∀ {s : TangoSys cfg}, s.tx = .burst txCnt first → s.published < first + txCnt.toNat → s.producer = .body todo →
      ∃ t, ActiveRun base args rxs s t ∧ t.published = s.published + 1 ∧ t.producer = .ready ∧ t.tx = s.tx := by
  induction todo with
  | nil =>
    intro s ht hn hp
    have hs : PublishStep base.fdSeqDec args (s.view .idle) _ := .stamp _ hp
    exact ⟨_, Relation.ReflTransGen.single (Or.inl (.send s txCnt first _ ht hn hs)), rfl, rfl, rfl⟩
  | cons f todo ih =>
    intro s ht hn hp
    have hs : PublishStep base.fdSeqDec args (s.view .idle) _ := .store _ (f :: todo) f hp List.mem_cons_self
    have hstep : TxStep base args s _ := .send s txCnt first _ ht hn hs
    obtain ⟨t, hrun, hend⟩ := ih (s := { s with mcache := _, published := s.published, producer := .body ((f :: todo).erase f) })
      ht hn (by rw [List.erase_cons_head])
    exact ⟨t, Relation.ReflTransGen.head (Or.inl hstep) hrun, hend⟩

/-- The next publication of a burst. -/
theorem burst_run (base : FdTangoBase) (args : Nat → PublishArgs) (rxs : List FdFctlPrivateRx) {txCnt : Ulong} {first : Nat}
    (ht : s.tx = .burst txCnt first) (hn : s.published < first + txCnt.toNat) :
    ∃ t, ActiveRun base args rxs s t ∧ t.published = s.published + 1 ∧ t.producer = .ready ∧ t.tx = s.tx := by
  cases hp : s.producer with
  | body todo => exact body_run base rxs todo ht hn hp
  | ready =>
    have hs : PublishStep base.fdSeqDec args (s.view .idle) _ := .mark _ hp
    have hstep : TxStep base args s _ := .send s txCnt first _ ht hn hs
    obtain ⟨t, hrun, hend⟩ := body_run base rxs FragField.body (s := { s with
      mcache := _, published := s.published, producer := .body FragField.body }) ht hn rfl
    exact ⟨t, Relation.ReflTransGen.head (Or.inl hstep) hrun, hend⟩

end Tx

section System

variable {rxs : List FdFctlPrivateRx} {args : Nat → PublishArgs} {s t : TangoSys cfg}
  {cells : Fin cfg.depth.toNat → Cell FragField Nat} {flow : Flow Nat} {base : FdTangoBase}

/-- What is known stays known in a run. -/
theorem inv_tangoRun (hbase : base.Documented) (hcr : ∀ rx ∈ rxs, rx.seqLaddr ≠ none → 1 ≤ rx.crMax.toInt)
    (h : TangoInv rxs args s cells flow) (hrun : TangoRun base args s t) (hb : t.begun < 2 ^ 62) :
    ∃ cells' flow', TangoInv rxs args t cells' flow' := by
  induction hrun with
  | refl => exact ⟨cells, flow, h⟩
  | tail _ hstep ih =>
    obtain ⟨cells', flow', h'⟩ := ih (Nat.lt_of_le_of_lt (begun_le hstep) hb)
    exact inv_step hbase hcr h' hstep hb

/-- What is begun depends on the transmitter only. -/
theorem begun_congr (hpub : t.published = s.published) (hprod : t.producer = s.producer) : t.begun = s.begun := by
  rw [TangoSys.begun, TangoSys.begun, McacheSys.begun, McacheSys.begun, TangoSys.view, TangoSys.view, hpub, hprod]

/-- Active receivers get to the position of the transmitter one after the other, and publish it. -/
theorem caughtUp_run (hbase : base.Documented) (hcr : ∀ rx ∈ rxs, rx.seqLaddr ≠ none → 1 ≤ rx.crMax.toInt)
    (h : TangoInv rxs args s cells flow) (hb : s.begun < 2 ^ 62) (todo : List FdFctlPrivateRx) (htodo : todo ⊆ rxs) :
    ∃ t flow', ActiveRun base args rxs s t ∧ TangoInv rxs args t cells flow' ∧ t.published = s.published ∧ t.tx = s.tx ∧
      t.producer = s.producer ∧ t.flow = { s.flow with rxSeq := t.flow.rxSeq, seq := t.flow.seq } ∧
      ∀ rx ∈ todo, ∀ a, rx.seqLaddr = some a → t.flow.seq a = cfg.seq s.published := by
  induction todo with
  | nil => exact ⟨s, flow, Relation.ReflTransGen.refl, h, rfl, rfl, rfl, rfl, fun _ hrx => nomatch hrx⟩
  | cons rx todo ih =>
    obtain ⟨t, flow', hrun, h', hpub, htx, hprod, hflow, hup⟩ := ih fun r hr => htodo (List.mem_cons_of_mem _ hr)
    cases ha : rx.seqLaddr with
    | none =>
      refine ⟨t, flow', hrun, h', hpub, htx, hprod, hflow, ?_⟩
      intro r hr a hra
      rcases List.mem_cons.1 hr with rfl | hr
      · rw [ha] at hra
        cases hra
      · exact hup r hr a hra
    | some a =>
      have hact : ActiveRx rxs a := ⟨rx, htodo List.mem_cons_self, ha⟩
      have hbegun : t.begun < 2 ^ 62 := begun_congr hpub hprod ▸ hb
      have hjoined : Joined rxs args cells t a := (h'.rx a).resolve_left fun hoff => hoff.2.2 hact
      obtain ⟨u, q, hrest, hurx, hupos⟩ := joined_run hbase hcr h' hbegun hjoined
      obtain ⟨hbegun', flow'', h''⟩ := inv_rxRun hbase hcr h' hbegun hrest
      have honly := onlyRx_run hrest
      have hreturn : RxStep base a u _ := .crReturn u ((active_iff h'' a).2 hact)
      obtain ⟨flow3, h3⟩ := inv_rx hbase hcr h'' (hbegun' ▸ hbegun) hreturn
      have hall := onlyRx_step hreturn
      have hrun' : ActiveRun base args rxs s u := hrun.trans (active_of_rx hact hrest)
      refine ⟨_, flow3, hrun'.tail (Or.inr ⟨a, hact, hreturn⟩), h3, honly.published.trans hpub, honly.tx.trans htx,
        honly.producer.trans hprod, ?_, ?_⟩
      · dsimp only
        rw [honly.flow, hflow]
      · intro r hr b hrb
        by_cases hba : b = a
        · subst hba
          exact (Function.update_self ..).trans (hpub ▸ hupos)
        · rcases List.mem_cons.1 hr with rfl | hr
          · rw [ha] at hrb
            exact absurd (Option.some.inj hrb).symm hba
          · exact (Function.update_of_ne hba _ _).trans (((honly.rx b hba).2.2.2).trans (hup r hr b hrb))

/-- Between two bursts the transmitter is at what it has published, and no more is begun. -/
theorem txSeq_of_loop (h : TangoInv rxs args s cells flow) (hl : s.tx = .loop) :
    s.begun = s.published ∧ s.flow.txSeq = cfg.seq s.published := by
  have htx := h.tx
  rw [hl] at htx
  exact ⟨begun_ready htx.1, htx.2⟩

/-- Between two bursts: the active receivers catch up, the transmitter gets credits and publishes the next fragment. -/
theorem next_loop_run (hbase : base.Documented) (hcr : ∀ rx ∈ rxs, rx.seqLaddr ≠ none → 1 ≤ rx.crMax.toInt)
    (h : TangoInv rxs args s cells flow) (hlive : Live s.flow.fctl) (hb : s.begun < 2 ^ 62) (hl : s.tx = .loop) :
    ∃ t, ActiveRun base args rxs s t ∧ t.published = s.published + 1 ∧ t.tx = .loop ∧ t.producer = .ready := by
  obtain ⟨f, hquery, hpc⟩ : ∃ f, ActiveRun base args rxs s { s with flow := f } ∧ f.pc = .run := by
    cases hpc : s.flow.pc with
    | run => exact ⟨s.flow, Relation.ReflTransGen.refl, hpc⟩
    | query inRefill rxIdx acc =>
      have hend : Relation.ReflTransGen (UpdateStep base.fdSeqDiff) _ _ := query_update s.flow inRefill rxIdx acc
      rw [← hpc] at hend
      exact ⟨_, update_tx hl hend, rfl⟩
  obtain ⟨cells', flow', h'⟩ := inv_tangoRun hbase hcr h (tango_of_active hquery) hb
  obtain ⟨t, flow'', hrun, h'', hpub, htx, hprod, hflow, hup⟩ := caughtUp_run hbase hcr h' hb rxs (List.Subset.refl _)
  have htloop : t.tx = .loop := htx.trans hl
  obtain ⟨_, htxSeq⟩ := txSeq_of_loop h'' htloop
  have hsofar := hquery.trans hrun
  have hlive' := hlive.run (tango_of_active hsofar)
  have hrxs : t.flow.fctl.rx = rxs := by
    have hfields := (flowAhead_fields t).1
    rw [← hfields]
    exact h''.flow.rx
  obtain ⟨g, hcredits, hgpc, hgcr, hglim⟩ := credits_run args rxs hbase.diff hlive' htloop
    (by rw [hflow]; exact hpc) (by
      rw [hrxs]
      intro rx hrx a ha
      rw [hup rx hrx a ha, htxSeq, hpub])
  have hgburst : (1 : Ulong) ≤ g.fctl.crBurst := by
    rw [hglim]
    exact hlive'.crBurst
  have hburst : TxStep base args { t with flow := g } _ := .burst _ 1 htloop hgpc hgcr hgburst
  obtain ⟨u, hrest, hupub, huready, hutx⟩ :=
    burst_run base args rxs (s := { t with flow := g, tx := .burst 1 t.published }) rfl (Nat.lt_succ_self _)
  have hsent : TxStep base args u _ := .sent u 1 t.published hutx huready hupub
  have hrun' : ActiveRun base args rxs s u :=
    (hsofar.trans hcredits).trans (Relation.ReflTransGen.head (Or.inl hburst) hrest)
  exact ⟨_, hrun'.tail (Or.inl hsent), hupub.trans (congrArg (· + 1) hpub), rfl, huready⟩

/-- So it publishes any number of fragments, one burst after the other. -/
theorem publishes_run (hbase : base.Documented) (hcr : ∀ rx ∈ rxs, rx.seqLaddr ≠ none → 1 ≤ rx.crMax.toInt)
    (h : TangoInv rxs args s cells flow) (hlive : Live s.flow.fctl) (hl : s.tx = .loop) (n : Nat)
    (hb : s.published + n < 2 ^ 62) :
    ∃ t, ActiveRun base args rxs s t ∧ t.published = s.published + n ∧ t.tx = .loop ∧
      ∃ cells' flow', TangoInv rxs args t cells' flow' := by
  induction n with
  | zero => exact ⟨s, Relation.ReflTransGen.refl, rfl, hl, cells, flow, h⟩
  | succ n ih =>
    obtain ⟨t, hrun, hpub, htl, cells', flow', h'⟩ := ih (by omega)
    obtain ⟨u, hrest, hupub, hul, huready⟩ := next_loop_run hbase hcr h' (hlive.run (tango_of_active hrun))
      (by rw [(txSeq_of_loop h' htl).1, hpub]; omega) htl
    have hub : u.begun < 2 ^ 62 := by
      rw [begun_ready huready, hupub, hpub]
      exact hb
    exact ⟨u, hrun.trans hrest, by rw [hupub, hpub, Nat.add_assoc], hul, inv_tangoRun hbase hcr h' (tango_of_active hrest) hub⟩

/-- From anywhere. -/
theorem next_run (hbase : base.Documented) (hcr : ∀ rx ∈ rxs, rx.seqLaddr ≠ none → 1 ≤ rx.crMax.toInt)
    (h : TangoInv rxs args s cells flow) (hlive : Live s.flow.fctl) (hb : s.begun < 2 ^ 62) :
    ∃ t, ActiveRun base args rxs s t ∧ t.published = s.published + 1 := by
  cases ht : s.tx with
  | loop =>
    obtain ⟨t, hrun, hpub, _⟩ := next_loop_run hbase hcr h hlive hb ht
    exact ⟨t, hrun, hpub⟩
  | burst txCnt first =>
    have htx := h.tx
    rw [ht] at htx
    obtain ⟨_, _, _, hbegun, _⟩ := htx
    by_cases hn : s.published < first + txCnt.toNat
    · obtain ⟨t, hrun, hpub, _⟩ := burst_run base args rxs ht hn
      exact ⟨t, hrun, hpub⟩
    · have hle := (published_le_begun s).1
      cases hp : s.producer with
      | body todo =>
        rw [begun_body hp] at hbegun
        omega
      | ready =>
        have hstep : TxStep base args s _ := .sent s txCnt first ht hp (by omega)
        obtain ⟨cells', flow', h'⟩ := inv_step hbase hcr h (Or.inl hstep) hb
        obtain ⟨t, hrun, hpub, _⟩ :=
          next_loop_run hbase hcr h' (hlive.run (Relation.ReflTransGen.single (Or.inl hstep))) hb rfl
        exact ⟨t, Relation.ReflTransGen.head (Or.inl hstep) hrun, hpub⟩

end System

/-- A new system is where a run starts. -/
theorem new_initial (fctl : FdFctl) {pollMax : Ulong} (hp : 0 < pollMax) : (TangoSys.new cfg fctl pollMax).Initial := by
  have hactive : ∀ a, fctl.Active a ↔ (fctl.rx.any fun rx => rx.seqLaddr == some a) = true := by
    intro a
    rw [List.any_eq_true, FdFctl.Active]
    constructor
    · rintro ⟨rx, hrx, ha⟩
      exact ⟨rx, hrx, beq_iff_eq.2 ha⟩
    · rintro ⟨rx, hrx, ha⟩
      exact ⟨rx, hrx, beq_iff_eq.1 ha⟩
  refine ⟨⟨rfl, rfl, fun _ _ => rfl, fun _ _ => rfl⟩, ⟨rfl, rfl, rfl, fun _ => ⟨1, Nat.le_refl 1, ?_, rfl⟩⟩, rfl, rfl, rfl, ?_, ?_⟩
  · exact Nat.one_le_two_pow
  · intro a ha
    exact ⟨if_pos ((hactive a).1 ha), pollMax, hp, if_pos ((hactive a).1 ha)⟩
  · intro a ha
    exact ⟨if_neg fun h => ha ((hactive a).2 h), if_neg fun h => ha ((hactive a).2 h)⟩

/-- A new system publishes any number of fragments. -/
theorem new_publishes_run {base : FdTangoBase} (hbase : base.Documented) (args : Nat → PublishArgs) {fctl : FdFctl}
    (hlive : Live fctl) (pollMax : Ulong) (hp : 0 < pollMax) (n : Nat) (hn : n < 2 ^ 62) :
    ∃ t, ActiveRun base args fctl.rx (TangoSys.new cfg fctl pollMax) t ∧ t.published = n ∧ t.tx = .loop ∧
      ∃ cells flow, TangoInv fctl.rx args t cells flow := by
  obtain ⟨cells, flow, h⟩ : ∃ cells flow, TangoInv fctl.rx args (TangoSys.new cfg fctl pollMax) cells flow :=
    inv_initial (new_initial fctl hp)
  have hnew : (TangoSys.new cfg fctl pollMax).published = 0 := rfl
  obtain ⟨t, hrun, hpub, hl, cells', flow', h'⟩ :=
    publishes_run hbase (fun _ hrx _ => hlive.crMax_pos hrx) h hlive rfl n (by omega)
  rw [hnew, Nat.zero_add] at hpub
  exact ⟨t, hrun, hpub, hl, cells', flow', h'⟩

/-- Two reliable receivers, one of them slower. -/
def twoRx : FdFctl := ⟨0, 8, 16, 12, 10, [⟨16, some 0, 0⟩, ⟨12, some 3, 0⟩], by decide⟩

theorem twoRx_live : Live twoRx := ⟨by decide, by decide, by decide, by decide⟩

end TangoAux

end VerifyFiredancer
