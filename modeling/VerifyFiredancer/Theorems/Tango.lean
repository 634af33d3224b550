import VerifyFiredancer.Lemmas.TangoRun

/-!
# What the receivers of a transmitter get

Three results on every run. A reliable receiver whose `cr_max` fits the mcache gets every fragment, in order and with the metadata
that were published, and is never overrun (`tango_reliable`). Any other receiver may miss fragments, but gets none twice, out of
order or torn, and what it misses is in an overrun that it was told of (`tango_unreliable`). And nobody is ever stuck: from every
state the transmitter can be brought to publish the next fragment (`tango_never_stuck`).
-/

namespace VerifyFiredancer

open McacheAux TangoAux

variable {cfg : McacheCfg}

/-- The fragment of an event. -/
def RxEvent.received? : RxEvent → Option (Ulong × FdFragMeta)
  | .received rxSeq frag => some (rxSeq, frag)
  | .joined _ | .overrun _ _ => none

/-- What a receiver has got that joined at the number `start` and is at `x` now. It received the fragments `ns`, in order and with
what was published for them; any other that it passed is one of an overrun in its log, which goes on at least a depth less one
further and not past where the receiver is. -/
structure RxHistory (args : Nat → PublishArgs) (s : TangoSys cfg) (a start x : Nat) (ns : List Nat) : Prop where
  start_le : start ≤ x
  le_published : x ≤ s.published
  rxSeq : s.flow.rxSeq a = cfg.seq x
  joined : (s.log a).head? = some (.joined (cfg.seq start))
  increasing : ns.Pairwise (· < ·)
  range : ∀ n ∈ ns, start ≤ n ∧ n < x
  received : (s.log a).filterMap RxEvent.received? = ns.map (fun n => (cfg.seq n, cfg.frag args n))
  missed : ∀ n, start ≤ n → n < x → n ∉ ns → ∃ y z, .overrun (cfg.seq y) (cfg.seq z) ∈ s.log a ∧ y ≤ n ∧ n < z ∧
    y + cfg.depth.toNat ≤ z + 1 ∧ z ≤ x

/-- The log of a receiver that joined at `seq0` and has received `x` fragments since. -/
def RxEvent.all (cfg : McacheCfg) (args : Nat → PublishArgs) (x : Nat) : List RxEvent :=
  .joined cfg.seq0 :: (List.range x).map fun n => .received (cfg.seq n) (cfg.frag args n)

namespace TangoAux

/-- A log without overruns from `seq0` on. -/
theorem log_eq_all {args : Nat → PublishArgs} {mayLag : Prop} {log : List RxEvent} {x : Nat}
    (h : RxLog cfg args mayLag 0 log x) (hnot : ¬mayLag) : log = RxEvent.all cfg args x := by
  induction h with
  | joined =>
    have hseq0 : cfg.seq 0 = cfg.seq0 := BitVec.add_zero _
    rw [hseq0]
    rfl
  | received log x h ih =>
    rw [ih, RxEvent.all, RxEvent.all, List.range_succ, List.map_append]
    rfl
  | overrun log x y h hlag hskip ih => exact absurd hlag hnot

/-- A log starts with the join. -/
theorem log_head {args : Nat → PublishArgs} {mayLag : Prop} {start : Nat} {log : List RxEvent} {x : Nat}
    (h : RxLog cfg args mayLag start log x) : log.head? = some (.joined (cfg.seq start)) := by
  induction h with
  | joined => rfl
  | received log x h ih => rw [List.head?_append, ih]; rfl
  | overrun log x y h hlag hskip ih => rw [List.head?_append, ih]; rfl

/-- The numbers of the fragments in a log. -/
theorem log_numbers {args : Nat → PublishArgs} {mayLag : Prop} {start : Nat} {log : List RxEvent} {x : Nat}
    (h : RxLog cfg args mayLag start log x) :
    ∃ ns : List Nat, start ≤ x ∧ ns.Pairwise (· < ·) ∧ (∀ n ∈ ns, start ≤ n ∧ n < x) ∧
      log.filterMap RxEvent.received? = ns.map (fun n => (cfg.seq n, cfg.frag args n)) ∧
      ∀ n, start ≤ n → n < x → n ∉ ns → ∃ y z, .overrun (cfg.seq y) (cfg.seq z) ∈ log ∧ y ≤ n ∧ n < z ∧
        y + cfg.depth.toNat ≤ z + 1 ∧ z ≤ x := by
  induction h with
  | joined =>
    refine ⟨[], Nat.le_refl _, List.Pairwise.nil, fun n hn => absurd hn List.not_mem_nil, rfl, ?_⟩
    intro n hle hlt
    exact absurd hlt (Nat.not_lt.2 hle)
  | received log x h ih =>
    obtain ⟨ns, hle, hsort, hrange, hmap, hmiss⟩ := ih
    refine ⟨ns ++ [x], Nat.le_succ_of_le hle, ?_, ?_, ?_, ?_⟩
    · refine List.pairwise_append.2 ⟨hsort, List.pairwise_singleton _ _, ?_⟩
      intro n hn m hm
      rw [List.mem_singleton.1 hm]
      exact (hrange n hn).2
    · intro n hn
      rcases List.mem_append.1 hn with hn | hn
      · exact ⟨(hrange n hn).1, Nat.lt_succ_of_lt (hrange n hn).2⟩
      · rw [List.mem_singleton.1 hn]
        exact ⟨hle, Nat.lt_succ_self x⟩
    · rw [List.filterMap_append, hmap, List.map_append]
      rfl
    · intro n hlow hlt hnot
      rw [List.mem_append, List.mem_singleton, not_or] at hnot
      obtain ⟨y, z, hmem, hy, hz, hskip, hzx⟩ := hmiss n hlow (by omega) hnot.1
      exact ⟨y, z, List.mem_append_left _ hmem, hy, hz, hskip, Nat.le_succ_of_le hzx⟩
  | overrun log x y h hlag hskip ih =>
    obtain ⟨ns, hle, hsort, hrange, hmap, hmiss⟩ := ih
    have hdepth : 128 ≤ cfg.depth.toNat := cfg.block_le
    refine ⟨ns, by omega, hsort, ?_, ?_, ?_⟩
    · intro n hn
      obtain ⟨h1, h2⟩ := hrange n hn
      omega
    · rw [List.filterMap_append, hmap]
      exact List.append_nil _
    · intro n hlow hlt hnot
      by_cases hnx : n < x
      · obtain ⟨y', z, hmem, hy, hz, hskip', hzx⟩ := hmiss n hlow hnx hnot
        exact ⟨y', z, List.mem_append_left _ hmem, hy, hz, hskip', by omega⟩
      · exact ⟨x, y, List.mem_append_right _ List.mem_cons_self, Nat.le_of_not_lt hnx, hlt, hskip, Nat.le_refl y⟩

end TangoAux

/-- In every state of every run, with less than `2^62` publications begun, a reliable receiver whose `cr_max` is at most the depth
has received every fragment from `seq0` on up to where it is, one after the other, with what was published for it, and was never
overrun. It is at most `cr_max` behind what the transmitter has begun. -/
theorem tango_reliable (base : FdTangoBase) (hbase : base.Documented) (args : Nat → PublishArgs) (s0 s : TangoSys cfg)
    (h0 : s0.Initial) (hcr : ∀ rx ∈ s0.flow.fctl.rx, rx.seqLaddr ≠ none → 1 ≤ rx.crMax.toInt)
    (hrun : TangoRun base args s0 s) (hb : s.begun < 2 ^ 62) (rx : FdFctlPrivateRx) (hrx : rx ∈ s0.flow.fctl.rx) (a : Nat)
    (ha : rx.seqLaddr = some a) (hdepth : rx.crMax.toInt ≤ cfg.depth.toNat) :
    ∃ x ≤ s.published, (s.begun : Int) ≤ x + rx.crMax.toInt ∧ s.flow.rxSeq a = cfg.seq x ∧ s.log a = RxEvent.all cfg args x := by
  obtain ⟨cells, flow, h⟩ := inv_run hbase h0 hcr hrun hb
  have hact : ActiveRx s0.flow.fctl.rx a := ⟨rx, hrx, ha⟩
  obtain ⟨start, x, hstart, hx, hpos, hlog, _⟩ := (h.rx a).resolve_left fun hoff => hoff.2.2 hact
  rw [hstart hact] at hlog
  have hbegun := begun_le_of_active h hb hrx ha hx hpos
  have hpos' := hcr rx hrx (by rw [ha]; exact Option.some_ne_none a)
  exact ⟨x, hx, by omega, hpos, log_eq_all hlog fun hnot => hnot ⟨rx, hrx, ha, hdepth⟩⟩

/-- A hundred and thirty fragments, which is more than a depth, are published, and the receiver with address 0 has got to them
all. -/
theorem tango_reliable_lap :
    ∃ s : TangoSys blockCfg, TangoRun FdTangoBase.words countingArgs (TangoSys.new blockCfg twoRx 5) s ∧ s.published = 130 ∧
      s.flow.rxSeq 0 = blockCfg.seq 130 ∧ s.log 0 = RxEvent.all blockCfg countingArgs 130 := by
  have hbase := FdTangoBase.words_documented
  have h0 : (TangoSys.new blockCfg twoRx 5).Initial := new_initial twoRx (by decide)
  have hcr : ∀ rx ∈ twoRx.rx, rx.seqLaddr ≠ none → 1 ≤ rx.crMax.toInt := fun rx hrx _ => twoRx_live.crMax_pos hrx
  obtain ⟨t, hrun, hpub, hl, cells, flow, h⟩ : ∃ t : TangoSys blockCfg, _ :=
    new_publishes_run hbase countingArgs twoRx_live 5 (by decide) 130 (by decide)
  have hb : t.begun < 2 ^ 62 := by
    rw [(txSeq_of_loop h hl).1, hpub]
    decide
  have hjoined := (h.rx 0).resolve_left fun hoff => hoff.2.2 ⟨_, List.mem_cons_self, rfl⟩
  obtain ⟨u, q, hrest, _, hupos⟩ := joined_run hbase hcr h hb hjoined
  obtain ⟨hsame, _, _⟩ := inv_rxRun hbase hcr h hb hrest
  have hupub := (onlyRx_run hrest).published.trans hpub
  have hall := (tango_of_active hrun).trans (tango_of_rx hrest)
  obtain ⟨x, hx, _, hpos, hlog⟩ := tango_reliable FdTangoBase.words hbase countingArgs _ u h0 hcr hall (hsame ▸ hb) _
    List.mem_cons_self 0 rfl (by decide)
  rw [hpub] at hupos
  obtain rfl : x = 130 := by
    rw [hupub] at hx
    exact (eq_of_seq (hupos.symm.trans hpos) hx (by omega)).symm
  exact ⟨u, hall, hupub, hupos, hlog⟩

/-- In every state of every run, with less than `2^62` publications begun, a receiver that has joined received fragments of
strictly increasing numbers, each with what was published for it. A fragment it passed and did not receive is one of an overrun
in its log, which is of at least a depth less one. -/
theorem tango_unreliable (base : FdTangoBase) (hbase : base.Documented) (args : Nat → PublishArgs) (s0 s : TangoSys cfg)
    (h0 : s0.Initial) (hcr : ∀ rx ∈ s0.flow.fctl.rx, rx.seqLaddr ≠ none → 1 ≤ rx.crMax.toInt)
    (hrun : TangoRun base args s0 s) (hb : s.begun < 2 ^ 62) (a : Nat) (hjoined : s.rx a ≠ .off) :
    ∃ start x ns, RxHistory args s a start x ns := by
  obtain ⟨cells, flow, h⟩ := inv_run hbase h0 hcr hrun hb
  obtain ⟨start, x, _, hx, hpos, hlog, _⟩ := joined_of_ne_off h hjoined
  obtain ⟨ns, hle, hsort, hrange, hmap, hmiss⟩ := log_numbers hlog
  exact ⟨start, x, ns, hle, hx, hpos, log_head hlog, hsort, hrange, hmap, hmiss⟩

/-- The receiver 7 joins a new system and does not go on until 129 fragments are published: it takes an overrun of a depth, and
passes 128 fragments that it does not receive. -/
theorem tango_unreliable_lap :
    ∃ s : TangoSys blockCfg, TangoRun FdTangoBase.words countingArgs (TangoSys.new blockCfg twoRx 5) s ∧
      s.log 7 = [.joined (blockCfg.seq 0), .overrun (blockCfg.seq 0) (blockCfg.seq 128)] ∧
      RxHistory countingArgs s 7 0 128 [] := by
  have hbase := FdTangoBase.words_documented
  have h0 : (TangoSys.new blockCfg twoRx 5).Initial := new_initial twoRx (by decide)
  have hcr : ∀ rx ∈ twoRx.rx, rx.seqLaddr ≠ none → 1 ≤ rx.crMax.toInt := fun rx hrx _ => twoRx_live.crMax_pos hrx
  have hseven : ¬ActiveRx twoRx.rx 7 := by
    rintro ⟨rx, hrx, ha⟩
    rcases List.mem_cons.1 hrx with rfl | hrx
    · cases ha
    · obtain rfl := List.mem_singleton.1 hrx
      cases ha
  -- it joins
  obtain ⟨cells, flow, hnew⟩ : ∃ cells flow, TangoInv twoRx.rx countingArgs (TangoSys.new blockCfg twoRx 5) cells flow :=
    inv_initial h0
  have hjoin : RxStep FdTangoBase.words 7 (TangoSys.new blockCfg twoRx 5) _ := .join _ 3 rfl (by decide)
  obtain ⟨flow1, h1⟩ := inv_rx hbase hcr hnew (by decide) hjoin
  -- the others go on
  obtain ⟨t, hrun, hpub, hl, cells', flow', h⟩ := publishes_run hbase hcr h1 twoRx_live rfl 129 (by decide)
  have hpub : t.published = 129 := hpub
  have hbegun := (txSeq_of_loop h hl).1.trans hpub
  obtain ⟨hrx, hlog, hpos⟩ := others_run hrun hseven
  rw [advance_rx] at hrx
  have hpos : t.flow.rxSeq 7 = blockCfg.seq 0 := hpos.trans (by decide)
  have hlog : t.log 7 = [.joined (blockCfg.seq 0)] := hlog.trans (by decide)
  -- the overrun
  have hline : (t.mcache (blockCfg.line (blockCfg.seq 0))).seq = blockCfg.seq 128 := by
    have hsame : blockCfg.line (blockCfg.seq 0) = blockCfg.line (blockCfg.seq 128) := by decide
    rw [hsame]
    exact line_of_recent h (by omega) (by rw [hbegun]; decide)
  obtain ⟨q, hover⟩ := overrun_run hbase.diff h (by rw [hbegun]; decide) hrx hpos (by omega) hline (by decide) (by omega)
  have hall : TangoRun FdTangoBase.words countingArgs (TangoSys.new blockCfg twoRx 5) _ :=
    ((tango_of_rx (Relation.ReflTransGen.single hjoin)).trans (tango_of_active hrun)).trans (tango_of_rx hover)
  obtain ⟨u, hu⟩ : ∃ u, u = t.advance 7 (blockCfg.seq 128) q (.overrun (blockCfg.seq 0) (blockCfg.seq 128)) := ⟨_, rfl⟩
  rw [← hu] at hall
  have hulog : u.log 7 = [.joined (blockCfg.seq 0), .overrun (blockCfg.seq 0) (blockCfg.seq 128)] := by
    rw [hu, advance_log, hlog]
    rfl
  have hupub : u.published = 129 := by
    rw [hu]
    exact hpub
  have hupos : u.flow.rxSeq 7 = blockCfg.seq 128 := by rw [hu, advance_rxSeq]
  have huoff : u.rx 7 ≠ .off := by
    rw [hu, advance_rx]
    nofun
  obtain ⟨start, x, ns, hhist⟩ := tango_unreliable FdTangoBase.words hbase countingArgs _ u h0 hcr hall
    (by rw [hu]; exact Nat.lt_of_le_of_lt (Nat.le_of_eq hbegun) (by decide)) 7 huoff
  have hx := hhist.le_published
  have hstart := hhist.start_le
  have hjoined := hhist.joined
  have hreceived := hhist.received
  rw [hulog] at hjoined hreceived
  obtain rfl : start = 0 :=
    eq_of_seq (RxEvent.joined.inj (Option.some.inj hjoined)).symm (Nat.zero_le start) (by omega)
  obtain rfl : ns = [] := List.map_eq_nil_iff.1 hreceived.symm
  obtain rfl : x = 128 := by
    have hseq := hhist.rxSeq.symm.trans hupos
    by_cases hle : 128 ≤ x
    · exact eq_of_seq hseq hle (by omega)
    · exact (eq_of_seq hseq.symm (by omega) (by omega)).symm
  exact ⟨u, hall, hulog, hhist⟩

/-- From every state of every run, with less than `2^62` publications begun, there is a way on to the publication of the next
fragment, when the transmitter asks for credits before they are too few for a burst, and every receiver can grant what it resumes
at. -/
theorem tango_never_stuck (base : FdTangoBase) (hbase : base.Documented) (args : Nat → PublishArgs) (s0 s : TangoSys cfg)
    (h0 : s0.Initial) (hlive : Live s0.flow.fctl) (hrun : TangoRun base args s0 s) (hb : s.begun < 2 ^ 62) :
    ∃ t, TangoRun base args s t ∧ t.published = s.published + 1 := by
  have hcr : ∀ rx ∈ s0.flow.fctl.rx, rx.seqLaddr ≠ none → 1 ≤ rx.crMax.toInt := fun rx hrx _ => hlive.crMax_pos hrx
  obtain ⟨cells, flow, h⟩ := inv_run hbase h0 hcr hrun hb
  obtain ⟨t, hnext, hpub⟩ := next_run hbase hcr h (hlive.run hrun) hb
  exact ⟨t, tango_of_active hnext, hpub⟩

/-- With two reliable receivers, one of them slower, a run to a hundred fragments has a way on to the next one. -/
theorem tango_never_stuck_two :
    ∃ s t : TangoSys blockCfg, TangoRun FdTangoBase.words countingArgs (TangoSys.new blockCfg twoRx 5) s ∧ s.published = 100 ∧
      TangoRun FdTangoBase.words countingArgs s t ∧ t.published = 101 := by
  have h0 : (TangoSys.new blockCfg twoRx 5).Initial := new_initial twoRx (by decide)
  obtain ⟨s, hrun, hpub, hl, cells, flow, h⟩ : ∃ s : TangoSys blockCfg, _ :=
    new_publishes_run FdTangoBase.words_documented countingArgs twoRx_live 5 (by decide) 100 (by decide)
  obtain ⟨t, hnext, htpub⟩ := tango_never_stuck FdTangoBase.words FdTangoBase.words_documented countingArgs _ s h0 twoRx_live
    (tango_of_active hrun) (by rw [(txSeq_of_loop h hl).1, hpub]; decide)
  exact ⟨s, t, tango_of_active hrun, hpub, hnext, by rw [htpub, hpub]⟩

end VerifyFiredancer
