import VerifyFiredancer.Theorems.McacheWait

/-!
# Positions of a mcache

A sequence number is seen by its distance from `seq0`, which does not wrap as long as less than `2^62` publications are begun. The
sequence numbers of a line only go up, and two that are not before one another on a line are a depth apart (`came_later`). So a
wait that comes back in time has what it waited for, or what it found is at least a depth less one later, as the marker of a
publication is one before it (`done_position`).
-/

namespace VerifyFiredancer

open McacheAux Seqlock

variable {cfg : McacheCfg}

/-- How far from `seq0` a sequence number is. -/
def McacheCfg.off (cfg : McacheCfg) (seq : Ulong) : Int := (seq - cfg.seq0).toInt

namespace McacheAux

/-- The numbers of one line are a depth apart. -/
theorem depth_le_of_line {n x : Nat} (h : cfg.line (cfg.seq n) = cfg.line (cfg.seq x)) (hlt : x < n) :
    x + cfg.depth.toNat ≤ n := by
  have hdvd := (Nat.modEq_iff_dvd' (Nat.le_of_lt hlt)).1 ((line_seq_eq_iff n x).1 h).symm
  have hle := Nat.le_of_dvd (by omega) hdvd
  omega

/-- A sequence number that the line of `x` came to and that is not before `x` is `x`, or it is at least a depth less one
later. -/
theorem came_later {begun x : Nat} {p : Phase} {seq : Ulong} (h : Came cfg (cfg.line (cfg.seq x)) begun p seq)
    (hle : (x : Int) ≤ cfg.off seq) :
    (p = .written x ∧ seq = cfg.seq x ∧ x < begun) ∨
      ∃ y, seq = cfg.seq y ∧ x + cfg.depth.toNat ≤ y + 1 ∧ y < begun ∧ x + cfg.depth.toNat < begun := by
  have hoff := h.offset
  cases p with
  | blank =>
    obtain ⟨_, hneg⟩ := hoff
    exact absurd (Int.lt_of_le_of_lt hle hneg) (by omega)
  | writing n =>
    obtain ⟨hn, hline⟩ := h.version n rfl
    have hoff : cfg.off seq = n - 1 := hoff
    have hdepth := depth_le_of_line hline (by omega)
    obtain ⟨y, rfl⟩ : ∃ y, n = y + 1 := ⟨n - 1, by omega⟩
    exact Or.inr ⟨y, eq_seq (hoff.trans (by omega)), hdepth, Nat.lt_of_succ_lt hn, Nat.lt_of_le_of_lt hdepth hn⟩
  | written n =>
    obtain ⟨hn, hline⟩ := h.version n rfl
    have hoff : cfg.off seq = n := hoff
    by_cases hnx : n = x
    · subst hnx
      exact Or.inl ⟨rfl, eq_seq hoff, hn⟩
    · have hdepth := depth_le_of_line hline (by omega)
      exact Or.inr ⟨n, eq_seq hoff, Nat.le_succ_of_le hdepth, hn, Nat.lt_of_le_of_lt hdepth hn⟩

/-- The sequence number of a line never goes back. -/
theorem seq_le_of_publish {fdSeqDec : Ulong → Ulong → Ulong} (hdec : ∀ a n, fdSeqDec a n = a - n)
    {args : Nat → PublishArgs} {s t : McacheSys cfg} {cells : Fin cfg.depth.toNat → Cell FragField Nat}
    (h : McacheSim args s cells) (hs : PublishStep fdSeqDec args s t) (hb : t.begun < 2 ^ 62) (i : Fin cfg.depth.toNat) :
    cfg.off (s.mcache i).seq ≤ cfg.off (t.mcache i).seq := by
  have hupdate : ∀ (j : Fin cfg.depth.toNat) (line : FdFragMeta), cfg.off (s.mcache j).seq ≤ cfg.off line.seq →
      cfg.off (s.mcache i).seq ≤ cfg.off (Function.update s.mcache j line i).seq := by
    intro j line hle
    by_cases hj : i = j
    · subst hj
      rw [Function.update_self]
      exact hle
    · rw [Function.update_of_ne hj]
  cases hs with
  | mark hp =>
    have hlt : s.published < 2 ^ 62 := Nat.lt_of_succ_lt hb
    refine hupdate _ _ ?_
    have hoff : cfg.off (fdSeqDec (cfg.seq s.published) 1) = (s.published : Int) - 1 := by
      rw [hdec]
      exact seq_dec_sub_seq0 hlt
    have hbegun : s.begun = s.published := by rw [McacheSys.begun, hp]
    have hcame := h.came (cfg.line (cfg.seq s.published))
    have hold := hcame.offset
    rw [hoff]
    cases hphase : (cells (cfg.line (cfg.seq s.published))).phase with
    | blank =>
      rw [hphase] at hold
      obtain ⟨_, hneg⟩ := hold
      rw [McacheCfg.off]
      omega
    | writing n =>
      rw [hphase] at hold
      have hn := (hcame.version n (by rw [hphase]; rfl)).1
      have hold : cfg.off _ = (n : Int) - 1 := hold
      omega
    | written n =>
      rw [hphase] at hold
      have hn := (hcame.version n (by rw [hphase]; rfl)).1
      have hold : cfg.off _ = (n : Int) := hold
      omega
  | store todo f hp hf =>
    refine hupdate _ _ (Int.le_of_eq (congrArg cfg.off ?_))
    have hsub := (h.producer todo hp).1
    exact (BitVec.eq_of_toNat_eq (get_store_of_ne _ _ (ne_seq_of_mem_body (hsub hf)).symm)).symm
  | stamp hp =>
    obtain ⟨_, hphase, _⟩ := h.producer [] hp
    refine hupdate _ _ ?_
    have hold := (h.came (cfg.line (cfg.seq s.published))).offset
    rw [hphase] at hold
    have hold : cfg.off _ = (s.published : Int) - 1 := hold
    have hnew : cfg.off (cfg.seq s.published) = (s.published : Int) := seq_sub_seq0 (Nat.lt_of_succ_lt hb)
    rw [hold, hnew]
    omega

/-- A sequence number that a line came to is near `seq0`. -/
theorem off_bounds {begun : Nat} {i : Fin cfg.depth.toNat} {p : Phase} {seq : Ulong} (h : Came cfg i begun p seq)
    (hb : begun < 2 ^ 62) : -2 ^ 62 ≤ cfg.off seq ∧ cfg.off seq < 2 ^ 62 := by
  have hoff := h.offset
  cases p with
  | blank =>
    obtain ⟨hlow, hneg⟩ := hoff
    exact ⟨hlow, Int.lt_trans hneg (by omega)⟩
  | writing n =>
    have hn := (h.version n rfl).1
    have hoff : cfg.off seq = n - 1 := hoff
    omega
  | written n =>
    have hn := (h.version n rfl).1
    have hoff : cfg.off seq = n := hoff
    omega

/-- Positions are told apart by their sequence numbers. -/
theorem eq_of_seq {n m : Nat} (h : cfg.seq n = cfg.seq m) (hle : m ≤ n) (hlt : n < m + 2 ^ 64) : n = m := by
  have hsub := congrArg BitVec.toNat ((BitVec.add_right_inj cfg.seq0).1 h)
  rw [BitVec.toNat_ofNat, BitVec.toNat_ofNat] at hsub
  omega

/-- The position after another. -/
theorem seq_add (n m : Nat) : cfg.seq n + BitVec.ofNat 64 m = cfg.seq (n + m) := by
  rw [McacheCfg.seq, McacheCfg.seq, BitVec.ofNat_add, BitVec.add_assoc]

/-- What a wait for `x` comes back with in time. -/
theorem done_position {args : Nat → PublishArgs} {begun x : Nat} {cells : Fin cfg.depth.toNat → Cell FragField Nat}
    {pollMax seqFound : Ulong} {frag : FdFragMeta} {seqDiff : Long}
    (h : WaitInv args begun cells (.done (cfg.seq x) pollMax frag seqFound seqDiff)) (hpoll : pollMax ≠ 0) (hb : begun < 2 ^ 62)
    (hx : x < 2 ^ 62) :
    (seqDiff = 0 ∧ seqFound = cfg.seq x ∧ frag = cfg.frag args x) ∨
      (0 < seqDiff.toInt ∧
        ∃ y, seqFound = cfg.seq y ∧ x + cfg.depth.toNat ≤ y + 1 ∧ y < begun ∧ x + cfg.depth.toNat < begun) := by
  obtain ⟨rfl, hret⟩ := h
  obtain ⟨hnonneg, p, hcame, hfrag⟩ := hret hpoll
  have hoffx : cfg.off (cfg.seq x) = x := seq_sub_seq0 hx
  have hbounds := off_bounds hcame hb
  have hnear := toInt_sub_of_near seqFound (cfg.seq x) cfg.seq0
  rw [McacheCfg.off] at hbounds hoffx
  rw [hoffx] at hnear
  have hdiff := hnear (by omega) (by omega)
  have hle : (x : Int) ≤ cfg.off seqFound := by
    rw [McacheCfg.off]
    omega
  rcases came_later hcame hle with ⟨rfl, rfl, _⟩ | ⟨y, rfl, hskip, hy, hlag⟩
  · exact Or.inl ⟨BitVec.sub_self _, rfl, hfrag x rfl⟩
  · refine Or.inr ⟨?_, y, rfl, hskip, hy, hlag⟩
    have hdepth : 128 ≤ cfg.depth.toNat := cfg.block_le
    rw [hdiff]
    have hoffy : (cfg.seq y - cfg.seq0).toInt = y := seq_sub_seq0 (Nat.lt_trans hy hb)
    omega

/-! ## Steps of a publication -/

section Publish

variable {args : Nat → PublishArgs}

/-- What a step of a publication does to the counts: the mark begins it. -/
theorem publish_begun {fdSeqDec : Ulong → Ulong → Ulong} {r r' : McacheSys cfg} (hs : PublishStep fdSeqDec args r r') :
    r.published ≤ r'.published ∧ (r'.begun = r.begun ∨ (r'.begun = r.begun + 1 ∧ r.begun = r.published)) := by
  cases hs with
  | mark hp =>
    refine ⟨Nat.le_refl _, Or.inr ?_⟩
    rw [McacheSys.begun, McacheSys.begun, hp]
    exact ⟨rfl, rfl⟩
  | store todo f hp hf =>
    refine ⟨Nat.le_refl _, Or.inl ?_⟩
    rw [McacheSys.begun, McacheSys.begun, hp]
  | stamp hp =>
    refine ⟨Nat.le_succ _, Or.inl ?_⟩
    rw [McacheSys.begun, McacheSys.begun, hp]

/-- What is begun stays begun. -/
theorem begun_le_of_publish {fdSeqDec : Ulong → Ulong → Ulong} {r r' : McacheSys cfg} (hs : PublishStep fdSeqDec args r r') :
    r.begun ≤ r'.begun := by
  rcases (publish_begun hs).2 with hkeep | ⟨hmark, _⟩
  · exact Nat.le_of_eq hkeep.symm
  · exact Nat.le_trans (Nat.le_succ _) (Nat.le_of_eq hmark.symm)

/-- A publication that is done has its sequence number on its line. -/
theorem publish_stored {fdSeqDec : Ulong → Ulong → Ulong} {r r' : McacheSys cfg} (hs : PublishStep fdSeqDec args r r')
    (hlt : r.published < r'.published) :
    r'.published = r.published + 1 ∧ (r'.mcache (cfg.line (cfg.seq r.published))).seq = cfg.seq r.published := by
  cases hs with
  | mark hp => exact absurd hlt (Nat.lt_irrefl _)
  | store todo f hp hf => exact absurd hlt (Nat.lt_irrefl _)
  | stamp hp =>
    dsimp only
    rw [Function.update_self]
    exact ⟨rfl, rfl⟩

end Publish

/-! ## An example -/

/-- A block is a depth. -/
theorem block_pow2 : ∃ k, fdMcacheBlock.toNat = 2 ^ k := ⟨7, rfl⟩

/-- A mcache of one block, whose sequence numbers wrap after the first one, and fragments that are all different. -/
def blockCfg : McacheCfg := ⟨fdMcacheBlock, ulongMax, BitVec.le_refl fdMcacheBlock, block_pow2⟩

def countingArgs (n : Nat) : PublishArgs := ⟨BitVec.ofNat 64 n, 2, 3, 4, 5, 6⟩

/-- A new mcache. -/
def newMcacheSys (cfg : McacheCfg) : McacheSys cfg := ⟨fun _ => ⟨cfg.seq0 - 1, 0, 0, 0, 7, 0, 0⟩, 0, .ready, .idle⟩

theorem newMcacheSys_initial (cfg : McacheCfg) : (newMcacheSys cfg).Initial :=
  ⟨rfl, rfl, rfl, fun _ => ⟨1, Nat.le_refl 1, Nat.one_le_two_pow, rfl⟩⟩

end McacheAux

end VerifyFiredancer
