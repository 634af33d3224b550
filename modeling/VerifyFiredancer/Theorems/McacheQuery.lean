import VerifyFiredancer.Lib.Cyclic
import VerifyFiredancer.Lib.LastWrite
import VerifyFiredancer.Lemmas.Mcache

/-!
# What a query of a mcache tells

A producer alone publishes `seq0`, `seq0 + 1` and so on. A line then holds the metadata of the newest publication that came to it
(`LastWrite.Newest`), or is as it was made, and the publications that come to a line are `depth` apart. So a query finds the
number it asks for when that is one of the last `depth` published, one before it when it is still to come, and one after it when
it was overwritten (`mcache_query_exact`). The differences are signed and wrap; nothing depends on where `seq0` is.
-/

namespace VerifyFiredancer

open LastWrite McacheAux

/-- After `n` publications, what a query for the sequence number `q`, the `x`-th, tells. -/
structure McacheQueryExact (cfg : McacheCfg) (query : Ulong → Ulong) (n : Nat) (q : Ulong) (x : Nat) : Prop where
  found : query q = q ↔ n - min n cfg.depth.toNat ≤ x ∧ x < n
  before : n ≤ x → (query q - q).toInt < 0
  after : x < n - min n cfg.depth.toNat → 0 < (query q - q).toInt

namespace McacheQueryAux

variable {fdSeqDec : Ulong → Ulong → Ulong} {cfg : McacheCfg} {args : Nat → PublishArgs} {mcache : Mcache cfg} {n x : Nat}

/-- A publication replaces the line of its sequence number. -/
theorem publishes_succ (n : Nat) :
    mcachePublishes fdSeqDec args mcache (n + 1) =
      Function.update (mcachePublishes fdSeqDec args mcache n) (cfg.line (cfg.seq n)) ((args n).frag (cfg.seq n)) :=
  rfl

/-- A line that publications came to holds the metadata of the newest. -/
theorem publishes_newest {m : Nat} {i : Fin cfg.depth.toNat} (h : Newest (fun n => cfg.line (cfg.seq n)) n i m) :
    mcachePublishes fdSeqDec args mcache n i = (args m).frag (cfg.seq m) :=
  read_newest publishes_succ n h

/-- A line that none came to is as it was made. -/
theorem publishes_unwritten {i : Fin cfg.depth.toNat} (h : Unwritten (fun n => cfg.line (cfg.seq n)) n i) :
    mcachePublishes fdSeqDec args mcache n i = mcache i :=
  read_unwritten publishes_succ n h

/-- A depth later, a publication comes to the same line. -/
theorem line_add_depth (x : Nat) : cfg.line (cfg.seq (x + cfg.depth.toNat)) = cfg.line (cfg.seq x) := by
  rw [line_seq_eq_iff, Nat.add_mod_right]

/-- The newest publication of a line, against any number of the line that is published: it is that number itself exactly when a
depth of numbers did not follow. -/
theorem newest_eq_iff {m : Nat} (h : Newest (fun n => cfg.line (cfg.seq n)) n (cfg.line (cfg.seq x)) m) (hx : x < n) :
    m = x ↔ n ≤ x + cfg.depth.toNat := by
  constructor
  · rintro rfl
    by_contra hlt
    have := h.le_of_key (Nat.lt_of_not_le hlt) (line_add_depth m)
    have hpos : 1 ≤ cfg.depth.toNat := Nat.le_trans (by decide) cfg.block_le
    omega
  · intro hle
    have hxm : x ≤ m := h.le_of_key hx rfl
    have hm := h.lt
    exact Cyclic.eq_of_mod_eq ((line_seq_eq_iff m x).1 h.key_eq) (by omega) (by omega)

/-- The signed difference of the numbers of two publications. -/
theorem seq_sub_seq {m : Nat} (hm : m < 2 ^ 62) (hx : x < 2 ^ 62) : (cfg.seq m - cfg.seq x).toInt = (m : Int) - x := by
  rw [toInt_sub_of_near (cfg.seq m) (cfg.seq x) cfg.seq0, seq_sub_seq0 hm, seq_sub_seq0 hx]
  · rw [seq_sub_seq0 hm, seq_sub_seq0 hx]
    omega
  · rw [seq_sub_seq0 hm, seq_sub_seq0 hx]
    omega

/-- The signed difference of a number from before `seq0` and the number of a publication. -/
theorem blank_sub_seq {w : Ulong} {j : Nat} (hj : 1 ≤ j) (hle : j ≤ 2 ^ 62) (hw : w = cfg.seq0 - BitVec.ofNat 64 j)
    (hx : x < 2 ^ 62) : (w - cfg.seq x).toInt < 0 := by
  obtain ⟨h1, h2⟩ := offset_blank hj hle hw
  rw [toInt_sub_of_near w (cfg.seq x) cfg.seq0, seq_sub_seq0 hx]
  · omega
  · rw [seq_sub_seq0 hx]
    omega
  · rw [seq_sub_seq0 hx]
    omega

/-- Every sequence number is that of a publication. -/
theorem seq_toNat (q : Ulong) : cfg.seq (q - cfg.seq0).toNat = q := by
  rw [McacheCfg.seq, BitVec.ofNat_toNat, BitVec.setWidth_eq, BitVec.add_comm, BitVec.sub_add_cancel]

/-- What the newest publication of the line of the `x`-th number tells about that number. -/
theorem query_newest {m : Nat} (hm : Newest (fun n => cfg.line (cfg.seq n)) n (cfg.line (cfg.seq x)) m) (hn : n < 2 ^ 62)
    (hx : x < 2 ^ 62) {query : Ulong → Ulong} (hval : query (cfg.seq x) = cfg.seq m) :
    McacheQueryExact cfg query n (cfg.seq x) x := by
  have hlt := hm.lt
  have hsub : (cfg.seq m - cfg.seq x).toInt = (m : Int) - x := seq_sub_seq (by omega) hx
  have heq : cfg.seq m = cfg.seq x ↔ m = x := by
    constructor
    · intro e
      rw [e, BitVec.sub_self] at hsub
      have h0 : (0#64).toInt = 0 := rfl
      omega
    · intro e
      rw [e]
  constructor
  case found =>
    rw [hval, heq]
    rcases Nat.lt_or_ge x n with hxn | hxn
    · rw [newest_eq_iff hm hxn]
      omega
    · omega
  case before =>
    intro hxn
    rw [hval, hsub]
    omega
  case after =>
    intro hxn
    have hle : x ≤ m := hm.le_of_key (by omega) rfl
    have hne := newest_eq_iff hm (by omega)
    rw [hval, hsub]
    omega

/-- What a line to which no publication came tells about the `x`-th number: that it is yet to be published. -/
theorem query_unwritten (hun : Unwritten (fun n => cfg.line (cfg.seq n)) n (cfg.line (cfg.seq x))) {query : Ulong → Ulong}
    (hneg : (query (cfg.seq x) - cfg.seq x).toInt < 0) : McacheQueryExact cfg query n (cfg.seq x) x := by
  have hxn : n ≤ x := Nat.le_of_not_lt fun hlt => hun x hlt rfl
  constructor
  case found =>
    refine iff_of_false (fun e => ?_) (by omega)
    rw [e, BitVec.sub_self] at hneg
    revert hneg
    decide
  case before => exact fun _ => hneg
  case after =>
    intro hlt
    omega

end McacheQueryAux

open McacheQueryAux

/-- After any number of publications below `2^62`, a query for any number from `seq0` on, up to `2^62`, tells whether that is in
the mcache, is yet to be published, or was overwritten. -/
theorem mcache_query_exact (fdSeqDec : Ulong → Ulong → Ulong) (fdFragMetaSeqQuery : FdFragMeta → Ulong)
    (hquery : ∀ frag, fdFragMetaSeqQuery frag = frag.seq) (cfg : McacheCfg) (args : Nat → PublishArgs) (mcache : Mcache cfg)
    (hinit : ∀ i, ∃ j, 1 ≤ j ∧ j ≤ 2 ^ 62 ∧ (mcache i).seq = cfg.seq0 - BitVec.ofNat 64 j) (n : Nat) (hn : n < 2 ^ 62)
    (q : Ulong) (hq : (q - cfg.seq0).toNat < 2 ^ 62) :
    McacheQueryExact cfg (fdMcacheQuery fdFragMetaSeqQuery (mcachePublishes fdSeqDec args mcache n)) n q
      (q - cfg.seq0).toNat := by
  obtain ⟨x, hx⟩ : ∃ x, (q - cfg.seq0).toNat = x := ⟨_, rfl⟩
  have hqx : q = cfg.seq x := by rw [← hx, seq_toNat]
  rw [hx] at hq ⊢
  subst hqx
  rcases newest_or_unwritten (fun n => cfg.line (cfg.seq n)) (cfg.line (cfg.seq x)) n with ⟨m, hm⟩ | hun
  · refine query_newest hm hn hq ?_
    rw [fdMcacheQuery, hquery, publishes_newest hm]
    rfl
  · refine query_unwritten hun ?_
    obtain ⟨j, hj, hle, hw⟩ := hinit (cfg.line (cfg.seq x))
    rw [fdMcacheQuery, hquery, publishes_unwritten hun]
    exact blank_sub_seq hj hle hw hq

/-- A mcache of 128 lines whose sequence numbers wrap after the third. -/
def wrapCfg : McacheCfg := ⟨128, 0xfffffffffffffffd, by decide, 7, rfl⟩

/-- The mcache of 128 lines as it is made, with 200 publications and a query for the 104-th number, which is 100. -/
theorem mcache_query_exact_wrap :
    McacheQueryExact wrapCfg
      (fdMcacheQuery FdFragMeta.seq (mcachePublishes (fun a b => a - b) (fun _ => ⟨0, 0, 0, 0, 0, 0⟩)
        ((fun _ => ⟨0xfffffffffffffffc, 0, 0, 0, 0, 0, 0⟩ : Mcache wrapCfg)) 200)) 200 100 (100 - wrapCfg.seq0).toNat :=
  mcache_query_exact (fun a b => a - b) FdFragMeta.seq (fun _ => rfl) wrapCfg (fun _ => ⟨0, 0, 0, 0, 0, 0⟩)
    (fun _ => ⟨0xfffffffffffffffc, 0, 0, 0, 0, 0, 0⟩) (fun _ => ⟨1, Nat.le_refl 1, Nat.one_le_two_pow, rfl⟩) 200
    (by norm_num) 100 (by decide)

end VerifyFiredancer
