import VerifyFiredancer.Mcache
import VerifyFiredancer.Lib.Seqlock
import Mathlib.Data.Nat.ModEq

/-!
# Lines and stamps of a mcache

A line goes through the phases of a stamped cell (`Seqlock`), with the numbers of the publications as versions. Its `seq` tells
the phase: seen from `seq0` it is negative as long as nothing was published there, `n - 1` while publication `n` is stored and
`n` after it (`Offset`). The sequence number of a written phase is one of no other phase of the line, because the marker
`n - 1` belongs to the line before (`Came.eq_written`).
-/

namespace VerifyFiredancer

open Seqlock

namespace McacheAux

/-! ## Fields -/

/-- Metadata are their fields. -/
theorem get_ext {a b : FdFragMeta} (h : ∀ f, a.get f = b.get f) : a = b := by
  obtain ⟨_, _, _, _, _, _, _⟩ := a
  obtain ⟨_, _, _, _, _, _, _⟩ := b
  simp only [FdFragMeta.mk.injEq]
  refine ⟨?_, ?_, ?_, ?_, ?_, ?_, ?_⟩
  · exact BitVec.eq_of_toNat_eq (h .seq)
  · exact BitVec.eq_of_toNat_eq (h .sig)
  · exact BitVec.eq_of_toNat_eq (h .chunk)
  · exact BitVec.eq_of_toNat_eq (h .sz)
  · exact BitVec.eq_of_toNat_eq (h .ctl)
  · exact BitVec.eq_of_toNat_eq (h .tsorig)
  · exact BitVec.eq_of_toNat_eq (h .tspub)

/-- A store of a field is read back. -/
@[simp]
theorem get_store_self (dst src : FdFragMeta) (f : FragField) : (dst.store f src).get f = src.get f := by
  cases f <;> rfl

/-- It leaves the other fields. -/
@[simp]
theorem get_store_of_ne (dst src : FdFragMeta) {f g : FragField} (h : g ≠ f) : (dst.store f src).get g = dst.get g := by
  cases f <;> cases g <;> first | rfl | exact absurd rfl h

/-- A body field is not `seq`. -/
theorem ne_seq_of_mem_body {f : FragField} (h : f ∈ FragField.body) : f ≠ .seq := by
  rintro rfl
  revert h
  decide

/-- Every field but `seq` is one of the body. -/
theorem mem_body_of_ne {f : FragField} (h : f ≠ .seq) : f ∈ FragField.body := by
  cases f with
  | seq => exact absurd rfl h
  | _ => decide

/-- A copy of all fields has every field. -/
theorem mem_all (f : FragField) : f ∈ FragField.all := by
  by_cases h : f = .seq
  · rw [h]
    exact List.mem_cons_self
  · exact List.mem_cons_of_mem _ (mem_body_of_ne h)

/-- A store of `seq` leaves the body fields. -/
theorem get_with_seq (frag : FdFragMeta) (seq : Ulong) {f : FragField} (h : f ∈ FragField.body) :
    ({ frag with seq := seq } : FdFragMeta).get f = frag.get f := by
  cases f with
  | seq => exact absurd rfl (ne_seq_of_mem_body h)
  | _ => rfl

/-! ## Lines -/

variable {cfg : McacheCfg}

/-- Sequence numbers have one line when they agree modulo the depth. -/
theorem line_eq_iff {a b : Ulong} : cfg.line a = cfg.line b ↔ a % cfg.depth = b % cfg.depth := by
  rw [Fin.ext_iff, ← BitVec.toNat_inj, BitVec.toNat_umod, BitVec.toNat_umod, ← lineIdx_toNat, ← lineIdx_toNat]
  exact Iff.rfl

/-- Two publications have one line when their numbers agree modulo the depth. -/
theorem line_seq_eq_iff (n m : Nat) :
    cfg.line (cfg.seq n) = cfg.line (cfg.seq m) ↔ n % cfg.depth.toNat = m % cfg.depth.toNat := by
  have hdvd : cfg.depth.toNat ∣ 2 ^ 64 := by
    obtain ⟨k, hk⟩ := cfg.pow2
    have hlt : 2 ^ k < 2 ^ 64 := hk ▸ cfg.depth.isLt
    rw [hk]
    exact Nat.pow_dvd_pow 2 (Nat.le_of_lt ((Nat.pow_lt_pow_iff_right (by decide)).1 hlt))
  have hidx : ∀ n, (cfg.line (cfg.seq n)).val = (cfg.seq0.toNat + n) % cfg.depth.toNat := by
    intro n
    refine (lineIdx_toNat cfg (cfg.seq n)).trans ?_
    rw [McacheCfg.seq, BitVec.toNat_add, BitVec.toNat_ofNat, Nat.add_mod_mod, Nat.mod_mod_of_dvd _ hdvd]
  rw [Fin.ext_iff, hidx, hidx]
  exact ⟨fun h => Nat.ModEq.add_left_cancel' cfg.seq0.toNat h, fun h => Nat.ModEq.add_left cfg.seq0.toNat h⟩

/-- Neighbours have different lines. -/
theorem line_seq_succ_ne (n : Nat) : cfg.line (cfg.seq n) ≠ cfg.line (cfg.seq (n + 1)) := by
  intro h
  have hdvd := (Nat.modEq_iff_dvd' (Nat.le_succ n)).1 ((line_seq_eq_iff n (n + 1)).1 h)
  have hle : cfg.depth.toNat ≤ n + 1 - n := Nat.le_of_dvd (by omega) hdvd
  have hblock : 2 ≤ cfg.depth.toNat := Nat.le_trans (by decide) cfg.block_le
  omega

/-! ## Stamps -/

/-- The difference of two words that are near a third. -/
theorem toInt_sub_of_near (w e s : Ulong) (h1 : -2 ^ 63 ≤ (w - s).toInt - (e - s).toInt)
    (h2 : (w - s).toInt - (e - s).toInt < 2 ^ 63) : (w - e).toInt = (w - s).toInt - (e - s).toInt := by
  have hsub : w - e = w - s - (e - s) := by bv_omega
  rw [hsub, BitVec.toInt_sub]
  exact Int.bmod_eq_of_le (by omega) (by omega)

/-- How far from `seq0` the sequence number of a line is. -/
def Offset : Phase → Int → Prop
  | .blank, d => -2 ^ 62 ≤ d ∧ d < 0
  | .writing n, d => d = n - 1
  | .written n, d => d = n

/-- The publication a sequence number is about. -/
theorem seq_sub_seq0 {n : Nat} (h : n < 2 ^ 62) : (cfg.seq n - cfg.seq0).toInt = n := by
  rw [McacheCfg.seq, BitVec.add_comm, BitVec.add_sub_cancel, BitVec.toInt_ofNat']
  exact Int.bmod_eq_of_le (by omega) (by omega)

/-- A sequence number that is `n` from `seq0` on is the `n`-th. -/
theorem eq_seq {w : Ulong} {n : Nat} (h : (w - cfg.seq0).toInt = n) : w = cfg.seq n := by
  have hsub : w - cfg.seq0 = BitVec.ofNat 64 n := by
    rw [← BitVec.ofInt_natCast, ← h, BitVec.ofInt_toInt]
  rw [McacheCfg.seq, ← hsub, BitVec.add_comm, BitVec.sub_add_cancel]

/-- The marker of a publication. -/
theorem seq_dec_sub_seq0 {n : Nat} (h : n < 2 ^ 62) : (cfg.seq n - 1 - cfg.seq0).toInt = (n : Int) - 1 := by
  have hsub : cfg.seq n - 1 - cfg.seq0 = cfg.seq n - cfg.seq0 - 1 := by bv_omega
  have hone : (1 : Ulong).toInt = 1 := rfl
  rw [hsub, BitVec.toInt_sub, seq_sub_seq0 h, hone]
  exact Int.bmod_eq_of_le (by omega) (by omega)

/-- A sequence number that is `n - 1` from `seq0` on is the marker of the `n`-th. -/
theorem eq_seq_dec {w : Ulong} {n : Nat} (hn : n < 2 ^ 62) (h : (w - cfg.seq0).toInt = n - 1) : w = cfg.seq n - 1 := by
  rw [← seq_dec_sub_seq0 hn] at h
  have hsub := BitVec.eq_of_toInt_eq h
  rw [← BitVec.sub_add_cancel w cfg.seq0, hsub, BitVec.sub_add_cancel]

/-- A sequence number shortly before `seq0` is one of a line to which nothing was published. -/
theorem offset_blank {w : Ulong} {j : Nat} (hj : 1 ≤ j) (hle : j ≤ 2 ^ 62) (hw : w = cfg.seq0 - BitVec.ofNat 64 j) :
    Offset .blank (w - cfg.seq0).toInt := by
  have hneg : (w - cfg.seq0).toInt = -(j : Int) := by
    have hsub : w - cfg.seq0 = BitVec.ofInt 64 (-j) := by
      rw [hw, BitVec.ofInt_neg]
      bv_omega
    rw [hsub, BitVec.toInt_ofInt]
    exact Int.bmod_eq_of_le (by omega) (by omega)
  rw [hneg]
  exact ⟨by omega, by omega⟩

/-- When a poll of a wait is done. -/
theorem waitDone_iff (seqFound seqTest : Ulong) (seqDiff : Long) (pollMax : Ulong) :
    fdMcacheWaitDone seqFound seqTest seqDiff pollMax ↔ seqFound = seqTest ∧ 0 ≤ seqDiff.toInt ∨ pollMax = 0 := by
  simp [fdMcacheWaitDone, BitVec.sle_iff_toInt_le]

/-- A phase that the line came to within the publications begun, and the `seq` it has there. -/
structure Came (cfg : McacheCfg) (i : Fin cfg.depth.toNat) (begun : Nat) (p : Phase) (seq : Ulong) : Prop where
  offset : Offset p (seq - cfg.seq0).toInt
  version : ∀ n, p.version = some n → n < begun ∧ cfg.line (cfg.seq n) = i

variable {i : Fin cfg.depth.toNat} {begun : Nat} {p q : Phase} {seq : Ulong}

/-- It stays one when more publications begin. -/
theorem Came.mono (h : Came cfg i begun p seq) {begun' : Nat} (hle : begun ≤ begun') : Came cfg i begun' p seq :=
  ⟨h.offset, fun n hn => ⟨Nat.lt_of_lt_of_le (h.version n hn).1 hle, (h.version n hn).2⟩⟩

/-- The sequence number of a written phase is that of no other phase of the line. -/
theorem Came.eq_written {n : Nat} (h : Came cfg i begun (.written n) seq) (hq : Came cfg i begun q seq) : q = .written n := by
  have hn : (seq - cfg.seq0).toInt = n := h.offset
  have hoff := hq.offset
  rw [hn] at hoff
  cases q with
  | blank =>
    obtain ⟨_, hneg⟩ := hoff
    omega
  | writing m =>
    have hm : m = n + 1 := by
      have : (n : Int) = m - 1 := hoff
      omega
    subst hm
    exact absurd ((h.version n rfl).2.trans (hq.version (n + 1) rfl).2.symm) (line_seq_succ_ne n)
  | written m =>
    have hm : (n : Int) = m := hoff
    rw [Int.ofNat.inj hm]

end McacheAux

end VerifyFiredancer
