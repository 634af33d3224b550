import VerifyFiredancer.Scratch
import VerifyFiredancer.Lib.Layout

/-!
# Appends

What an append does, in whole numbers (`ScratchAux.scratchAppend_cases`): a round-up past `2^64` gives the address zero and goes
on from there, a size past `2^64` is an error, and what is neither is the layout of `Layout`. Appends that stay below `2^64` are
such a layout as a whole.
-/

namespace VerifyFiredancer

open Layout

/-- A region to append, in whole numbers. -/
def AppendReq.req (r : AppendReq) : Req := ⟨r.align.toNat, r.sz.toNat⟩

/-- A region that was appended, in whole numbers. -/
def ScratchRegion.place (r : ScratchRegion) : Nat × Req := (r.ptr.toNat, r.req)

namespace ScratchAux

theorem align_pos (r : AppendReq) : 0 < r.align.toNat := PowerMask.toNat_pos r.pow2

theorem align_pos_all (reqs : List AppendReq) : ∀ r ∈ reqs.map AppendReq.req, 0 < r.align := by
  intro r hr
  obtain ⟨r, _, rfl⟩ := List.mem_map.1 hr
  exact align_pos r

/-- Rounding up, by the function and by the macro. -/
theorem alignUp_toNat (x : Ulong) {a : Ulong} (ha : ∃ k, a.toNat = 2 ^ k) :
    (fdUlongAlignUp x a).toNat = alignUp x.toNat a.toNat % 2 ^ 64 := by
  obtain ⟨k, hk⟩ := ha
  rw [hk]
  exact toNat_wordAlignUp x hk

theorem alignUpMacro_toNat (x : Ulong) {a : Ulong} (ha : ∃ k, a.toNat = 2 ^ k) :
    (fdUlongAlignUpMacro x a).toNat = alignUp x.toNat a.toNat % 2 ^ 64 :=
  alignUp_toNat x ha

theorem alignUp_le_range (x : Ulong) (r : AppendReq) : alignUp x.toNat r.align.toNat ≤ 2 ^ 64 := by
  obtain ⟨k, hk⟩ := r.pow2
  rw [hk]
  exact alignUp_word_le x hk

/-- What an append to a scratch allocation does. -/
theorem scratchAppend_cases (layout : String) (next : Ulong) (r : AppendReq) :
    (alignUp next.toNat r.align.toNat = 2 ^ 64 ∧ fdScratchAllocAppend layout next r.align r.sz = .ok (0, r.sz)) ∨
      (alignUp next.toNat r.align.toNat < 2 ^ 64 ∧ 2 ^ 64 ≤ alignUp next.toNat r.align.toNat + r.sz.toNat ∧
        ∃ msg, fdScratchAllocAppend layout next r.align r.sz = .error msg) ∨
      (alignUp next.toNat r.align.toNat + r.sz.toNat < 2 ^ 64 ∧
        ∃ ptr next' : Ulong, fdScratchAllocAppend layout next r.align r.sz = .ok (ptr, next') ∧
          ptr.toNat = alignUp next.toNat r.align.toNat ∧
          next'.toNat = alignUp next.toNat r.align.toNat + r.sz.toNat) := by
  have hword := alignUp_toNat next r.pow2
  have hrange := alignUp_le_range next r
  have hsz := r.sz.isLt
  unfold fdScratchAllocAppend
  dsimp only
  generalize fdUlongAlignUp next r.align = ptr at hword ⊢
  generalize alignUp next.toNat r.align.toNat = x at hword hrange ⊢
  rcases Nat.eq_or_lt_of_le hrange with heq | hlt
  · have hzero : ptr = 0 := by
      refine BitVec.eq_of_toNat_eq ?_
      rw [hword, heq]
      rfl
    subst hzero
    have hadd : 0 + r.sz = r.sz := BitVec.zero_add r.sz
    have hnot : ¬r.sz < 0 := BitVec.not_lt_zero
    refine Or.inl ⟨heq, ?_⟩
    rw [hadd, if_neg hnot]
  · rw [Nat.mod_eq_of_lt hlt] at hword
    have hadd : (ptr + r.sz).toNat = (x + r.sz.toNat) % 2 ^ 64 := by rw [BitVec.toNat_add, hword]
    refine Or.inr ?_
    by_cases hfit : x + r.sz.toNat < 2 ^ 64
    · rw [Nat.mod_eq_of_lt hfit] at hadd
      refine Or.inr ⟨hfit, ptr, ptr + r.sz, ?_, hword, hadd⟩
      rw [if_neg]
      rw [BitVec.lt_def, hadd, hword]
      omega
    · refine Or.inl ⟨hlt, Nat.not_lt.1 hfit, _, if_pos ?_⟩
      rw [BitVec.lt_def, hadd, hword]
      omega

/-- What an append to a layout does when it stays in the range. -/
theorem layoutAppend_toNat {l : Ulong} {r : AppendReq} (h : alignUp l.toNat r.align.toNat + r.sz.toNat < 2 ^ 64) :
    (fdLayoutAppend l r.align r.sz).toNat = alignUp l.toNat r.align.toNat + r.sz.toNat ∧
      (fdLayoutAppend l r.align r.sz - r.sz).toNat = alignUp l.toNat r.align.toNat := by
  have hword := alignUpMacro_toNat l r.pow2
  rw [Nat.mod_eq_of_lt (by omega)] at hword
  unfold fdLayoutAppend
  constructor
  · rw [BitVec.toNat_add, hword, Nat.mod_eq_of_lt h]
  · rw [BitVec.add_sub_cancel, hword]

/-! ## Sequences -/

/-- Appends that stay in the range log no error, and return the regions of a layout. -/
theorem scratchAppends_eq (layout : String) (reqs : List AppendReq) :
    ∀ next : Ulong, stop next.toNat (reqs.map AppendReq.req) < 2 ^ 64 →
      ∃ regions next', fdScratchAllocAppends layout next reqs = (regions, .ok next') ∧
        next'.toNat = stop next.toNat (reqs.map AppendReq.req) ∧
        regions.map ScratchRegion.toAppendReq = reqs ∧
        regions.map ScratchRegion.place = places next.toNat (reqs.map AppendReq.req) := by
  induction reqs with
  | nil => intro next _; exact ⟨[], next, rfl, rfl, rfl, rfl⟩
  | cons r rs ih =>
    intro next h
    rw [List.map_cons, stop] at h
    have hfit : alignUp next.toNat r.align.toNat + r.sz.toNat < 2 ^ 64 := Nat.lt_of_le_of_lt (le_stop (align_pos_all rs)) h
    rcases scratchAppend_cases layout next r with ⟨heq, _⟩ | ⟨_, hge, _⟩ | ⟨_, ptr, next', hres, hptr, hnext⟩
    · omega
    · exact absurd hfit (Nat.not_lt.2 hge)
    · have hstop : stop next'.toNat (rs.map AppendReq.req) < 2 ^ 64 := by
        rw [hnext]
        exact h
      obtain ⟨regions, next'', hrun, hend, hreqs, hplaces⟩ := ih next' hstop
      refine ⟨{ r with ptr } :: regions, next'', ?_, ?_, ?_, ?_⟩
      · rw [fdScratchAllocAppends, hres]
        simp only [hrun]
      · rw [hend, hnext]
        rfl
      · rw [List.map_cons, hreqs]
      · rw [List.map_cons, List.map_cons, places_cons, hplaces, hnext, ScratchRegion.place, hptr]
        rfl

/-- Appends to a layout that stay in the range are a layout. -/
theorem layoutAppends_eq (reqs : List AppendReq) :
    ∀ l : Ulong, stop l.toNat (reqs.map AppendReq.req) < 2 ^ 64 →
      (fdLayoutAppends l reqs).toNat = stop l.toNat (reqs.map AppendReq.req) ∧
        (fdLayoutOffsets l reqs).map BitVec.toNat = starts l.toNat (reqs.map AppendReq.req) := by
  induction reqs with
  | nil => intro l _; exact ⟨rfl, rfl⟩
  | cons r rs ih =>
    intro l h
    rw [List.map_cons, stop] at h
    obtain ⟨hend, hoff⟩ := layoutAppend_toNat (Nat.lt_of_le_of_lt (le_stop (align_pos_all rs)) h)
    have hstop : stop (fdLayoutAppend l r.align r.sz).toNat (rs.map AppendReq.req) < 2 ^ 64 := by
      rw [hend]
      exact h
    obtain ⟨ihend, ihoff⟩ := ih _ hstop
    rw [hend] at ihend ihoff
    constructor
    · rw [fdLayoutAppends, List.foldl_cons]
      exact ihend
    · rw [fdLayoutOffsets, List.map_cons, hoff, ihoff]
      rfl

end ScratchAux

end VerifyFiredancer
