import VerifyFiredancer.Lemmas.Scratch

/-!
# The layout at run time

The footprint of a layout is what a scratch allocation takes: from a base that the overall alignment divides, every append
returns the base plus the offset that the layout computed. Both are the layout of `Layout`, which shifts by the base.
-/

namespace VerifyFiredancer

open Layout

/-- The footprint of a layout with the overall alignment `a`, in exact arithmetic. -/
def footprint (a : Ulong) (reqs : List AppendReq) : Nat := alignUp (stop 0 (reqs.map AppendReq.req)) a.toNat

/-- The results of a scratch allocation from `base` on that follow a layout.
1. No append logs an error, and each region is at `base` plus the offset that `FD_LAYOUT_APPEND` computes for it.
2. Its address is a multiple of its alignment.
3. The regions are in order, apart, and inside the footprint.
4. `FD_LAYOUT_FINI` gives the footprint, and `FD_SCRATCH_ALLOC_FINI` where it ends, a multiple of the overall alignment. -/
structure FollowsLayout (layout : String) (a base : Ulong) (reqs : List AppendReq) (regions : List ScratchRegion)
    (next : Ulong) : Prop where
  run : fdScratchAllocAppends layout (fdScratchAllocInit base) reqs = (regions, .ok next)
  reqs_eq : regions.map ScratchRegion.toAppendReq = reqs
  offsets : regions.map (·.ptr.toNat) = (fdLayoutOffsets fdLayoutInit reqs).map (base.toNat + ·.toNat)
  aligned : ∀ r ∈ regions, r.align.toNat ∣ r.ptr.toNat
  apart : regions.Pairwise fun r s => r.ptr.toNat + r.sz.toNat ≤ s.ptr.toNat
  inside : ∀ r ∈ regions, base.toNat ≤ r.ptr.toNat ∧ r.ptr.toNat + r.sz.toNat ≤ base.toNat + footprint a reqs
  fini : (fdLayoutFini (fdLayoutAppends fdLayoutInit reqs) a).toNat = footprint a reqs
  scratchFini : (fdScratchAllocFini next a).toNat = base.toNat + footprint a reqs
  dvd_fini : a.toNat ∣ base.toNat + footprint a reqs

namespace ScratchAux

/-- Powers of two divide those they are not above. -/
theorem align_dvd {a : Ulong} {r : AppendReq} (ha : ∃ k, a.toNat = 2 ^ k) (h : r.align ≤ a) : r.align.toNat ∣ a.toNat := by
  obtain ⟨k, hk⟩ := ha
  obtain ⟨j, hj⟩ := r.pow2
  rw [BitVec.le_def, hj, hk] at h
  rw [hj, hk]
  exact Nat.pow_dvd_pow 2 ((Nat.pow_le_pow_iff_right (by decide)).1 h)

end ScratchAux

open ScratchAux

/-- From any base that is a multiple of the overall alignment and behind which the footprint fits below `ULONG_MAX`, appends to a
scratch allocation follow the layout. -/
theorem scratch_follows_layout (layout : String) (a base : Ulong) (reqs : List AppendReq) (ha : ∃ k, a.toNat = 2 ^ k)
    (hreqs : ∀ r ∈ reqs, r.align ≤ a) (hbase : a.toNat ∣ base.toNat) (hfit : base.toNat + footprint a reqs ≤ ulongMax.toNat) :
    ∃ regions next, FollowsLayout layout a base reqs regions next := by
  have hulong : ulongMax.toNat = 2 ^ 64 - 1 := rfl
  have hinit : fdLayoutInit.toNat = 0 := rfl
  have hpos : 0 < a.toNat := PowerMask.toNat_pos ha
  have hposr := align_pos_all reqs
  have hdvd : ∀ r ∈ reqs.map AppendReq.req, r.align ∣ base.toNat := by
    intro r hr
    obtain ⟨r, hmem, rfl⟩ := List.mem_map.1 hr
    exact Nat.dvd_trans (align_dvd ha (hreqs r hmem)) hbase
  have hle : stop 0 (reqs.map AppendReq.req) ≤ footprint a reqs := le_alignUp hpos
  have hshift : stop base.toNat (reqs.map AppendReq.req) = base.toNat + stop 0 (reqs.map AppendReq.req) := stop_shift hposr hdvd
  have hstarts : starts base.toNat (reqs.map AppendReq.req) = (starts 0 (reqs.map AppendReq.req)).map (base.toNat + ·) :=
    starts_shift hposr hdvd
  obtain ⟨regions, next, hrun, hnext, hreq, hplaces⟩ := scratchAppends_eq layout reqs base (by omega)
  obtain ⟨hend, hoff⟩ := layoutAppends_eq reqs fdLayoutInit (Nat.lt_of_le_of_lt hle (by omega))
  rw [hinit] at hend hoff
  have hmem : ∀ r ∈ regions, r.place ∈ places base.toNat (reqs.map AppendReq.req) := by
    intro r hr
    rw [← hplaces]
    exact List.mem_map_of_mem hr
  refine ⟨regions, next, ⟨hrun, hreq, ?_, ?_, ?_, ?_, ?_, ?_, ?_⟩⟩
  · have hfst := congrArg (List.map Prod.fst) hplaces
    rw [List.map_map, places_fst, hstarts, ← hoff, List.map_map] at hfst
    exact hfst
  · exact fun r hr => places_aligned r.place (hmem r hr)
  · have hpair := places_pairwise hposr (l := base.toNat)
    rw [← hplaces, List.pairwise_map] at hpair
    exact hpair
  · intro r hr
    obtain ⟨hfrom, hto⟩ := places_inside hposr r.place (hmem r hr)
    rw [hshift] at hto
    refine ⟨hfrom, ?_⟩
    have hto' : r.ptr.toNat + r.sz.toNat ≤ base.toNat + stop 0 (reqs.map AppendReq.req) := hto
    omega
  · have hlt : footprint a reqs < 2 ^ 64 := by omega
    rw [fdLayoutFini, alignUpMacro_toNat _ ha, hend]
    exact Nat.mod_eq_of_lt hlt
  · have hlt : base.toNat + footprint a reqs < 2 ^ 64 := by omega
    rw [fdScratchAllocFini, alignUpMacro_toNat _ ha, hnext, hshift, alignUp_add hpos hbase]
    exact Nat.mod_eq_of_lt hlt
  · exact Nat.dvd_add hbase (dvd_alignUp _ _)

/-- An array of a hundred `int` and one of twenty-five `ulong`, from an unaligned count of bytes on. -/
theorem scratch_follows_layout_two :
    ∃ regions next, FollowsLayout "foo" 32 4096 [⟨1, 3, 0, rfl⟩, ⟨4, 400, 2, rfl⟩, ⟨8, 200, 3, rfl⟩] regions next :=
  scratch_follows_layout "foo" 32 4096 [⟨1, 3, 0, rfl⟩, ⟨4, 400, 2, rfl⟩, ⟨8, 200, 3, rfl⟩] ⟨5, rfl⟩ (by decide) (by decide)
    (by decide)

end VerifyFiredancer
