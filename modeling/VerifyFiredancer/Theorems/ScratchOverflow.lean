import VerifyFiredancer.Lemmas.Scratch

/-!
# Overflow of a scratch allocation

`FD_SCRATCH_ALLOC_APPEND` tests whether its size wraps, but not whether its round-up does. So what it hands out is in order and
apart exactly when no round-up passes `2^64`, in exact arithmetic (`RoundsInRange`): one that does gives the address zero, before
all that was handed out.
-/

namespace VerifyFiredancer

open Layout

/-- The regions that a sequence of appends from `base` on returns, until one logs an error. -/
def scratchRegions (layout : String) (base : Ulong) (reqs : List AppendReq) : List ScratchRegion :=
  (fdScratchAllocAppends layout (fdScratchAllocInit base) reqs).1

/-- Regions as a scratch allocation is to hand them out: aligned, none before the end of the one before it, none past
`2^64 - 1`. -/
structure InOrder (regions : List ScratchRegion) : Prop where
  aligned : ∀ r ∈ regions, r.align.toNat ∣ r.ptr.toNat
  fits : ∀ r ∈ regions, r.ptr.toNat + r.sz.toNat ≤ 2 ^ 64 - 1
  apart : regions.Pairwise fun r s => r.ptr.toNat + r.sz.toNat ≤ s.ptr.toNat

/-- Appends from `next` on round up within the range, until one has a size that passes it. -/
def RoundsInRange : Nat → List AppendReq → Prop
  | _, [] => True
  | next, r :: rs =>
    alignUp next r.align.toNat < 2 ^ 64 ∧
      (alignUp next r.align.toNat + r.sz.toNat < 2 ^ 64 → RoundsInRange (alignUp next r.align.toNat + r.sz.toNat) rs)

/-- The appends after the first do so, wherever it ended. -/
def RestRoundsInRange (base : Nat) : List AppendReq → Prop
  | [] => True
  | r :: rs =>
    alignUp base r.align.toNat % 2 ^ 64 + r.sz.toNat < 2 ^ 64 →
      RoundsInRange (alignUp base r.align.toNat % 2 ^ 64 + r.sz.toNat) rs

/-- Every overflow is caught. -/
def OverflowCaught : Prop := ∀ layout base reqs, InOrder (scratchRegions layout base reqs)

namespace ScratchAux

/-- The first region is in order, and those after it are and are not before its end. -/
theorem inOrder_cons {r : ScratchRegion} {rs : List ScratchRegion} :
    InOrder (r :: rs) ↔ r.align.toNat ∣ r.ptr.toNat ∧ r.ptr.toNat + r.sz.toNat ≤ 2 ^ 64 - 1 ∧ InOrder rs ∧
      ∀ s ∈ rs, r.ptr.toNat + r.sz.toNat ≤ s.ptr.toNat := by
  constructor
  · rintro ⟨haligned, hfits, hapart⟩
    rw [List.forall_mem_cons] at haligned hfits
    rw [List.pairwise_cons] at hapart
    exact ⟨haligned.1, hfits.1, ⟨haligned.2, hfits.2, hapart.2⟩, hapart.1⟩
  · rintro ⟨haligned, hfits, hrest, hapart⟩
    exact ⟨List.forall_mem_cons.2 ⟨haligned, hrest.aligned⟩, List.forall_mem_cons.2 ⟨hfits, hrest.fits⟩,
      List.pairwise_cons.2 ⟨hapart, hrest.apart⟩⟩

section Run

variable (layout : String) {base : Ulong} {r : AppendReq} {rs : List AppendReq}

/-- An append that logs an error ends the run. -/
theorem scratchRegions_error {msg : String} (h : fdScratchAllocAppend layout base r.align r.sz = .error msg) :
    scratchRegions layout base (r :: rs) = [] := by
  rw [scratchRegions, fdScratchAllocAppends, fdScratchAllocInit, h]

/-- An append that returns a region. -/
theorem scratchRegions_ok {ptr next : Ulong} (h : fdScratchAllocAppend layout base r.align r.sz = .ok (ptr, next)) :
    scratchRegions layout base (r :: rs) = { r with ptr } :: scratchRegions layout next rs := by
  rw [scratchRegions, fdScratchAllocAppends, fdScratchAllocInit, h]
  rfl

theorem inOrder_nil : InOrder [] := ⟨nofun, nofun, List.Pairwise.nil⟩

/-- The regions of a run are in order from its base on exactly when the run rounds up within the range. -/
theorem inOrder_from_iff (reqs : List AppendReq) :
    ∀ base : Ulong, (InOrder (scratchRegions layout base reqs) ∧
      ∀ r ∈ scratchRegions layout base reqs, base.toNat ≤ r.ptr.toNat) ↔ RoundsInRange base.toNat reqs := by
  induction reqs with
  | nil => intro base; exact iff_of_true ⟨inOrder_nil, nofun⟩ trivial
  | cons r rs ih =>
    intro base
    rw [RoundsInRange]
    rcases scratchAppend_cases layout base r with ⟨heq, hres⟩ | ⟨hlt, hge, msg, hres⟩ | ⟨hfit, ptr, next, hres, hptr, hnext⟩
    · -- the region at zero is before the base, which was not zero
      rw [scratchRegions_ok layout hres, List.forall_mem_cons]
      refine iff_of_false (fun h => ?_) fun h => absurd heq (Nat.ne_of_lt h.1)
      have hbase : base.toNat = 0 := Nat.le_zero.1 h.2.1
      rw [hbase] at heq
      have hzero : alignUp 0 r.align.toNat ≤ 0 := alignUp_le (align_pos r) (Nat.dvd_zero _) (Nat.le_refl 0)
      omega
    · rw [scratchRegions_error layout hres]
      exact iff_of_true ⟨inOrder_nil, nofun⟩ ⟨hlt, fun hfit => absurd hfit (Nat.not_lt.2 hge)⟩
    · have hstep := le_alignUp (x := base.toNat) (align_pos r)
      rw [scratchRegions_ok layout hres, inOrder_cons, List.forall_mem_cons, ← hnext, ← ih next]
      dsimp only
      rw [hptr, hnext]
      constructor
      · rintro ⟨⟨_, _, hrest, hafter⟩, _⟩
        exact ⟨by omega, fun _ => ⟨hrest, hafter⟩⟩
      · rintro ⟨_, h⟩
        obtain ⟨hrest, hafter⟩ := h hfit
        exact ⟨⟨dvd_alignUp _ _, by omega, hrest, hafter⟩, hstep, fun s hs => by have := hafter s hs; omega⟩

/-- After an append that returned a region, the run is in order exactly when the rest of it rounds up within the range. -/
theorem inOrder_ok_iff {ptr next : Ulong} (h : fdScratchAllocAppend layout base r.align r.sz = .ok (ptr, next))
    (haligned : r.align.toNat ∣ ptr.toNat) (hnext : next.toNat = ptr.toNat + r.sz.toNat) :
    InOrder (scratchRegions layout base (r :: rs)) ↔ RoundsInRange next.toNat rs := by
  have hlt := next.isLt
  rw [scratchRegions_ok layout h, inOrder_cons, ← inOrder_from_iff layout, hnext]
  exact ⟨fun h => h.2.2, fun h => ⟨haligned, by dsimp only; omega, h⟩⟩

end Run

end ScratchAux

open ScratchAux

/-- A scratch allocation hands out its regions in order exactly when no append after the first rounds up past the range; and from
its base on exactly when no append does. -/
theorem scratch_caught_iff (layout : String) (base : Ulong) (reqs : List AppendReq) :
    (InOrder (scratchRegions layout base reqs) ↔ RestRoundsInRange base.toNat reqs) ∧
      ((InOrder (scratchRegions layout base reqs) ∧ ∀ r ∈ scratchRegions layout base reqs, base.toNat ≤ r.ptr.toNat) ↔
        RoundsInRange base.toNat reqs) := by
  refine ⟨?_, inOrder_from_iff layout reqs base⟩
  cases reqs with
  | nil => exact iff_of_true inOrder_nil trivial
  | cons r rs =>
    rw [RestRoundsInRange]
    rcases scratchAppend_cases layout base r with ⟨heq, hres⟩ | ⟨hlt, hge, msg, hres⟩ | ⟨hfit, ptr, next, hres, hptr, hnext⟩
    · have hzero : (0 : Ulong).toNat = 0 := rfl
      rw [inOrder_ok_iff layout hres (by rw [hzero]; exact Nat.dvd_zero _) (by rw [hzero, Nat.zero_add]), heq, Nat.mod_self,
        Nat.zero_add]
      exact ⟨fun h _ => h, fun h => h r.sz.isLt⟩
    · rw [scratchRegions_error layout hres, Nat.mod_eq_of_lt hlt]
      exact iff_of_true inOrder_nil fun hfit => absurd hfit (Nat.not_lt.2 hge)
    · rw [inOrder_ok_iff layout hres (by rw [hptr]; exact dvd_alignUp _ _) (by rw [hnext, hptr]), Nat.mod_eq_of_lt (by omega),
        hnext]
      exact ⟨fun h _ => h, fun h => h hfit⟩

/-- A region of 8 bytes is handed out at zero, after one that ends at the last byte. -/
theorem scratch_wraps : ¬OverflowCaught := by
  intro h
  have hpair := (h "foo" 16 [⟨1, 0xffffffffffffffef, 0, rfl⟩, ⟨8, 8, 3, rfl⟩]).apart
  have hregions : scratchRegions "foo" 16 [⟨1, 0xffffffffffffffef, 0, rfl⟩, ⟨8, 8, 3, rfl⟩] =
      [⟨⟨1, 0xffffffffffffffef, 0, rfl⟩, 16⟩, ⟨⟨8, 8, 3, rfl⟩, 0⟩] := rfl
  rw [hregions, List.pairwise_pair] at hpair
  revert hpair
  decide

end VerifyFiredancer
