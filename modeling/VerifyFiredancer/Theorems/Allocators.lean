import VerifyFiredancer.SeaAllocators
import VerifyFiredancer.Lib.PowerMask

/-!
# Success and failure of the allocators

A call either gives a fresh block that is large enough and writes in it only, or gives NULL and does nothing. The bottom layer,
`sea_malloc`, is such a call (`AllocatorsAux.seaMalloc_cases`). The layers over it are when nothing goes wrong below them: the
size must not be rounded up past `2^64`, what is to be filled must be there, and what was freed first cannot be taken back.
-/

namespace VerifyFiredancer

open BlockHeap

/-- The call gave a block of at least `sz` bytes, apart from every other live block, and wrote in it only. -/
def Allocated (h : Heap Uchar) (sz : Ulong) (r : Alloc) : Prop :=
  ∃ b l, r.heap.live = b :: l ∧ r.ptr = b.base ∧ sz.toNat ≤ b.size ∧ (∀ c ∈ l, c ∈ h.live ∧ b.Apart c) ∧
    (∀ w ∈ r.writes, w.Within b) ∧ ∀ a, ¬b.Has a → r.heap.mem a = h.mem a

/-- The call gave NULL, wrote nothing and left every live block live and unchanged. -/
structure Failed (h : Heap Uchar) (r : Alloc) : Prop where
  ptr : r.ptr = 0
  writes : ∀ w ∈ r.writes, w.size = 0
  live : ∀ b ∈ h.live, b ∈ r.heap.live
  mem : r.heap.mem = h.mem

/-- A call does one or the other. -/
def Respects (h : Heap Uchar) (sz : Ulong) (r : Alloc) : Prop := Allocated h sz r ∨ Failed h r

/-- The allocators. -/
inductive Allocator where
  | seaMalloc
  | seaMallocAligned
  | seaMallocHavoc
  | seaMallocAlignedHavoc
  | canFailMallocHavoc
  | seaRealloc (ptr : Nat)
  | libcRealloc (ptr : Nat)

/-- A call of an allocator. -/
def Allocator.call (env : AllocEnv) (h : Heap Uchar) (sz : Ulong) : Allocator → Alloc
  | .seaMalloc => VerifyFiredancer.seaMalloc env h sz
  | .seaMallocAligned => VerifyFiredancer.seaMallocAligned env h sz
  | .seaMallocHavoc => VerifyFiredancer.seaMallocHavoc env h sz
  | .seaMallocAlignedHavoc => VerifyFiredancer.seaMallocAlignedHavoc env h sz
  | .canFailMallocHavoc => VerifyFiredancer.canFailMallocHavoc env h sz
  | .seaRealloc ptr => VerifyFiredancer.seaRealloc env h ptr sz
  | .libcRealloc ptr => VerifyFiredancer.libcRealloc env h ptr sz

/-- A call that may be made: what is reallocated is NULL or a live block. -/
def Allocator.Ok (h : Heap Uchar) : Allocator → Prop
  | .seaRealloc ptr => ptr = 0 ∨ ∃ b ∈ h.live, b.base = ptr
  | .libcRealloc ptr => ptr = 0 ∨ ∃ b ∈ h.live, b.base = ptr
  | _ => True

/-- The environment lets an allocation of `sz` bytes succeed. -/
def AllocEnv.Gives (env : AllocEnv) (h : Heap Uchar) (sz : Ulong) : Prop :=
  env.ndMallocIsFail = false ∧ (env.malloc h sz.toNat).isSome

/-- When an allocator does what it should. -/
def Allocator.HoldsWhen (env : AllocEnv) (h : Heap Uchar) (sz : Ulong) : Allocator → Prop
  | .seaMalloc => True
  | .seaMallocAligned => env.Gives h (awsAlignRoundUp sz 8) → sz.toNat + 7 < 2 ^ 64
  | .seaMallocHavoc => sz ≠ 0 → env.Gives h sz
  | .seaMallocAlignedHavoc => sz ≠ 0 → env.Gives h (awsAlignRoundUp sz 8) ∧ sz.toNat + 7 < 2 ^ 64
  | .canFailMallocHavoc => sz ≠ 0 → env.Gives h sz
  | .seaRealloc ptr => ptr ≠ 0 → env.Gives (h.free ptr) sz
  | .libcRealloc ptr => ptr ≠ 0 → env.Gives (h.free ptr) sz

/-- Every allocator does one or the other. -/
def AllocatorsRespect : Prop :=
  ∀ (env : AllocEnv) (h : Heap Uchar) (sz : Ulong) (f : Allocator), f.Ok h → Respects h sz (f.call env h sz)

namespace AllocatorsAux

variable {env : AllocEnv} {h : Heap Uchar} {sz : Ulong}

/-! ## Sizes -/

/-- The size rounded up, where it wraps too. -/
theorem roundUp_toNat (sz : Ulong) : (awsAlignRoundUp sz 8).toNat = (sz.toNat + 7) % 2 ^ 64 / 8 * 8 := by
  have hadd : (sz + (8 - 1)).toNat = (sz.toNat + 7) % 2 ^ 64 := by
    rw [BitVec.toNat_add]
    rfl
  rw [awsAlignRoundUp, ← hadd]
  exact PowerMask.toNat_and_not_mask (k := 3) rfl _

/-- The size rounded up is large enough exactly when it does not wrap. -/
theorem le_roundUp_iff (sz : Ulong) : sz.toNat ≤ (awsAlignRoundUp sz 8).toNat ↔ sz.toNat + 7 < 2 ^ 64 := by
  have hlt := sz.isLt
  rw [roundUp_toNat]
  omega

/-! ## The bottom layer -/

/-- `sea_malloc` gives NULL and does nothing, or adds a fresh block of the size, as the environment decides. -/
theorem seaMalloc_cases (env : AllocEnv) (h : Heap Uchar) (sz : Ulong) :
    (¬env.Gives h sz ∧ seaMalloc env h sz = ⟨0, h, []⟩) ∨
      (env.Gives h sz ∧ ∃ (b : Block) (hb : h.Fresh (2 ^ 64) b), b.size = sz.toNat ∧
        seaMalloc env h sz = ⟨b.base, h.add b hb, []⟩) := by
  cases hfail : env.ndMallocIsFail with
  | true =>
    refine Or.inl ⟨fun hgives => ?_, ?_⟩
    · rw [hgives.1] at hfail
      cases hfail
    · rw [seaMalloc, hfail]
      rfl
  | false =>
    have hsea : seaMalloc env h sz = libcMalloc env h sz := by
      rw [seaMalloc, hfail]
      rfl
    rw [hsea, libcMalloc]
    cases hmalloc : env.malloc h sz.toNat with
    | none =>
      refine Or.inl ⟨fun hgives => ?_, rfl⟩
      rw [AllocEnv.Gives, hmalloc] at hgives
      exact absurd hgives.2 Bool.false_ne_true
    | some a =>
      refine Or.inr ⟨⟨hfail, ?_⟩, ⟨a, sz.toNat⟩, a.2, rfl, rfl⟩
      rw [hmalloc]
      rfl

/-- A call that does nothing has failed. -/
theorem failed_nothing (h : Heap Uchar) : Failed h ⟨0, h, []⟩ := ⟨rfl, nofun, fun _ hb => hb, rfl⟩

/-- A call that adds a fresh block to what is left of a heap has allocated it, when it is large enough. -/
theorem allocated_add {h' : Heap Uchar} {b : Block} (hb : h'.Fresh (2 ^ 64) b) (hlive : ∀ c ∈ h'.live, c ∈ h.live)
    (hmem : h'.mem = h.mem) (hsize : sz.toNat ≤ b.size) : Allocated h sz ⟨b.base, h'.add b hb, []⟩ := by
  refine ⟨b, h'.live, rfl, rfl, hsize, fun c hc => ⟨hlive c hc, hb.apart c hc⟩, nofun, fun a _ => ?_⟩
  rw [← hmem]
  rfl

/-- A call that gives NULL has not allocated anything. -/
theorem not_allocated_null {r : Alloc} (hptr : r.ptr = 0) : ¬Allocated h sz r := by
  rintro ⟨b, l, hlive, hbase, _⟩
  have hb : b ∈ r.heap.live := by
    rw [hlive]
    exact List.mem_cons_self
  exact r.heap.nonNull b hb (hbase.symm.trans hptr)

/-- A call that gives a block and does right has given one that is large enough. -/
theorem size_of_respects {r : Alloc} {b : Block} {l : List Block} (hlive : r.heap.live = b :: l) (hptr : r.ptr ≠ 0)
    (hr : Respects h sz r) : sz.toNat ≤ b.size := by
  rcases hr with ⟨c, l', hlive', _, hsize, _⟩ | hfailed
  · obtain ⟨rfl, _⟩ := List.cons.inj (hlive.symm.trans hlive')
    exact hsize
  · exact absurd hfailed.ptr hptr

/-- A call that gives a block has given one of this size. -/
theorem respects_add_iff {b : Block} (hb : h.Fresh (2 ^ 64) b) :
    Respects h sz ⟨b.base, h.add b hb, []⟩ ↔ sz.toNat ≤ b.size :=
  ⟨size_of_respects rfl hb.nonNull, fun hsize => Or.inl (allocated_add hb (fun _ hc => hc) rfl hsize)⟩

/-! ## Filling -/

/-- To fill a block that was given does right when it is large enough. -/
theorem respects_havoc_add {b : Block} (hb : h.Fresh (2 ^ 64) b) (hsize : sz.toNat ≤ b.size) :
    Respects h sz (memhavoc env ⟨b.base, h.add b hb, []⟩ sz) := by
  have hwithin : (⟨b.base, sz.toNat⟩ : Block).Within b := Or.inr ⟨Nat.le_refl _, Nat.add_le_add_left hsize _⟩
  refine Or.inl ⟨b, h.live, rfl, rfl, hsize, fun c hc => ⟨hc, hb.apart c hc⟩, fun w hw => ?_, fun a ha => ?_⟩
  · obtain rfl := List.mem_singleton.1 hw
    exact hwithin
  · exact Heap.fill_frame env.havoc fun hw => ha (hwithin.has hw)

/-- To fill a block that is too small does not. -/
theorem not_respects_havoc_add {b : Block} (hb : h.Fresh (2 ^ 64) b) (hsize : b.size < sz.toNat) :
    ¬Respects h sz (memhavoc env ⟨b.base, h.add b hb, []⟩ sz) :=
  fun hr => Nat.not_le.2 hsize (size_of_respects rfl hb.nonNull hr)

/-- To fill what was not given does right when there is nothing to fill. -/
theorem respects_havoc_null_iff : Respects h sz (memhavoc env ⟨0, h, []⟩ sz) ↔ sz = 0 := by
  constructor
  · rintro (hallocated | hfailed)
    · exact absurd hallocated (not_allocated_null rfl)
    · exact BitVec.eq_of_toNat_eq (hfailed.writes ⟨0, sz.toNat⟩ List.mem_cons_self)
  · rintro rfl
    refine Or.inr ⟨rfl, fun w hw => ?_, fun _ hb => hb, ?_⟩
    · obtain rfl := List.mem_singleton.1 hw
      rfl
    · funext a
      exact Heap.fill_frame env.havoc (Block.not_has_empty 0 a)

/-! ## The allocators -/

theorem seaMalloc_respects (env : AllocEnv) (h : Heap Uchar) (sz : Ulong) : Respects h sz (seaMalloc env h sz) := by
  rcases seaMalloc_cases env h sz with ⟨_, heq⟩ | ⟨_, b, hb, hsize, heq⟩
  · rw [heq]
    exact Or.inr (failed_nothing h)
  · rw [heq, respects_add_iff, hsize]

theorem seaMallocAligned_iff :
    Respects h sz (seaMallocAligned env h sz) ↔ (env.Gives h (awsAlignRoundUp sz 8) → sz.toNat + 7 < 2 ^ 64) := by
  rw [seaMallocAligned]
  rcases seaMalloc_cases env h (awsAlignRoundUp sz 8) with ⟨hno, heq⟩ | ⟨hgives, b, hb, hsize, heq⟩
  · rw [heq]
    exact iff_of_true (Or.inr (failed_nothing h)) fun hgives => absurd hgives hno
  · rw [heq, respects_add_iff, hsize, le_roundUp_iff]
    exact ⟨fun hlt _ => hlt, fun hlt => hlt hgives⟩

theorem seaMallocHavoc_iff : Respects h sz (seaMallocHavoc env h sz) ↔ (sz ≠ 0 → env.Gives h sz) := by
  rw [seaMallocHavoc]
  rcases seaMalloc_cases env h sz with ⟨hno, heq⟩ | ⟨hgives, b, hb, hsize, heq⟩
  · rw [heq, respects_havoc_null_iff]
    exact ⟨fun hzero hne => absurd hzero hne, fun himp => by_contra fun hne => hno (himp hne)⟩
  · rw [heq]
    exact iff_of_true (respects_havoc_add hb (Nat.le_of_eq hsize.symm)) fun _ => hgives

theorem seaMallocAlignedHavoc_iff :
    Respects h sz (seaMallocAlignedHavoc env h sz) ↔
      (sz ≠ 0 → env.Gives h (awsAlignRoundUp sz 8) ∧ sz.toNat + 7 < 2 ^ 64) := by
  rw [seaMallocAlignedHavoc, seaMallocAligned]
  rcases seaMalloc_cases env h (awsAlignRoundUp sz 8) with ⟨hno, heq⟩ | ⟨hgives, b, hb, hsize, heq⟩
  · rw [heq, respects_havoc_null_iff]
    exact ⟨fun hzero hne => absurd hzero hne, fun himp => by_contra fun hne => hno (himp hne).1⟩
  · rw [heq]
    by_cases hlt : sz.toNat + 7 < 2 ^ 64
    · have hle : sz.toNat ≤ b.size := by
        rw [hsize]
        exact (le_roundUp_iff sz).2 hlt
      exact iff_of_true (respects_havoc_add hb hle) fun _ => ⟨hgives, hlt⟩
    · have hgt : b.size < sz.toNat := by
        rw [hsize]
        exact Nat.not_le.1 fun hle => hlt ((le_roundUp_iff sz).1 hle)
      have hne : sz ≠ 0 := by
        rintro rfl
        exact absurd hgt (Nat.not_lt_zero _)
      exact iff_of_false (not_respects_havoc_add hb hgt) fun himp => hlt (himp hne).2

theorem canFailMallocHavoc_iff : Respects h sz (canFailMallocHavoc env h sz) ↔ (sz ≠ 0 → env.Gives h sz) := by
  rw [canFailMallocHavoc]
  by_cases hzero : sz = 0
  · rw [if_pos hzero]
    exact iff_of_true (Or.inr (failed_nothing h)) fun hne => absurd hzero hne
  · rw [if_neg hzero]
    exact seaMallocHavoc_iff

theorem seaRealloc_iff {ptr : Nat} (hptr : ptr = 0 ∨ ∃ b ∈ h.live, b.base = ptr) :
    Respects h sz (seaRealloc env h ptr sz) ↔ (ptr ≠ 0 → env.Gives (h.free ptr) sz) := by
  rw [seaRealloc]
  by_cases hnull : ptr = 0
  · rw [if_neg (not_not_intro hnull)]
    exact iff_of_true (seaMalloc_respects env h sz) fun hne => absurd hnull hne
  · rw [if_pos hnull, seaFree]
    rcases seaMalloc_cases env (h.free ptr) sz with ⟨hno, heq⟩ | ⟨hgives, b, hb, hsize, heq⟩
    · rw [heq]
      refine iff_of_false ?_ fun himp => hno (himp hnull)
      rintro (hallocated | hfailed)
      · exact not_allocated_null rfl hallocated
      · -- the block at `ptr` was live and is not any more
        obtain ⟨b, hb, hbase⟩ := hptr.resolve_left hnull
        exact (Heap.mem_free.1 (hfailed.live b hb)).2 hbase
    · rw [heq]
      refine iff_of_true (Or.inl ?_) fun _ => hgives
      exact allocated_add hb (fun c hc => (Heap.mem_free.1 hc).1) rfl (Nat.le_of_eq hsize.symm)

end AllocatorsAux

open AllocatorsAux

/-- An allocator gives a block of its own or fails without a trace exactly when nothing goes wrong in its layers: the size is not
rounded up past the range, and what it fills, or freed a block for, was allocated. -/
theorem allocators_respect_iff (env : AllocEnv) (h : Heap Uchar) (sz : Ulong) (f : Allocator) (hf : f.Ok h) :
    Respects h sz (f.call env h sz) ↔ f.HoldsWhen env h sz := by
  cases f with
  | seaMalloc => exact iff_of_true (seaMalloc_respects env h sz) trivial
  | seaMallocAligned => exact seaMallocAligned_iff
  | seaMallocHavoc => exact seaMallocHavoc_iff
  | seaMallocAlignedHavoc => exact seaMallocAlignedHavoc_iff
  | canFailMallocHavoc => exact canFailMallocHavoc_iff
  | seaRealloc ptr => exact seaRealloc_iff hf
  | libcRealloc ptr => exact seaRealloc_iff hf

/-- A heap without blocks, in which an environment puts the first block at 16. -/
def emptyHeap : Heap Uchar := ⟨fun _ => 0, [], List.Pairwise.nil, nofun⟩

def firstAt16 (ndMallocIsFail : Bool) : AllocEnv where
  ndMallocIsFail := ndMallocIsFail
  malloc := fun h n =>
    if hempty : h.live = [] ∧ 16 + n ≤ 2 ^ 64 then
      some ⟨16, (by decide : (16 : Nat) ≠ 0), hempty.2, fun c hc => by
        rw [hempty.1] at hc
        exact absurd hc List.not_mem_nil⟩
    else none
  havoc := fun _ => 255

/-- A heap with one block of eight bytes. -/
def oneBlock : Heap Uchar := ⟨fun _ => 0, [⟨16, 8⟩], List.pairwise_singleton _ _, by decide⟩

/-- A block is reallocated as it should be when there is another after it was freed, and is lost when there is none. -/
theorem allocators_respect_realloc :
    Respects oneBlock 16 (Allocator.call (firstAt16 false) oneBlock 16 (.seaRealloc 16)) ∧
      ¬Respects oneBlock 16 (Allocator.call (firstAt16 true) oneBlock 16 (.seaRealloc 16)) := by
  have hlive : (Allocator.seaRealloc 16).Ok oneBlock := .inr ⟨⟨16, 8⟩, List.mem_cons_self, rfl⟩
  constructor
  · exact (allocators_respect_iff (firstAt16 false) oneBlock 16 (.seaRealloc 16) hlive).2 fun _ => ⟨rfl, rfl⟩
  · intro hr
    have hgives := (allocators_respect_iff (firstAt16 true) oneBlock 16 (.seaRealloc 16) hlive).1 hr (by decide)
    cases hgives.1

/-- Eight bytes are written at NULL when the allocation fails. -/
theorem havoc_null : ¬AllocatorsRespect := by
  intro h
  rcases h (firstAt16 true) emptyHeap 8 .seaMallocHavoc trivial with hallocated | hfailed
  · exact not_allocated_null rfl hallocated
  · exact absurd (hfailed.writes ⟨0, 8⟩ List.mem_cons_self) (by decide)

end VerifyFiredancer
