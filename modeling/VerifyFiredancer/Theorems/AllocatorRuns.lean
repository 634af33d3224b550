import VerifyFiredancer.Theorems.Allocators

/-!
# Programs over the allocators

To a program that allocates, memory is a store of objects: an allocation gives an object where there was none, or NULL, and an
access goes to one object only. The store has no layout; the heap of blocks refines it, over any run of calls. A run fails at a
call that the store does not allow, and at an allocation that fills what it was not given: `memhavoc` then writes outside of every
block, before any assumption on the pointer (`AllocatorRunsAux.inBlocks_iff`).
-/

namespace VerifyFiredancer

open BlockHeap Harness

/-- The allocators that give a new object. -/
inductive HeapAllocator where
  | seaMalloc
  | seaMallocAligned
  | seaMallocHavoc
  | seaMallocAlignedHavoc
  | canFailMallocHavoc
  | seaMallocSafe
  | seaMallocHavocSafe
  | seaMallocAlignedSafe
  | boundedMallocHavoc
  deriving DecidableEq, Repr

namespace HeapAllocator

/-- A call of an allocator. -/
def call (env : AllocEnv) (h : Heap Uchar) (sz : Ulong) : HeapAllocator → Outcome Alloc
  | seaMalloc => return VerifyFiredancer.seaMalloc env h sz
  | seaMallocAligned => return VerifyFiredancer.seaMallocAligned env h sz
  | seaMallocHavoc => return VerifyFiredancer.seaMallocHavoc env h sz
  | seaMallocAlignedHavoc => return VerifyFiredancer.seaMallocAlignedHavoc env h sz
  | canFailMallocHavoc => return VerifyFiredancer.canFailMallocHavoc env h sz
  | seaMallocSafe => VerifyFiredancer.seaMallocSafe env h sz
  | seaMallocHavocSafe => VerifyFiredancer.seaMallocHavocSafe env h sz
  | seaMallocAlignedSafe => VerifyFiredancer.seaMallocAlignedSafe env h sz
  | boundedMallocHavoc => VerifyFiredancer.boundedMallocHavoc env h sz

/-- What the call has done when it comes to assume that it was given a block, if it does assume that, and in the end. -/
def attempt (env : AllocEnv) (h : Heap Uchar) (sz : Ulong) : HeapAllocator → Alloc
  | seaMalloc => VerifyFiredancer.seaMalloc env h sz
  | seaMallocSafe => libcMalloc env h sz
  | seaMallocAligned | seaMallocAlignedSafe => VerifyFiredancer.seaMallocAligned env h sz
  | seaMallocHavoc | seaMallocHavocSafe => VerifyFiredancer.seaMallocHavoc env h sz
  | seaMallocAlignedHavoc => VerifyFiredancer.seaMallocAlignedHavoc env h sz
  | canFailMallocHavoc | boundedMallocHavoc => VerifyFiredancer.canFailMallocHavoc env h sz

/-- It assumes that it was given a block. -/
def Assumes (sz : Ulong) : HeapAllocator → Prop
  | seaMallocSafe | seaMallocHavocSafe | seaMallocAlignedSafe => True
  | boundedMallocHavoc => sz ≠ 0
  | seaMalloc | seaMallocAligned | seaMallocHavoc | seaMallocAlignedHavoc | canFailMallocHavoc => False

/-- The size of the block that it gives. -/
def blockSize (sz : Ulong) : HeapAllocator → Nat
  | seaMallocAligned | seaMallocAlignedHavoc | seaMallocAlignedSafe => (awsAlignRoundUp sz 8).toNat
  | _ => sz.toNat

/-- It may give NULL. -/
def MayBeNull (sz : Ulong) : HeapAllocator → Prop
  | seaMalloc | seaMallocAligned => True
  | seaMallocHavoc | seaMallocAlignedHavoc | canFailMallocHavoc | boundedMallocHavoc => sz = 0
  | seaMallocSafe | seaMallocHavocSafe | seaMallocAlignedSafe => False

/-- What it fills, if it fills anything, is given to it, and is large enough. -/
def Granted (env : AllocEnv) (h : Heap Uchar) (sz : Ulong) : HeapAllocator → Prop
  | seaMalloc | seaMallocAligned | seaMallocSafe | seaMallocAlignedSafe => True
  | seaMallocHavoc | canFailMallocHavoc | seaMallocHavocSafe | boundedMallocHavoc => sz ≠ 0 → env.Gives h sz
  | seaMallocAlignedHavoc => sz ≠ 0 → env.Gives h (awsAlignRoundUp sz 8) ∧ sz.toNat + 7 < 2 ^ 64

end HeapAllocator

/-- What a call wrote is in live blocks. -/
def Alloc.InBlocks (r : Alloc) : Prop := ∀ w ∈ r.writes, w.size = 0 ∨ ∃ b ∈ r.heap.live, w.Within b

instance (r : Alloc) : Decidable r.InBlocks := inferInstanceAs (Decidable (∀ w ∈ r.writes, _ ∨ ∃ b ∈ r.heap.live, _))

/-- A call of a program that allocates, or an access to the `i`th byte of an object. -/
inductive HeapCall where
  | malloc (f : HeapAllocator) (sz : Ulong)
  | realloc (ptr : Nat) (newSize : Ulong)
  | free (ptr : Nat)
  | store (ptr i : Nat) (v : Uchar)
  | load (ptr i : Nat)

/-- What it returns. -/
inductive HeapOut where
  | ptr (p : Nat)
  | byte (v : Uchar)
  | unit
  deriving DecidableEq, Repr

/-- What may be freed. -/
def Freeable (h : Heap Uchar) (ptr : Nat) : Prop := ptr = 0 ∨ ∃ b ∈ h.live, b.base = ptr

instance (h : Heap Uchar) (ptr : Nat) : Decidable (Freeable h ptr) := inferInstanceAs (Decidable (_ ∨ _))

/-- What may be accessed. -/
def Dereferenceable (h : Heap Uchar) (ptr i : Nat) : Prop := ∃ b ∈ h.live, b.base = ptr ∧ i < b.size

instance (h : Heap Uchar) (ptr i : Nat) : Decidable (Dereferenceable h ptr i) :=
  inferInstanceAs (Decidable (∃ b ∈ h.live, b.base = ptr ∧ i < b.size))

/-- A call on the heap. The model checker checks what is freed and accessed, and what `memhavoc` writes when it does. -/
def HeapCall.exec (env : AllocEnv) (h : Heap Uchar) : HeapCall → Outcome (HeapOut × Heap Uchar)
  | malloc f sz => do
    sassert (f.attempt env h sz).InBlocks
    let r ← f.call env h sz
    return (.ptr r.ptr, r.heap)
  | realloc ptr newSize => do
    sassert (Freeable h ptr)
    let r := libcRealloc env h ptr newSize
    return (.ptr r.ptr, r.heap)
  | free ptr => do
    sassert (Freeable h ptr)
    return (.unit, seaFree h ptr)
  | store ptr i v => do
    sassert (Dereferenceable h ptr i)
    return (.unit, h.fill ⟨ptr + i, 1⟩ fun _ => v)
  | load ptr i => do
    sassert (Dereferenceable h ptr i)
    return (.byte (h.mem (ptr + i)), h)

/-- An allocation that fills is given what it fills. -/
def HeapCall.Granted (env : AllocEnv) (h : Heap Uchar) : HeapCall → Prop
  | malloc f sz => f.Granted env h sz
  | _ => True

/-- A run of calls, each in an environment, with what they return. -/
def runCalls : List (AllocEnv × HeapCall) → Heap Uchar → Outcome (List (HeapCall × HeapOut) × Heap Uchar)
  | [], h => return ([], h)
  | (env, c) :: calls, h => do
    let (out, h) ← c.exec env h
    let (trace, h) ← runCalls calls h
    return ((c, out) :: trace, h)

/-! ## Objects -/

/-- The store of objects: what the object at an address holds. -/
abbrev Objects : Type := Nat → Option (List Uchar)

namespace Objects

/-- A new object of a size. -/
def Gives (o : Objects) (p size : Nat) (o' : Objects) : Prop :=
  p ≠ 0 ∧ o p = none ∧ ∃ bytes, bytes.length = size ∧ o' = Function.update o p (some bytes)

/-- A call that may be made. -/
def Legal (o : Objects) : HeapCall → Prop
  | .malloc _ _ => True
  | .realloc ptr _ | .free ptr => ptr = 0 ∨ (o ptr).isSome
  | .store ptr i _ | .load ptr i => ∃ bytes, o ptr = some bytes ∧ i < bytes.length

/-- A call on the store. A reallocation ends the object and keeps nothing of it. -/
def Step (o : Objects) : HeapCall → HeapOut → Objects → Prop
  | .malloc f sz, .ptr p, o' => (p = 0 ∧ f.MayBeNull sz ∧ o' = o) ∨ o.Gives p (f.blockSize sz) o'
  | .realloc ptr newSize, .ptr p, o' =>
    (p = 0 ∧ o' = Function.update o ptr none) ∨ Gives (Function.update o ptr none) p newSize.toNat o'
  | .free ptr, .unit, o' => o' = Function.update o ptr none
  | .store ptr i v, .unit, o' => ∃ bytes, o ptr = some bytes ∧ o' = Function.update o ptr (some (bytes.set i v))
  | .load ptr i, .byte v, o' => (∃ bytes, o ptr = some bytes ∧ bytes[i]? = some v) ∧ o' = o
  | _, _, _ => False

/-- A run of legal calls on the store, with what they return. -/
inductive Run : Objects → List (HeapCall × HeapOut) → Objects → Prop
  | nil (o : Objects) : Run o [] o
  | cons {o o' o'' : Objects} {c : HeapCall} {out : HeapOut} {trace : List (HeapCall × HeapOut)} (hlegal : o.Legal c)
      (hstep : o.Step c out o') (hrun : Run o' trace o'') : Run o ((c, out) :: trace) o''

end Objects

namespace AllocatorRunsAux

open AllocatorsAux

variable {env : AllocEnv} {h : Heap Uchar}

/-! ## Allocations -/

/-- A fresh block is a new object. -/
theorem gives_add {b : Block} (hb : h.Fresh (2 ^ 64) b) : Objects.Gives h.contents b.base b.size (h.add b hb).contents :=
  ⟨hb.nonNull, hb.contents, h.read b, h.length_read b, Heap.contents_add hb⟩

/-- And so it is when it is filled. -/
theorem gives_add_fill {b w : Block} (hb : h.Fresh (2 ^ 64) b) (hw : w.Within b) (bytes : Nat → Uchar) :
    Objects.Gives h.contents b.base b.size ((h.add b hb).fill w bytes).contents := by
  refine ⟨hb.nonNull, hb.contents, ((h.add b hb).fill w bytes).read b, Heap.length_read _ b, ?_⟩
  rw [Heap.contents_fill bytes List.mem_cons_self hw, Heap.contents_add hb, Function.update_idem]

/-- `sea_malloc` gives NULL and leaves the heap, or a new object. -/
theorem seaMalloc_gives (env : AllocEnv) (h : Heap Uchar) (sz : Ulong) :
    ((seaMalloc env h sz).ptr = 0 ∧ (seaMalloc env h sz).heap = h) ∨
      Objects.Gives h.contents (seaMalloc env h sz).ptr sz.toNat (seaMalloc env h sz).heap.contents := by
  rcases seaMalloc_cases env h sz with ⟨_, heq⟩ | ⟨_, b, hb, hsize, heq⟩
  · rw [heq]
    exact .inl ⟨rfl, rfl⟩
  · rw [heq, ← hsize]
    exact .inr (gives_add hb)

/-- A block that is filled is in bounds when there is something to fill only if it was given, and is large enough. -/
theorem inBlocks_havoc_iff {n sz : Ulong} :
    (memhavoc env (seaMalloc env h n) sz).InBlocks ↔ (sz ≠ 0 → env.Gives h n ∧ sz.toNat ≤ n.toNat) := by
  have hsize : sz ≠ 0 → sz.toNat ≠ 0 := fun hne hzero => hne (BitVec.eq_of_toNat_eq hzero)
  rcases seaMalloc_cases env h n with ⟨hno, heq⟩ | ⟨hgives, b, hb, hbsize, heq⟩
  · rw [heq]
    constructor
    · intro hin hne
      rcases hin _ List.mem_cons_self with hzero | ⟨c, hc, hzero | ⟨hle, _⟩⟩
      · exact absurd hzero (hsize hne)
      · exact absurd hzero (hsize hne)
      · exact absurd (Nat.le_zero.1 hle) (h.nonNull c hc)
    · intro himp w hw
      obtain rfl := List.mem_singleton.1 hw
      have hzero : sz = 0 := by_contra fun hne => hno (himp hne).1
      exact .inl (congrArg BitVec.toNat hzero)
  · rw [heq]
    constructor
    · intro hin hne
      refine ⟨hgives, ?_⟩
      rcases hin _ List.mem_cons_self with hzero | ⟨c, hc, hwithin⟩
      · exact absurd hzero (hsize hne)
      · rcases List.mem_cons.1 hc with rfl | hc
        · obtain ⟨_, hle⟩ := hwithin.resolve_left (hsize hne)
          dsimp only at hle
          omega
        · exact absurd hwithin ((hb.apart c hc).not_within rfl (hsize hne))
    · intro himp w hw
      obtain rfl := List.mem_singleton.1 hw
      by_cases hzero : sz = 0
      · exact .inl (congrArg BitVec.toNat hzero)
      · obtain ⟨_, hle⟩ := himp hzero
        exact .inr ⟨b, List.mem_cons_self, .inr ⟨Nat.le_refl _, by dsimp only; omega⟩⟩

/-- A filled block that is in bounds is nothing, or a new object. -/
theorem havoc_gives {n sz : Ulong} (hfill : sz ≠ 0 → env.Gives h n ∧ sz.toNat ≤ n.toNat) :
    ((memhavoc env (seaMalloc env h n) sz).ptr = 0 ∧ sz = 0 ∧ (memhavoc env (seaMalloc env h n) sz).heap = h) ∨
      Objects.Gives h.contents (memhavoc env (seaMalloc env h n) sz).ptr n.toNat
        (memhavoc env (seaMalloc env h n) sz).heap.contents := by
  rcases seaMalloc_cases env h n with ⟨hno, heq⟩ | ⟨_, b, hb, hsize, heq⟩
  · obtain rfl : sz = 0 := by_contra fun hne => hno (hfill hne).1
    rw [heq]
    exact .inl ⟨rfl, rfl, Heap.fill_empty h 0 env.havoc⟩
  · rw [heq, ← hsize]
    have hwithin : (⟨b.base, sz.toNat⟩ : Block).Within b := by
      by_cases hzero : sz = 0
      · exact .inl (congrArg BitVec.toNat hzero)
      · exact .inr ⟨Nat.le_refl _, Nat.add_le_add_left (hsize ▸ (hfill hzero).2) _⟩
    exact .inr (gives_add_fill hb hwithin env.havoc)

/-- `malloc` is `sea_malloc` when that does not fail on its own. -/
theorem libcMalloc_eq (env : AllocEnv) (h : Heap Uchar) (sz : Ulong) :
    libcMalloc env h sz = seaMalloc { env with ndMallocIsFail := false } h sz := rfl

/-- A call that writes nothing is in bounds. -/
theorem inBlocks_nothing (p : Nat) (h : Heap Uchar) : (⟨p, h, []⟩ : Alloc).InBlocks := List.forall_mem_nil _

/-- `sea_malloc` writes nothing. -/
theorem inBlocks_seaMalloc (env : AllocEnv) (h : Heap Uchar) (sz : Ulong) : (seaMalloc env h sz).InBlocks := by
  rcases seaMalloc_cases env h sz with ⟨_, heq⟩ | ⟨_, b, hb, _, heq⟩
  · rw [heq]
    exact inBlocks_nothing 0 h
  · rw [heq]
    exact inBlocks_nothing b.base (h.add b hb)

/-- What an allocator writes is in bounds exactly when it is given what it fills. -/
theorem inBlocks_iff (f : HeapAllocator) (sz : Ulong) : (f.attempt env h sz).InBlocks ↔ f.Granted env h sz := by
  have hhavoc : (seaMallocHavoc env h sz).InBlocks ↔ (sz ≠ 0 → env.Gives h sz) := by
    rw [seaMallocHavoc, inBlocks_havoc_iff]
    exact forall_congr' fun _ => and_iff_left (Nat.le_refl _)
  have hcanFail : (canFailMallocHavoc env h sz).InBlocks ↔ (sz ≠ 0 → env.Gives h sz) := by
    rw [canFailMallocHavoc]
    by_cases hzero : sz = 0
    · rw [if_pos hzero]
      exact iff_of_true (inBlocks_nothing 0 h) fun hne => absurd hzero hne
    · rw [if_neg hzero]
      exact hhavoc
  cases f with
  | seaMalloc => exact iff_of_true (inBlocks_seaMalloc env h sz) trivial
  | seaMallocSafe => exact iff_of_true (inBlocks_seaMalloc { env with ndMallocIsFail := false } h sz) trivial
  | seaMallocAligned | seaMallocAlignedSafe => exact iff_of_true (inBlocks_seaMalloc env h _) trivial
  | seaMallocHavoc | seaMallocHavocSafe => exact hhavoc
  | canFailMallocHavoc | boundedMallocHavoc => exact hcanFail
  | seaMallocAlignedHavoc =>
    rw [HeapAllocator.attempt, seaMallocAlignedHavoc, seaMallocAligned, inBlocks_havoc_iff, le_roundUp_iff]
    exact Iff.rfl

/-- A call that is done is the attempt, and was given a block if it assumes that. -/
theorem call_eq_done_iff {f : HeapAllocator} {sz : Ulong} {r : Alloc} :
    f.call env h sz = .done r ↔ r = f.attempt env h sz ∧ (f.Assumes sz → r.ptr ≠ 0) := by
  have hreturn : ∀ a : Alloc, (return a : Outcome Alloc) = .done r ↔ r = a ∧ (False → r.ptr ≠ 0) := by
    intro a
    rw [pure_eq_done, false_imp_iff, and_true, eq_comm]
  have hassume : ∀ {p : Prop} (a : Alloc), p →
      ((do assume (a.ptr ≠ 0); return a : Outcome Alloc) = .done r ↔ r = a ∧ (p → r.ptr ≠ 0)) := by
    intro p a hp
    rw [assume_bind_eq_done, pure_eq_done, imp_iff_right hp]
    constructor
    · rintro ⟨hptr, rfl⟩
      exact ⟨rfl, hptr⟩
    · rintro ⟨rfl, hptr⟩
      exact ⟨hptr, rfl⟩
  cases f with
  | seaMalloc | seaMallocAligned | seaMallocHavoc | seaMallocAlignedHavoc | canFailMallocHavoc => exact hreturn _
  | seaMallocSafe | seaMallocHavocSafe | seaMallocAlignedSafe => exact hassume _ trivial
  | boundedMallocHavoc =>
    rw [HeapAllocator.call, boundedMallocHavoc, HeapAllocator.attempt, canFailMallocHavoc]
    by_cases hzero : sz = 0
    · rw [if_pos hzero, if_pos hzero, pure_eq_done, eq_comm]
      exact (and_iff_left fun hne => absurd hzero hne).symm
    · rw [if_neg hzero, if_neg hzero]
      exact hassume _ hzero

/-- An allocation itself asserts nothing. -/
theorem call_ne_failed (f : HeapAllocator) (sz : Ulong) : f.call env h sz ≠ .failed := by
  have hassume : ∀ a : Alloc, (do assume (a.ptr ≠ 0); return a : Outcome Alloc) ≠ .failed :=
    fun a => assume_bind_ne_failed fun _ => pure_ne_failed
  cases f with
  | seaMalloc | seaMallocAligned | seaMallocHavoc | seaMallocAlignedHavoc | canFailMallocHavoc => exact pure_ne_failed
  | seaMallocSafe | seaMallocHavocSafe | seaMallocAlignedSafe => exact hassume _
  | boundedMallocHavoc =>
    rw [HeapAllocator.call, boundedMallocHavoc]
    by_cases hzero : sz = 0
    · rw [if_pos hzero]
      exact pure_ne_failed
    · rw [if_neg hzero]
      exact hassume _

/-- An allocation that is given what it fills is one on the store. -/
theorem call_step {f : HeapAllocator} {sz : Ulong} {r : Alloc} (hgranted : f.Granted env h sz)
    (hdone : f.call env h sz = .done r) : Objects.Step h.contents (.malloc f sz) (.ptr r.ptr) r.heap.contents := by
  have hhavoc : (sz ≠ 0 → env.Gives h sz) →
      ((seaMallocHavoc env h sz).ptr = 0 ∧ sz = 0 ∧ (seaMallocHavoc env h sz).heap = h) ∨
        Objects.Gives h.contents (seaMallocHavoc env h sz).ptr sz.toNat (seaMallocHavoc env h sz).heap.contents :=
    fun hgives => havoc_gives fun hne => ⟨hgives hne, Nat.le_refl _⟩
  obtain ⟨rfl, hptr⟩ := call_eq_done_iff.1 hdone
  cases f with
  | seaMalloc => exact (seaMalloc_gives env h sz).imp (fun hnull => ⟨hnull.1, trivial, congrArg _ hnull.2⟩) id
  | seaMallocAligned => exact (seaMalloc_gives env h _).imp (fun hnull => ⟨hnull.1, trivial, congrArg _ hnull.2⟩) id
  | seaMallocHavoc => exact (hhavoc hgranted).imp (fun hnull => ⟨hnull.1, hnull.2.1, congrArg _ hnull.2.2⟩) id
  | seaMallocAlignedHavoc =>
    have hfill : sz ≠ 0 → env.Gives h (awsAlignRoundUp sz 8) ∧ sz.toNat ≤ (awsAlignRoundUp sz 8).toNat :=
      fun hne => (hgranted hne).imp id (le_roundUp_iff sz).2
    exact (havoc_gives hfill).imp (fun hnull => ⟨hnull.1, hnull.2.1, congrArg _ hnull.2.2⟩) id
  | canFailMallocHavoc | boundedMallocHavoc =>
    rw [HeapAllocator.attempt, canFailMallocHavoc]
    by_cases hzero : sz = 0
    · rw [if_pos hzero]
      exact .inl ⟨rfl, hzero, rfl⟩
    · rw [if_neg hzero]
      exact .inr ((hhavoc hgranted).resolve_left fun hnull => hzero hnull.2.1)
  | seaMallocSafe =>
    rw [HeapAllocator.attempt, libcMalloc_eq] at hptr ⊢
    exact .inr ((seaMalloc_gives _ h sz).resolve_left fun hnull => hptr trivial hnull.1)
  | seaMallocHavocSafe => exact .inr ((hhavoc hgranted).resolve_left fun hnull => hptr trivial hnull.1)
  | seaMallocAlignedSafe => exact .inr ((seaMalloc_gives env h _).resolve_left fun hnull => hptr trivial hnull.1)

/-- A reallocation ends an object, and gives NULL or a new one. -/
theorem realloc_step (env : AllocEnv) (h : Heap Uchar) (ptr : Nat) (newSize : Ulong) :
    Objects.Step h.contents (.realloc ptr newSize) (.ptr (libcRealloc env h ptr newSize).ptr)
      (libcRealloc env h ptr newSize).heap.contents := by
  have hfree : (if ptr ≠ 0 then seaFree h ptr else h).contents = Function.update h.contents ptr none := by
    split_ifs with hptr
    · exact Heap.contents_free h ptr
    · rw [not_not.1 hptr, ← h.contents_null, Function.update_eq_self]
  rw [libcRealloc, seaRealloc, Objects.Step, ← hfree]
  exact (seaMalloc_gives env _ newSize).imp (fun hnull => ⟨hnull.1, congrArg _ hnull.2⟩) id

/-! ## Accesses -/

theorem freeable_iff {ptr : Nat} : Freeable h ptr ↔ ptr = 0 ∨ (h.contents ptr).isSome := by
  refine or_congr_right ⟨?_, fun hsome => ?_⟩
  · rintro ⟨b, hb, rfl⟩
    rw [Heap.contents_of_live hb, Option.isSome_some]
  · obtain ⟨bytes, hbytes⟩ := Option.isSome_iff_exists.1 hsome
    obtain ⟨b, hb, hbase, _⟩ := Heap.exists_of_contents hbytes
    exact ⟨b, hb, hbase⟩

theorem dereferenceable_iff {ptr i : Nat} :
    Dereferenceable h ptr i ↔ ∃ bytes, h.contents ptr = some bytes ∧ i < bytes.length := by
  constructor
  · rintro ⟨b, hb, rfl, hi⟩
    exact ⟨h.read b, Heap.contents_of_live hb, (h.length_read b).symm ▸ hi⟩
  · rintro ⟨bytes, hbytes, hi⟩
    obtain ⟨b, hb, hbase, rfl⟩ := Heap.exists_of_contents hbytes
    exact ⟨b, hb, hbase, h.length_read b ▸ hi⟩

theorem store_step {ptr i : Nat} (v : Uchar) (hd : Dereferenceable h ptr i) :
    Objects.Step h.contents (.store ptr i v) .unit (h.fill ⟨ptr + i, 1⟩ fun _ => v).contents := by
  obtain ⟨b, hb, rfl, hi⟩ := hd
  have hwithin : (⟨b.base + i, 1⟩ : Block).Within b := .inr ⟨Nat.le_add_right _ _, Nat.add_le_add_left hi _⟩
  refine ⟨h.read b, Heap.contents_of_live hb, ?_⟩
  rw [Heap.contents_fill _ hb hwithin, Heap.read_fill_one]

theorem load_step {ptr i : Nat} (hd : Dereferenceable h ptr i) :
    Objects.Step h.contents (.load ptr i) (.byte (h.mem (ptr + i))) h.contents := by
  obtain ⟨b, hb, rfl, hi⟩ := hd
  exact ⟨⟨h.read b, Heap.contents_of_live hb, h.getElem?_read hi⟩, rfl⟩

/-! ## Steps and runs -/

/-- A call that is done is a legal one on the store, with the same result. -/
theorem exec_step {c : HeapCall} {out : HeapOut} {h' : Heap Uchar} (hdone : c.exec env h = .done (out, h')) :
    Objects.Legal h.contents c ∧ Objects.Step h.contents c out h'.contents := by
  cases c with
  | malloc f sz =>
    obtain ⟨hin, hrest⟩ := sassert_bind_eq_done.1 hdone
    obtain ⟨r, hr, hret⟩ := bind_eq_done.1 hrest
    cases pure_eq_done.1 hret
    exact ⟨trivial, call_step ((inBlocks_iff f sz).1 hin) hr⟩
  | realloc ptr newSize =>
    obtain ⟨hf, hret⟩ := sassert_bind_eq_done.1 hdone
    cases pure_eq_done.1 hret
    exact ⟨freeable_iff.1 hf, realloc_step env h ptr newSize⟩
  | free ptr =>
    obtain ⟨hf, hret⟩ := sassert_bind_eq_done.1 hdone
    cases pure_eq_done.1 hret
    exact ⟨freeable_iff.1 hf, Heap.contents_free h ptr⟩
  | store ptr i v =>
    obtain ⟨hd, hret⟩ := sassert_bind_eq_done.1 hdone
    cases pure_eq_done.1 hret
    exact ⟨dereferenceable_iff.1 hd, store_step v hd⟩
  | load ptr i =>
    obtain ⟨hd, hret⟩ := sassert_bind_eq_done.1 hdone
    cases pure_eq_done.1 hret
    exact ⟨dereferenceable_iff.1 hd, load_step hd⟩

/-- A call fails exactly when it is not legal on the store, or fills what it is not given. -/
theorem exec_eq_failed_iff {c : HeapCall} :
    c.exec env h = .failed ↔ ¬(Objects.Legal h.contents c ∧ c.Granted env h) := by
  have hasserts : ∀ {p q : Prop} [Decidable p] {f : Unit → Outcome (HeapOut × Heap Uchar)}, (p ↔ q) → f () ≠ .failed →
      ((sassert p >>= f) = .failed ↔ ¬(q ∧ True)) := by
    intro p q _ f hpq hf
    rw [sassert_bind_eq_failed, or_iff_left hf, hpq, and_true]
  cases c with
  | malloc f sz =>
    have hrest : (f.call env h sz >>= fun r => return (.ptr r.ptr, r.heap) : Outcome (HeapOut × Heap Uchar)) ≠ .failed :=
      bind_ne_failed (call_ne_failed f sz) fun _ _ => pure_ne_failed
    rw [HeapCall.exec, sassert_bind_eq_failed, or_iff_left hrest, inBlocks_iff]
    exact not_congr (true_and _).symm.to_iff
  | realloc ptr newSize | free ptr => exact hasserts freeable_iff pure_ne_failed
  | store ptr i v | load ptr i => exact hasserts dereferenceable_iff pure_ne_failed

/-- A run that is done is a run on the store. -/
theorem runCalls_run {calls : List (AllocEnv × HeapCall)} {h h' : Heap Uchar} {trace : List (HeapCall × HeapOut)}
    (hdone : runCalls calls h = .done (trace, h')) :
    trace.map Prod.fst = calls.map Prod.snd ∧ Objects.Run h.contents trace h'.contents := by
  induction calls generalizing h trace with
  | nil =>
    cases pure_eq_done.1 hdone
    exact ⟨rfl, .nil _⟩
  | cons c calls ih =>
    obtain ⟨⟨out, h1⟩, hexec, hrest⟩ := bind_eq_done.1 hdone
    obtain ⟨⟨rest, h2⟩, hrun, hret⟩ := bind_eq_done.1 hrest
    cases pure_eq_done.1 hret
    obtain ⟨hlegal, hstep⟩ := exec_step hexec
    obtain ⟨hmap, hrun⟩ := ih hrun
    exact ⟨congrArg (c.2 :: ·) hmap, .cons hlegal hstep hrun⟩

/-- A run fails in its first call, or in the others. -/
theorem runCalls_cons_failed {c : AllocEnv × HeapCall} {calls : List (AllocEnv × HeapCall)} :
    runCalls (c :: calls) h = .failed ↔
      c.2.exec c.1 h = .failed ∨ ∃ r, c.2.exec c.1 h = .done r ∧ runCalls calls r.2 = .failed := by
  refine bind_eq_failed.trans (or_congr_right (exists_congr fun r => and_congr_right fun _ => ?_))
  refine bind_eq_failed.trans (or_iff_left ?_)
  rintro ⟨_, _, hret⟩
  exact pure_ne_failed hret

/-- A run fails exactly when calls are done up to one that fails. -/
theorem runCalls_failed_iff {calls : List (AllocEnv × HeapCall)} {h : Heap Uchar} :
    runCalls calls h = .failed ↔ ∃ pre c post trace h', calls = pre ++ c :: post ∧ runCalls pre h = .done (trace, h') ∧
      ¬(Objects.Legal h'.contents c.2 ∧ c.2.Granted c.1 h') := by
  induction calls generalizing h with
  | nil =>
    refine ⟨nofun, ?_⟩
    rintro ⟨pre, c, post, _, _, heq, _⟩
    exact absurd heq.symm (List.append_ne_nil_of_right_ne_nil pre (List.cons_ne_nil c post))
  | cons d calls ih =>
    rw [runCalls_cons_failed]
    constructor
    · rintro (hexec | ⟨r, hexec, hrest⟩)
      · exact ⟨[], d, calls, [], h, rfl, rfl, exec_eq_failed_iff.1 hexec⟩
      · obtain ⟨pre, c, post, trace, h', rfl, hpre, hnot⟩ := ih.1 hrest
        refine ⟨d :: pre, c, post, (d.2, r.1) :: trace, h', rfl, ?_, hnot⟩
        exact bind_eq_done.2 ⟨r, hexec, bind_eq_done.2 ⟨_, hpre, rfl⟩⟩
    · rintro ⟨pre, c, post, trace, h', heq, hpre, hnot⟩
      cases pre with
      | nil =>
        obtain ⟨rfl, rfl⟩ := List.cons.inj heq
        cases pure_eq_done.1 hpre
        exact .inl (exec_eq_failed_iff.2 hnot)
      | cons e pre =>
        obtain ⟨rfl, rfl⟩ := List.cons.inj heq
        obtain ⟨r, hexec, hrest⟩ := bind_eq_done.1 hpre
        obtain ⟨⟨rest, h2⟩, hrun, hret⟩ := bind_eq_done.1 hrest
        cases pure_eq_done.1 hret
        exact .inr ⟨r, hexec, ih.2 ⟨pre, c, post, rest, h', rfl, hrun, hnot⟩⟩

end AllocatorRunsAux

open AllocatorRunsAux in
/-- The heap of blocks refines the store of objects. A run of any calls that is done is one of legal calls on the store, with the
same pointers and bytes, and a run fails exactly when its calls are done up to one that is not legal on the store, or that fills
what it is not given. -/
theorem heap_refines_objects (calls : List (AllocEnv × HeapCall)) (h : Heap Uchar) :
    (∀ trace h', runCalls calls h = .done (trace, h') →
      trace.map Prod.fst = calls.map Prod.snd ∧ Objects.Run h.contents trace h'.contents) ∧
    (runCalls calls h = .failed ↔ ∃ pre c post trace h', calls = pre ++ c :: post ∧ runCalls pre h = .done (trace, h') ∧
      ¬(Objects.Legal h'.contents c.2 ∧ c.2.Granted c.1 h')) :=
  ⟨fun _ _ hdone => runCalls_run hdone, runCalls_failed_iff⟩

/-- `sea_malloc_havoc_safe` fills at NULL before it assumes that it was given a block. -/
example : runCalls [(firstAt16 true, .malloc .seaMallocHavocSafe 8)] emptyHeap = .failed := rfl

/-- The call ends the object or writes its byte. -/
def HeapCall.Touches (ptr i : Nat) : HeapCall → Prop
  | malloc _ _ | load _ _ => False
  | realloc q _ | free q => q = ptr
  | store q j _ => q = ptr ∧ j = i

instance (ptr i : Nat) : (c : HeapCall) → Decidable (c.Touches ptr i)
  | .malloc _ _ | .load _ _ => inferInstanceAs (Decidable False)
  | .realloc q _ | .free q => inferInstanceAs (Decidable (q = ptr))
  | .store q j _ => inferInstanceAs (Decidable (q = ptr ∧ j = i))

namespace AllocatorRunsAux

variable {o o' : Objects} {ptr i : Nat} {v : Uchar}

/-- The object has the byte. -/
def HoldsByte (o : Objects) (ptr i : Nat) (v : Uchar) : Prop := ∃ bytes, o ptr = some bytes ∧ bytes[i]? = some v

theorem holdsByte_of_eq (ho : HoldsByte o ptr i v) (heq : o' ptr = o ptr) : HoldsByte o' ptr i v := by
  obtain ⟨bytes, hbytes, hv⟩ := ho
  exact ⟨bytes, heq.trans hbytes, hv⟩

/-- A new object is not where one is. -/
theorem holdsByte_gives {p size : Nat} (ho : HoldsByte o ptr i v) (hgives : o.Gives p size o') : HoldsByte o' ptr i v := by
  obtain ⟨_, hnone, bytes, _, rfl⟩ := hgives
  have hne : ptr ≠ p := by
    rintro rfl
    obtain ⟨bytes', hbytes', _⟩ := ho
    cases hnone.symm.trans hbytes'
  exact holdsByte_of_eq ho (Function.update_of_ne hne _ _)

/-- A call that does not touch the byte leaves it. -/
theorem holdsByte_step {c : HeapCall} {out : HeapOut} (ho : HoldsByte o ptr i v) (hc : ¬c.Touches ptr i)
    (hstep : o.Step c out o') : HoldsByte o' ptr i v := by
  cases c with
  | malloc f sz =>
    cases out with
    | ptr p =>
      rcases hstep with ⟨_, _, rfl⟩ | hgives
      · exact ho
      · exact holdsByte_gives ho hgives
    | byte | unit => exact hstep.elim
  | realloc q newSize =>
    cases out with
    | ptr p =>
      have hother : HoldsByte (Function.update o q none) ptr i v :=
        holdsByte_of_eq ho (Function.update_of_ne (fun hp => hc hp.symm) _ _)
      rcases hstep with ⟨_, rfl⟩ | hgives
      · exact hother
      · exact holdsByte_gives hother hgives
    | byte | unit => exact hstep.elim
  | free q =>
    cases out with
    | unit =>
      obtain rfl : o' = _ := hstep
      exact holdsByte_of_eq ho (Function.update_of_ne (fun hp => hc hp.symm) _ _)
    | ptr | byte => exact hstep.elim
  | store q j w =>
    cases out with
    | unit =>
      obtain ⟨bytes, hbytes, rfl⟩ := hstep
      by_cases hp : ptr = q
      · -- another byte of the object
        subst hp
        have hj : j ≠ i := fun hj => hc ⟨rfl, hj⟩
        obtain ⟨bytes', hbytes', hv⟩ := ho
        obtain rfl := Option.some.inj (hbytes.symm.trans hbytes')
        exact ⟨bytes.set j w, Function.update_self .., by rw [List.getElem?_set_ne hj, hv]⟩
      · exact holdsByte_of_eq ho (Function.update_of_ne hp _ _)
    | ptr | byte => exact hstep.elim
  | load q j =>
    cases out with
    | byte w =>
      obtain ⟨_, rfl⟩ := hstep
      exact ho
    | ptr | unit => exact hstep.elim

/-- A run that does not touch the byte leaves it. -/
theorem holdsByte_run {trace : List (HeapCall × HeapOut)} (ho : HoldsByte o ptr i v)
    (hc : ∀ c ∈ trace.map Prod.fst, ¬c.Touches ptr i) (hrun : Objects.Run o trace o') : HoldsByte o' ptr i v := by
  induction hrun with
  | nil => exact ho
  | cons hlegal hstep hrun ih =>
    rw [List.map_cons, List.forall_mem_cons] at hc
    exact ih (holdsByte_step ho hc.1 hstep) hc.2

/-- A byte that an object has can be loaded. -/
theorem exec_load {env : AllocEnv} {h : Heap Uchar} (ho : HoldsByte h.contents ptr i v) :
    (HeapCall.load ptr i).exec env h = .done (.byte v, h) := by
  obtain ⟨bytes, hbytes, hv⟩ := ho
  obtain ⟨b, hb, rfl, rfl⟩ := Heap.exists_of_contents hbytes
  have hi : i < b.size := by
    by_contra hge
    rw [List.getElem?_eq_none (by rw [Heap.length_read]; omega)] at hv
    cases hv
  rw [h.getElem?_read hi] at hv
  obtain rfl := Option.some.inj hv
  exact sassert_bind_eq_done.2 ⟨⟨b, hb, rfl, hi⟩, rfl⟩

end AllocatorRunsAux

open AllocatorRunsAux in
/-- A byte that was stored in an object is what is loaded after any calls that neither free the object, nor reallocate it, nor
store to the byte. -/
theorem stored_until_freed (env env' : AllocEnv) (h h' : Heap Uchar) (ptr i : Nat) (v : Uchar)
    (calls : List (AllocEnv × HeapCall)) (hcalls : ∀ c ∈ calls, ¬c.2.Touches ptr i) (trace : List (HeapCall × HeapOut))
    (hdone : runCalls ((env, .store ptr i v) :: calls) h = .done (trace, h')) :
    (HeapCall.load ptr i).exec env' h' = .done (.byte v, h') := by
  obtain ⟨⟨out, h1⟩, hexec, hrest⟩ := bind_eq_done.1 hdone
  obtain ⟨⟨rest, h2⟩, hrun, hret⟩ := bind_eq_done.1 hrest
  cases pure_eq_done.1 hret
  obtain ⟨⟨bytes, hbytes, hi⟩, hstep⟩ := exec_step hexec
  obtain ⟨hmap, hrun⟩ := runCalls_run hrun
  have hstored : HoldsByte h1.contents ptr i v := by
    cases out with
    | unit =>
      obtain ⟨bytes', hbytes', heq⟩ := hstep
      obtain rfl := Option.some.inj (hbytes.symm.trans hbytes')
      rw [heq]
      exact ⟨bytes.set i v, Function.update_self .., List.getElem?_set_self hi⟩
    | ptr | byte => exact hstep.elim
  refine exec_load (holdsByte_run hstored ?_ hrun)
  rw [hmap]
  intro c hc
  obtain ⟨d, hd, rfl⟩ := List.mem_map.1 hc
  exact hcalls d hd

/-- An environment that puts the next block after the first. -/
def nextAt32 : AllocEnv where
  ndMallocIsFail := false
  malloc := fun h n =>
    if hone : h.live = [⟨16, 8⟩] ∧ 32 + n ≤ 2 ^ 64 then
      some ⟨32, (by decide : (32 : Nat) ≠ 0), hone.2, fun c hc => by
        rw [hone.1, List.mem_singleton] at hc
        subst hc
        exact ⟨(by decide : (32 : Nat) ≠ 16), .inr (by decide : 16 + 8 ≤ 32)⟩⟩
    else none
  havoc := fun _ => 255

/-- The byte is still there after another block was filled, written and freed. -/
theorem stored_until_freed_two :
    ∃ h', (HeapCall.load 16 3).exec nextAt32 h' = .done (.byte 7, h') ∧ h'.live = [⟨16, 8⟩] := by
  refine ⟨_, stored_until_freed nextAt32 nextAt32 oneBlock _ 16 3 7
    [(nextAt32, .malloc .boundedMallocHavoc 4), (nextAt32, .store 32 0 9), (nextAt32, .store 16 2 5), (nextAt32, .free 32)]
    (by decide) _ rfl, ?_⟩
  rfl

end VerifyFiredancer
