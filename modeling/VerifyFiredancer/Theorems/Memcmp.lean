import VerifyFiredancer.Lemmas.Bcmp

/-!
# The comparisons of memory

`bcmp` and `memcmp` compare as they should, whatever the bound their loops are pre-unrolled for, but for one shortcut: `bcmp` has
a pointer that is NULL differ from one that is not before it looks at the length, and so says that two buffers of no bytes differ.
-/

namespace VerifyFiredancer

open ByteMem ReadScan BcmpAux

/-- The `n` bytes at `p`, as numbers. -/
def bytesAt (m : Mem) (p n : Nat) : List Nat := (List.range n).map fun i => (m (p + i)).toNat

/-- There is a buffer of `n` bytes at `p`; only one of none may be at NULL. -/
def IsBuffer (p n : Nat) : Prop := n = 0 ∨ p ≠ null

/-- The comparisons of two buffers of `n` bytes are right: `bcmp` as to whether they are the same, `memcmp` as to their order,
and neither reads anything else. -/
structure ComparesExactly (m : Mem) (maxBufferSize s1 s2 n : Nat) : Prop where
  bcmpEq : (bcmp maxBufferSize s1 s2 n).result m = 0 ↔ bytesAt m s1 n = bytesAt m s2 n
  memcmpOrder : ((memcmp maxBufferSize s1 s2 n).result m = -1 ∧ bytesAt m s1 n < bytesAt m s2 n) ∨
    ((memcmp maxBufferSize s1 s2 n).result m = 0 ∧ bytesAt m s1 n = bytesAt m s2 n) ∨
    ((memcmp maxBufferSize s1 s2 n).result m = 1 ∧ bytesAt m s2 n < bytesAt m s1 n)
  agree : (bcmp maxBufferSize s1 s2 n).result m = 0 ↔ (memcmp maxBufferSize s1 s2 n).result m = 0
  bcmpReads : ∀ a ∈ (bcmp maxBufferSize s1 s2 n).reads m, ∃ i, i < n ∧ (a = s1 + i ∨ a = s2 + i)
  memcmpReads : ∀ a ∈ (memcmp maxBufferSize s1 s2 n).reads m, ∃ i, i < n ∧ (a = s1 + i ∨ a = s2 + i)

/-- The comparisons of any two buffers are right. -/
def AlwaysCompareExactly : Prop :=
  ∀ m maxBufferSize s1 s2 n, IsBuffer s1 n → IsBuffer s2 n → ComparesExactly m maxBufferSize s1 s2 n

namespace MemcmpAux

variable {m : Mem} {s1 s2 n i : Nat}

/-- The bytes are the same when they are at every index. -/
theorem bytesAt_eq_iff : bytesAt m s1 n = bytesAt m s2 n ↔ ∀ i, i < n → m (s1 + i) = m (s2 + i) := by
  simp [bytesAt, BitVec.toNat_inj]

/-- The order of the bytes is that at the first difference. -/
theorem bytesAt_lt_of_firstDiff (h : FirstDiff m s1 s2 n i) (hlt : m (s1 + i) < m (s2 + i)) : bytesAt m s1 n < bytesAt m s2 n := by
  refine List.lt_iff_exists.2 (Or.inr ⟨i, ?_, ?_, fun j hj => ?_, ?_⟩)
  · simpa [bytesAt] using h.lt
  · simpa [bytesAt] using h.lt
  · simp [bytesAt, h.before j hj]
  · simpa [bytesAt] using BitVec.lt_def.1 hlt

theorem FirstDiff.symm (h : FirstDiff m s1 s2 n i) : FirstDiff m s2 s1 n i :=
  ⟨h.lt, fun j hj => (h.before j hj).symm, h.ne.symm⟩

/-- What `memcmp` says of the order. -/
theorem memcmp_order (maxBufferSize : Nat) (m : Mem) (s1 s2 n : Nat) :
    ((memcmp maxBufferSize s1 s2 n).result m = -1 ∧ bytesAt m s1 n < bytesAt m s2 n) ∨
      ((memcmp maxBufferSize s1 s2 n).result m = 0 ∧ bytesAt m s1 n = bytesAt m s2 n) ∨
      ((memcmp maxBufferSize s1 s2 n).result m = 1 ∧ bytesAt m s2 n < bytesAt m s1 n) := by
  rcases agree_or_firstDiff m s1 s2 n with hagree | ⟨i, hdiff⟩
  · exact Or.inr (Or.inl ⟨memcmp_of_agree maxBufferSize hagree, bytesAt_eq_iff.2 hagree⟩)
  · have hres := memcmp_of_firstDiff maxBufferSize hdiff
    by_cases hlt : m (s1 + i) < m (s2 + i)
    · rw [if_pos hlt] at hres
      exact Or.inl ⟨hres, bytesAt_lt_of_firstDiff hdiff hlt⟩
    · rw [if_neg hlt] at hres
      have hgt : m (s2 + i) < m (s1 + i) := by
        have hne := hdiff.ne
        rw [ne_eq, ← BitVec.toNat_inj] at hne
        rw [BitVec.lt_def] at hlt ⊢
        omega
      exact Or.inr (Or.inr ⟨hres, bytesAt_lt_of_firstDiff (FirstDiff.symm hdiff) hgt⟩)

/-- What `memcmp` says of equality. -/
theorem memcmp_eq_zero_iff (maxBufferSize : Nat) :
    (memcmp maxBufferSize s1 s2 n).result m = 0 ↔ bytesAt m s1 n = bytesAt m s2 n := by
  rcases memcmp_order maxBufferSize m s1 s2 n with ⟨hres, hlt⟩ | ⟨hres, heq⟩ | ⟨hres, hlt⟩
  · rw [hres]
    exact iff_of_false (by decide) fun heq => List.lt_irrefl _ (heq ▸ hlt)
  · exact iff_of_true hres heq
  · rw [hres]
    exact iff_of_false (by decide) fun heq => List.lt_irrefl _ (heq ▸ hlt)

/-- What `bcmp` says, when it looks at the buffers. -/
theorem bcmp_eq_zero_iff (maxBufferSize : Nat) (h1 : s1 ≠ null) (h2 : s2 ≠ null) :
    (bcmp maxBufferSize s1 s2 n).result m = 0 ↔ bytesAt m s1 n = bytesAt m s2 n := by
  by_cases hne : s1 = s2
  · rw [bcmp, if_pos hne, hne]
    exact iff_of_true rfl rfl
  · rw [bcmp_eq maxBufferSize h1 h2 hne, result_bind, bytesAt_eq_iff]
    rcases agree_or_firstDiff m s1 s2 n with hagree | ⟨i, hdiff⟩
    · rw [compareScan_of_agree hagree]
      exact iff_of_true rfl hagree
    · rw [compareScan_of_firstDiff hdiff]
      exact iff_of_false Int.one_ne_zero (FirstDiff.not_agree hdiff)

/-- `bcmp` reads the two buffers only. -/
theorem reads_bcmp {maxBufferSize a : Nat} (h : a ∈ (bcmp maxBufferSize s1 s2 n).reads m) :
    ∃ i, i < n ∧ (a = s1 + i ∨ a = s2 + i) := by
  by_cases hne : s1 = s2
  · rw [bcmp, if_pos hne] at h
    exact absurd h List.not_mem_nil
  · by_cases hnull : s1 = null ∨ s2 = null
    · rw [bcmp, if_neg hne, if_pos hnull] at h
      exact absurd h List.not_mem_nil
    · rw [not_or] at hnull
      rw [bcmp_eq maxBufferSize hnull.1 hnull.2 hne, reads_bind, reads_pure, List.append_nil] at h
      exact reads_compareScan h

/-- `bcmp` of a pointer that is NULL and one that is not. -/
theorem bcmp_null (maxBufferSize : Nat) (h : ¬(s1 = null ↔ s2 = null)) : (bcmp maxBufferSize s1 s2 n).result m = 1 := by
  have hne : s1 ≠ s2 := by
    rintro rfl
    exact h Iff.rfl
  have hnull : s1 = null ∨ s2 = null := by
    by_contra hno
    rw [not_or] at hno
    exact h (iff_of_false hno.1 hno.2)
  rw [bcmp, if_neg hne, if_pos hnull]
  rfl

end MemcmpAux

open MemcmpAux

/-- The comparisons of two buffers are right exactly when they have bytes, or neither or both pointers are NULL. -/
theorem memcmp_exact_iff (m : Mem) (maxBufferSize s1 s2 n : Nat) (h1 : IsBuffer s1 n) (h2 : IsBuffer s2 n) :
    ComparesExactly m maxBufferSize s1 s2 n ↔ n ≠ 0 ∨ (s1 = null ↔ s2 = null) := by
  constructor
  · intro h
    by_contra hno
    rw [not_or, not_ne_iff] at hno
    obtain ⟨rfl, hnull⟩ := hno
    have hzero := h.bcmpEq.2 rfl
    rw [bcmp_null maxBufferSize hnull] at hzero
    exact absurd hzero (by decide)
  · intro h
    have hbcmp : (bcmp maxBufferSize s1 s2 n).result m = 0 ↔ bytesAt m s1 n = bytesAt m s2 n := by
      by_cases hboth : s1 ≠ null ∧ s2 ≠ null
      · exact bcmp_eq_zero_iff maxBufferSize hboth.1 hboth.2
      · -- one of the pointers is NULL, so there are no bytes, and the other one is too
        have hn : n = 0 := by
          by_contra hn
          exact hboth ⟨h1.resolve_left hn, h2.resolve_left hn⟩
        have hiff := h.resolve_left fun hne => hne hn
        have heq : s1 = s2 := by
          by_cases hnull : s1 = null
          · rw [hnull, hiff.1 hnull]
          · exact absurd ⟨hnull, fun e => hnull (hiff.2 e)⟩ hboth
        rw [bcmp, if_pos heq, heq]
        exact iff_of_true rfl rfl
    exact {
      bcmpEq := hbcmp
      memcmpOrder := memcmp_order maxBufferSize m s1 s2 n
      agree := hbcmp.trans (memcmp_eq_zero_iff maxBufferSize).symm
      bcmpReads := fun _ ha => reads_bcmp ha
      memcmpReads := fun _ ha => reads_memcmp maxBufferSize ha }

/-- Two buffers of three bytes, with a bound of two. -/
theorem memcmp_exact_three :
    ComparesExactly (fun a => BitVec.ofNat 8 a) 2 16 32 3 ↔ (3 : Nat) ≠ 0 ∨ ((16 : Nat) = null ↔ (32 : Nat) = null) :=
  memcmp_exact_iff (fun a => BitVec.ofNat 8 a) 2 16 32 3 (Or.inr (by decide)) (Or.inr (by decide))

/-- No bytes at NULL, and none at 1. -/
theorem bcmp_null_differs : ¬AlwaysCompareExactly := by
  intro h
  have hzero := (h (fun _ => 0) 0 null 1 0 (Or.inl rfl) (Or.inl rfl)).bcmpEq.2 rfl
  exact absurd hzero (by decide)

end VerifyFiredancer
