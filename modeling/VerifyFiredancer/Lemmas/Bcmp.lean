import VerifyFiredancer.Bcmp

/-!
# Where a comparison ends

The two loops of a function are one scan (`unrolledLoops_eq`), whatever the bound. A comparison of two buffers ends at their
first difference (`FirstDiff`); what `memcmp` returns is said by whether there is one, and which byte is the greater.
-/

namespace VerifyFiredancer

open ByteMem ReadScan

/-- The first of the `n` indices at which two buffers differ. -/
structure FirstDiff (m : Mem) (s1 s2 n i : Nat) : Prop where
  lt : i < n
  before : ∀ j, j < i → m (s1 + j) = m (s2 + j)
  ne : m (s1 + i) ≠ m (s2 + i)

namespace BcmpAux

variable {m : Mem} {s1 s2 n i : Nat}

/-- Something holds at all of the first `n` indices, or there is a first one at which it does not. -/
theorem all_or_first (P : Nat → Prop) (n : Nat) : (∀ i, i < n → P i) ∨ ∃ k, k < n ∧ (∀ i, i < k → P i) ∧ ¬P k := by
  induction n with
  | zero => exact Or.inl nofun
  | succ n ih =>
    rcases ih with hall | ⟨k, hk, h⟩
    · by_cases hn : P n
      · refine Or.inl fun i hi => ?_
        rcases Nat.lt_succ_iff_lt_or_eq.1 hi with hlt | rfl
        · exact hall i hlt
        · exact hn
      · exact Or.inr ⟨n, Nat.lt_succ_self n, hall, hn⟩
    · exact Or.inr ⟨k, Nat.lt_succ_of_lt hk, h⟩

/-- Two buffers agree, or there is a first difference. -/
theorem agree_or_firstDiff (m : Mem) (s1 s2 n : Nat) :
    (∀ i, i < n → m (s1 + i) = m (s2 + i)) ∨ ∃ i, FirstDiff m s1 s2 n i := by
  rcases all_or_first (fun i => m (s1 + i) = m (s2 + i)) n with hall | ⟨i, hi, hbefore, hne⟩
  · exact Or.inl hall
  · exact Or.inr ⟨i, hi, hbefore, hne⟩

/-- There is no first difference between buffers that agree. -/
theorem FirstDiff.not_agree (h : FirstDiff m s1 s2 n i) : ¬∀ i, i < n → m (s1 + i) = m (s2 + i) :=
  fun hagree => h.ne (hagree i h.lt)

/-- There is one first difference. -/
theorem FirstDiff.unique (h : FirstDiff m s1 s2 n i) {k : Nat} (h' : FirstDiff m s1 s2 n k) : i = k := by
  rcases Nat.lt_trichotomy i k with hlt | heq | hgt
  · exact absurd (h'.before i hlt) h.ne
  · exact heq
  · exact absurd (h.before k hgt) h'.ne

/-- The pre-unrolled loop and the loop over the rest are one scan. -/
theorem unrolledLoops_eq {α : Type} (maxBufferSize n : Nat) (body : Nat → Rd Uchar (Option α)) :
    unrolledLoops maxBufferSize n body = scan body n 0 :=
  scan_guarded body maxBufferSize n

/-! ## The scan of a comparison -/

section Scan

/-- The body of a comparison that ends at a difference with `g` of the two bytes. -/
def compareBody (s1 s2 : Nat) (g : Uchar → Uchar → Int) (i : Nat) : Rd Uchar (Option Int) := do
  let b1 ← read (s1 + i)
  let b2 ← read (s2 + i)
  return if b1 ≠ b2 then some (g b1 b2) else none

variable {g : Uchar → Uchar → Int}

theorem compareScan_of_agree (h : ∀ i, i < n → m (s1 + i) = m (s2 + i)) : (scan (compareBody s1 s2 g) n 0).result m = none := by
  rw [scan_eq_none_iff]
  intro j hj
  simp [compareBody, h j hj]

theorem compareScan_of_firstDiff (h : FirstDiff m s1 s2 n i) :
    (scan (compareBody s1 s2 g) n 0).result m = some (g (m (s1 + i)) (m (s2 + i))) := by
  rw [scan_eq_some_iff]
  refine ⟨i, h.lt, fun j hj => ?_, ?_⟩
  · simp [compareBody, h.before j hj]
  · simp [compareBody, h.ne]

theorem reads_compareScan {a : Nat} (h : a ∈ (scan (compareBody s1 s2 g) n 0).reads m) : ∃ i, i < n ∧ (a = s1 + i ∨ a = s2 + i) := by
  obtain ⟨j, hj, hmem⟩ := mem_reads_scan h
  refine ⟨j, hj, ?_⟩
  simpa [compareBody] using hmem

end Scan

/-! ## `bcmp` and `memcmp` -/

section Compare

variable (maxBufferSize : Nat)

theorem bcmp_eq (h1 : s1 ≠ null) (h2 : s2 ≠ null) (hne : s1 ≠ s2) :
    bcmp maxBufferSize s1 s2 n = do
      let r ← scan (compareBody s1 s2 fun _ _ => 1) n 0
      return r.getD 0 := by
  rw [bcmp, if_neg hne, if_neg (by simp [h1, h2]), unrolledLoops_eq]
  rfl

theorem memcmp_eq (hne : s1 ≠ s2) :
    memcmp maxBufferSize s1 s2 n = do
      let r ← scan (compareBody s1 s2 fun b1 b2 => if b1 < b2 then -1 else 1) n 0
      return r.getD 0 := by
  rw [memcmp, if_neg hne, unrolledLoops_eq]
  rfl

/-- `memcmp` of buffers that agree. -/
theorem memcmp_of_agree (h : ∀ i, i < n → m (s1 + i) = m (s2 + i)) : (memcmp maxBufferSize s1 s2 n).result m = 0 := by
  by_cases hne : s1 = s2
  · rw [memcmp, if_pos hne]
    rfl
  · rw [memcmp_eq maxBufferSize hne, result_bind, compareScan_of_agree h]
    rfl

/-- `memcmp` of buffers that differ. -/
theorem memcmp_of_firstDiff (h : FirstDiff m s1 s2 n i) :
    (memcmp maxBufferSize s1 s2 n).result m = if m (s1 + i) < m (s2 + i) then -1 else 1 := by
  have hne : s1 ≠ s2 := by
    rintro rfl
    exact h.ne rfl
  rw [memcmp_eq maxBufferSize hne, result_bind, compareScan_of_firstDiff h]
  rfl

theorem reads_memcmp {a : Nat} (h : a ∈ (memcmp maxBufferSize s1 s2 n).reads m) : ∃ i, i < n ∧ (a = s1 + i ∨ a = s2 + i) := by
  by_cases hne : s1 = s2
  · rw [memcmp, if_pos hne] at h
    exact absurd h List.not_mem_nil
  · rw [memcmp_eq maxBufferSize hne, reads_bind, reads_pure, List.append_nil] at h
    exact reads_compareScan h

end Compare

end BcmpAux

end VerifyFiredancer
