import VerifyFiredancer.Lemmas.Bcmp

/-!
# The search for a byte

The loops of `memchr` search through a local pointer `p` that is never set to `str`. Through `p = str` they find the first match
and read the buffer only (`MemchrAux.memchr_through`). But `p` holds whatever it happens to, so the function does what it should
for every value of it exactly when there is nothing to search.
-/

namespace VerifyFiredancer

open ByteMem ReadScan BcmpAux

/-- A result of a search of the `n` bytes at `str` for the byte `c`: the address of its first occurrence, or NULL. -/
def IsFirstMatch (m : Mem) (str : Nat) (c : BitVec 32) (n r : Nat) : Prop :=
  (∃ i, i < n ∧ m (str + i) = c.setWidth 8 ∧ (∀ j, j < i → m (str + j) ≠ c.setWidth 8) ∧ r = str + i) ∨
    ((∀ i, i < n → m (str + i) ≠ c.setWidth 8) ∧ r = null)

/-- The search gives the first match and reads the buffer only, whatever the value of the local `p`. -/
def FindsFirst (m : Mem) (maxBufferSize str : Nat) (c : BitVec 32) (n : Nat) : Prop :=
  ∀ p, IsFirstMatch m str c n ((memchr maxBufferSize p str c n).result m) ∧
    ∀ a ∈ (memchr maxBufferSize p str c n).reads m, str ≤ a ∧ a < str + n

/-- The search of any buffer gives the first match. -/
def AlwaysFindsFirst : Prop :=
  ∀ m maxBufferSize str c n, (n = 0 ∨ str ≠ null) → FindsFirst m maxBufferSize str c n

namespace MemchrAux

/-- The body of the search, through `p`. -/
def memchrBody (p : Nat) (c : BitVec 32) (i : Nat) : Rd Uchar (Option Nat) := do
  let b ← read (p + i)
  return if b = c.setWidth 8 then some (p + i) else none

variable {m : Mem} (maxBufferSize : Nat) {p str n : Nat} {c : BitVec 32}

theorem memchrBody_of_eq {i : Nat} (h : m (p + i) = c.setWidth 8) : (memchrBody p c i).result m = some (p + i) := by
  simp [memchrBody, h]

theorem memchrBody_of_ne {i : Nat} (h : m (p + i) ≠ c.setWidth 8) : (memchrBody p c i).result m = none := by
  simp [memchrBody, h]

theorem memchrBody_eq_none_iff {i : Nat} : (memchrBody p c i).result m = none ↔ m (p + i) ≠ c.setWidth 8 := by
  refine ⟨fun hres h => ?_, memchrBody_of_ne⟩
  rw [memchrBody_of_eq h] at hres
  cases hres

theorem memchr_eq : memchr maxBufferSize p str c n = do
    let r ← scan (memchrBody p c) n 0
    return r.getD null := by
  rw [memchr, unrolledLoops_eq]
  rfl

/-- The search through `p` is that of the buffer at `p`. -/
theorem memchr_through (m : Mem) (p str n : Nat) (c : BitVec 32) :
    IsFirstMatch m p c n ((memchr maxBufferSize p str c n).result m) ∧
      ∀ a ∈ (memchr maxBufferSize p str c n).reads m, p ≤ a ∧ a < p + n := by
  constructor
  · rw [memchr_eq, result_bind, result_pure]
    cases hres : (scan (memchrBody p c) n 0).result m with
    | none =>
      rw [scan_eq_none_iff] at hres
      simp only [Nat.zero_add, memchrBody_eq_none_iff] at hres
      exact Or.inr ⟨hres, rfl⟩
    | some r =>
      rw [scan_eq_some_iff] at hres
      simp only [Nat.zero_add, memchrBody_eq_none_iff] at hres
      obtain ⟨i, hi, hbefore, hat⟩ := hres
      by_cases heq : m (p + i) = c.setWidth 8
      · rw [memchrBody_of_eq heq] at hat
        exact Or.inl ⟨i, hi, heq, hbefore, (Option.some.inj hat).symm⟩
      · rw [memchrBody_of_ne heq] at hat
        cases hat
  · intro a ha
    rw [memchr_eq, reads_bind, reads_pure, List.append_nil] at ha
    obtain ⟨j, hj, hmem⟩ := mem_reads_scan ha
    simp only [memchrBody, reads_bind, reads_read, reads_pure, List.append_nil, List.mem_singleton] at hmem
    omega

/-- A search of some bytes reads the one that `p` points at. -/
theorem reads_head_memchr (hn : n ≠ 0) : p ∈ (memchr maxBufferSize p str c n).reads m := by
  rw [memchr_eq, reads_bind]
  refine List.mem_append_left _ (reads_head_scan (Nat.pos_of_ne_zero hn) ?_)
  simp [memchrBody]

end MemchrAux

open MemchrAux

/-- A search of a buffer gives the first match, whatever the value of its local pointer, exactly when the buffer is empty. -/
theorem memchr_finds_iff (m : Mem) (maxBufferSize str : Nat) (c : BitVec 32) (n : Nat) (h : n = 0 ∨ str ≠ null) :
    FindsFirst m maxBufferSize str c n ↔ n = 0 := by
  constructor
  · intro hfinds
    by_contra hn
    -- a pointer that is NULL is outside of the buffer
    obtain ⟨hle, _⟩ := (hfinds null).2 null (reads_head_memchr maxBufferSize hn)
    exact h.resolve_left hn (Nat.le_zero.1 hle)
  · rintro rfl p
    obtain ⟨hmatch, hreads⟩ := memchr_through maxBufferSize m p str 0 c
    rcases hmatch with ⟨i, hi, _⟩ | ⟨_, hnull⟩
    · exact absurd hi (Nat.not_lt_zero i)
    · refine ⟨Or.inr ⟨nofun, hnull⟩, fun a ha => ?_⟩
      have := hreads a ha
      omega

/-- A buffer of two bytes. -/
theorem memchr_finds_two : FindsFirst (fun a => BitVec.ofNat 8 a) 4 16 17 2 ↔ (2 : Nat) = 0 :=
  memchr_finds_iff _ 4 16 17 2 (Or.inr (by decide))

/-- The byte 17 at the address 17 is not found in the two bytes from 16 on when the local pointer is NULL. -/
theorem memchr_misses : ¬AlwaysFindsFirst := by
  intro h
  have hres := (h (fun a => BitVec.ofNat 8 a) 4 16 17 2 (Or.inr (by decide)) null).1
  have hnull : (memchr 4 null 16 17 2).result (fun a => BitVec.ofNat 8 a) = null := by decide
  rw [hnull] at hres
  rcases hres with ⟨i, _, _, _, heq⟩ | ⟨hno, _⟩
  · rw [null] at heq
    omega
  · exact hno 1 (by decide) (by decide)

end VerifyFiredancer
