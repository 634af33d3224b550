import VerifyFiredancer.Bcmp
import VerifyFiredancer.Lib.OverlapCopy

/-!
# Overlapping copies

A copy that goes up, and one that goes down byte by byte, are right for the overlap they are made for (`OverlapCopy`). In the copy
that goes down, the first word is that of 8 bytes from 4 before the end of what is left: it reads and writes past the end of the
two ranges. So `memmove` is right exactly when it need not copy down, or has less than 4 bytes to copy.
-/

namespace VerifyFiredancer

open ByteMem OverlapCopy

/-- What a copy of `n` bytes from `src` to `dst` is to do, and to leave alone, and may read. -/
structure CopiesRange (m : Mem) (dst src n : Nat) (s : Move) : Prop where
  copied : ∀ i, i < n → s.mem (dst + i) = m (src + i)
  frame : ∀ a, a < dst ∨ dst + n ≤ a → s.mem a = m a
  reads : ∀ a ∈ s.reads, src ≤ a ∧ a < src + n

/-- Every copy is right. -/
def AlwaysCopiesRange : Prop := ∀ m dst src n, CopiesRange m dst src n (memmove m dst src n)

namespace MemmoveAux

variable {m : Mem} {dst src n k : Nat} {s : Move}

/-- A copy that has done the indices from `lo` to `hi`, with what it may have read. -/
structure Moved (m : Mem) (dst src n lo hi : Nat) (s : Move) : Prop where
  mem : Copied m s.mem dst src lo hi
  reads : ∀ a ∈ s.reads, src ≤ a ∧ a < src + n

/-- A copy of all indices. -/
theorem Moved.copiesRange (h : Moved m dst src n 0 n s) : CopiesRange m dst src n s where
  copied := fun i hi => h.mem.copied i (Nat.zero_le i) hi
  frame := fun a ha => h.mem.frame a fun i _ hi => by omega
  reads := h.reads

/-- A copy that has done nothing. -/
theorem Moved.start (m : Mem) (dst src n lo tmpTo tmpFrom : Nat) : Moved m dst src n lo lo ⟨m, [], tmpTo, tmpFrom⟩ :=
  ⟨Copied.refl m dst src lo, nofun⟩

/-- One more read in the range. -/
theorem reads_concat {reads : List Nat} (h : ∀ a ∈ reads, src ≤ a ∧ a < src + n) (hk : k < n) :
    ∀ a ∈ reads ++ [src + k], src ≤ a ∧ a < src + n := by
  intro a ha
  rw [List.mem_append, List.mem_singleton] at ha
  rcases ha with hmem | rfl
  · exact h a hmem
  · omega

/-! ## Up -/

/-- The loop of `memcpy`, after the first `k` bytes. -/
theorem memcpyLoop_moved (hdir : dst ≤ src) (l : Nat) :
    ∀ (k : Nat) (s : Move), k + l = n → s.tmpTo = dst + k → s.tmpFrom = src + k → Moved m dst src n 0 k s →
      Moved m dst src n 0 n (Move.memcpyLoop l s) := by
  induction l with
  | zero =>
    intro k s hk _ _ h
    obtain rfl : k = n := hk
    exact h
  | succ l ih =>
    intro k s hk hto hfrom h
    rw [Move.memcpyLoop]
    refine ih (k + 1) _ (by omega) ?_ ?_ ⟨?_, ?_⟩
    · rw [hto, Nat.add_assoc]
    · rw [hfrom, Nat.add_assoc]
    · rw [hto, hfrom]
      exact h.mem.up (Nat.zero_le k) hdir
    · rw [hfrom]
      exact reads_concat h.reads (by omega)

/-- A copy up. -/
theorem memcpy_moved (m : Mem) (hdir : dst ≤ src) (n : Nat) : Moved m dst src n 0 n (memcpy m dst src n) :=
  memcpyLoop_moved hdir n 0 _ (Nat.zero_add n) rfl rfl (Moved.start m dst src n 0 dst src)

/-! ## Down -/

/-- The loop that goes down byte by byte, with `k` bytes left. -/
theorem bytes_moved (hdir : src ≤ dst) (k : Nat) :
    ∀ s : Move, k ≤ n → s.tmpTo = dst + k → s.tmpFrom = src + k → Moved m dst src n k n s →
      Moved m dst src n 0 n (s.bytes k) := by
  induction k with
  | zero => exact fun s _ _ _ h => h
  | succ k ih =>
    intro s hk hto hfrom h
    have hto' : s.tmpTo - 1 = dst + k := by omega
    have hfrom' : s.tmpFrom - 1 = src + k := by omega
    rw [Move.bytes]
    refine ih _ (by omega) hto' hfrom' ⟨?_, ?_⟩
    · rw [hto', hfrom']
      exact h.mem.down (by omega) hdir
    · rw [hfrom']
      exact reads_concat h.reads (by omega)

/-- A copy down of less than 4 bytes. -/
theorem lessthan8_moved (m : Mem) (hdir : src ≤ dst) (hn : n < 4) :
    Moved m dst src n 0 n (Move.lessthan8 n ⟨m, [], dst + n, src + n⟩) := by
  rw [Move.lessthan8, Nat.mod_eq_of_lt (by omega), if_neg (by omega)]
  exact bytes_moved hdir n _ (Nat.le_refl n) rfl rfl (Moved.start m dst src n n _ _)

/-! ## Past the end -/

/-- What was read stays read. -/
theorem reads_bytes {a : Nat} (k : Nat) : ∀ s : Move, a ∈ s.reads → a ∈ (s.bytes k).reads := by
  induction k with
  | zero => exact fun s h => h
  | succ k ih => exact fun s h => ih _ (List.mem_append_left _ h)

theorem reads_chunks {a : Nat} (k : Nat) : ∀ s : Move, a ∈ s.reads → a ∈ (s.chunks k).reads := by
  induction k with
  | zero => exact fun s h => h
  | succ k ih => exact fun s h => ih _ (List.mem_append_left _ (List.mem_append_left _ h))

theorem reads_lessthan8 {a : Nat} (n : Nat) (s : Move) (h : a ∈ s.reads) : a ∈ (s.lessthan8 n).reads := by
  rw [Move.lessthan8]
  split_ifs
  · exact reads_bytes _ _ (List.mem_append_left _ h)
  · exact reads_bytes _ _ h

/-- The byte loop moves the cursor down. -/
theorem tmpFrom_bytes (k : Nat) : ∀ s : Move, (s.bytes k).tmpFrom = s.tmpFrom - k := by
  induction k with
  | zero => exact fun s => rfl
  | succ k ih =>
    intro s
    rw [Move.bytes, ih, Nat.sub_sub, Nat.add_comm 1 k]

/-- The word that is loaded first has the three bytes from the cursor up. -/
theorem mem_word {tmpFrom : Nat} (h : 4 ≤ tmpFrom) : tmpFrom + 3 ∈ List.range' (tmpFrom - 4) 8 := by
  rw [List.mem_range'_1]
  omega

theorem reads_chunks_past (k : Nat) (s : Move) (hk : k ≠ 0) (h : 4 ≤ s.tmpFrom) : s.tmpFrom + 3 ∈ (s.chunks k).reads := by
  obtain ⟨k, rfl⟩ := Nat.exists_eq_succ_of_ne_zero hk
  exact reads_chunks k _ (List.mem_append_left _ (List.mem_append_right _ (mem_word h)))

theorem reads_lessthan8_past (n : Nat) (s : Move) (hn : 4 ≤ n % 8) (h : 4 ≤ s.tmpFrom) : s.tmpFrom + 3 ∈ (s.lessthan8 n).reads := by
  rw [Move.lessthan8, if_pos hn]
  exact reads_bytes _ _ (List.mem_append_right _ (mem_word h))

/-- A copy down of 4 bytes or more reads past the end of its source. -/
theorem memmove_reads_past (m : Mem) (hdir : src < dst) (hn : 4 ≤ n) : ∃ a ∈ (memmove m dst src n).reads, src + n ≤ a := by
  rw [memmove, if_neg (by omega)]
  dsimp only
  by_cases hchunks : n / 8 = 0
  · rw [if_pos hchunks]
    exact ⟨_, reads_lessthan8_past n _ (by omega) (by dsimp only; omega), by dsimp only; omega⟩
  · rw [if_neg hchunks]
    by_cases hrem : (dst + n) % 4 = 0
    · rw [if_neg (not_not_intro hrem)]
      exact ⟨_, reads_lessthan8 n _ (reads_chunks_past _ _ hchunks (by dsimp only; omega)), by dsimp only; omega⟩
    · -- the loop at `align` copies at most three bytes, the word after it reaches past them
      rw [if_pos hrem, Move.align]
      have hcur := tmpFrom_bytes (4 - (dst + n) % 4) ⟨m, [], dst + n, src + n⟩
      have hlt : (dst + n) % 4 < 4 := Nat.mod_lt _ (by decide)
      dsimp only at hcur ⊢
      generalize Move.bytes (4 - (dst + n) % 4) ⟨m, [], dst + n, src + n⟩ = s at hcur ⊢
      by_cases hrest : (n - (4 - (dst + n) % 4)) / 8 = 0
      · rw [if_neg (not_not_intro hrest)]
        exact ⟨_, reads_lessthan8_past _ s (by omega) (by omega), by omega⟩
      · rw [if_pos hrest]
        exact ⟨_, reads_lessthan8 _ _ (reads_chunks_past _ s hrest (by omega)), by omega⟩

end MemmoveAux

open MemmoveAux

/-- A copy is right exactly when its destination is not above its source, or it has less than 4 bytes. -/
theorem memmove_copies_iff (m : Mem) (dst src n : Nat) :
    CopiesRange m dst src n (memmove m dst src n) ↔ dst ≤ src ∨ n < 4 := by
  constructor
  · intro h
    by_contra hno
    rw [not_or, Nat.not_le, Nat.not_lt] at hno
    obtain ⟨a, ha, hpast⟩ := memmove_reads_past m hno.1 hno.2
    exact absurd (h.reads a ha).2 (Nat.not_lt.2 hpast)
  · intro h
    by_cases hdir : dst ≤ src
    · rw [memmove, if_pos hdir]
      exact (memcpy_moved m hdir n).copiesRange
    · have hn := h.resolve_left hdir
      rw [memmove, if_neg hdir]
      dsimp only
      rw [if_pos (by omega)]
      exact (lessthan8_moved m (by omega) hn).copiesRange

/-- Eight bytes from 16 to 20: the four bytes after the destination change. -/
theorem memmove_past_end : ¬AlwaysCopiesRange := by
  intro h
  have hframe := (h (fun a => BitVec.ofNat 8 a) 20 16 8).frame 28 (Or.inr (by decide))
  exact absurd hframe (by decide)

end VerifyFiredancer
