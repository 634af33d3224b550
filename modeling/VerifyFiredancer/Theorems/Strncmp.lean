import VerifyFiredancer.Lemmas.Bcmp

/-!
# The comparison of strings

`strncmp` looks for the first index at which either string ends and compares the characters before it, not the one at it. Two
strings of different length of which the longer begins with the shorter are then the same to it. That is the only case in which
it breaks its contract.
-/

namespace VerifyFiredancer

open ByteMem ReadScan BcmpAux

/-- Two strings agree up to and including the first NUL, or up to `n` characters. -/
def StrAgree (m : Mem) (str1 str2 n : Nat) : Prop :=
  (∀ i, i < n → m (str1 + i) = m (str2 + i)) ∨
    ∃ k, k < n ∧ m (str1 + k) = 0 ∧ ∀ i, i ≤ k → m (str1 + i) = m (str2 + i)

/-- The first character at which two strings differ. -/
structure StrDiff (m : Mem) (str1 str2 n i : Nat) : Prop extends FirstDiff m str1 str2 n i where
  noNul : ∀ j, j < i → m (str1 + j) ≠ 0

/-- A result of a comparison: zero when the strings agree, and of the sign of the first differing character otherwise. -/
structure StrncmpContract (m : Mem) (str1 str2 n : Nat) (r : Int) : Prop where
  zero : r = 0 ↔ StrAgree m str1 str2 n
  neg : ∀ i, StrDiff m str1 str2 n i → m (str1 + i) < m (str2 + i) → r < 0
  pos : ∀ i, StrDiff m str1 str2 n i → m (str2 + i) < m (str1 + i) → 0 < r

/-- One string ends where the other goes on, and they agree up to there. -/
def ProperPrefix (m : Mem) (str1 str2 n : Nat) : Prop :=
  ∃ i, StrDiff m str1 str2 n i ∧ (m (str1 + i) = 0 ∨ m (str2 + i) = 0)

/-- The contract is kept for all strings. -/
def AlwaysStrncmpContract : Prop :=
  ∀ m maxBufferSize str1 str2 n, StrncmpContract m str1 str2 n ((strncmp maxBufferSize str1 str2 n).result m)

namespace StrncmpAux

variable {m : Mem} {str1 str2 n i k : Nat}

/-! ## Strings that agree -/

/-- Strings that differ at a character do not agree. -/
theorem StrDiff.not_agree (h : StrDiff m str1 str2 n i) : ¬StrAgree m str1 str2 n := by
  rintro (hall | ⟨k, _, hnul, hle⟩)
  · exact h.ne (hall i h.lt)
  · rcases Nat.lt_or_ge k i with hlt | hge
    · exact h.noNul k hlt hnul
    · exact h.ne (hle i hge)

/-- A contract kept with a difference: the result is not zero and has its sign. -/
theorem contract_of_diff (h : StrDiff m str1 str2 n i) :
    StrncmpContract m str1 str2 n (if m (str1 + i) < m (str2 + i) then -1 else 1) := by
  refine ⟨?_, fun i' h' hlt => ?_, fun i' h' hlt => ?_⟩
  · refine iff_of_false ?_ (StrDiff.not_agree h)
    split_ifs <;> decide
  · obtain rfl := FirstDiff.unique h.toFirstDiff h'.toFirstDiff
    rw [if_pos hlt]
    decide
  · obtain rfl := FirstDiff.unique h.toFirstDiff h'.toFirstDiff
    have hle : ¬m (str1 + i) < m (str2 + i) := BitVec.not_lt.2 (BitVec.le_of_lt hlt)
    rw [if_neg hle]
    decide

/-- A contract kept without a difference. -/
theorem contract_of_agree (h : StrAgree m str1 str2 n) : StrncmpContract m str1 str2 n 0 :=
  ⟨iff_of_true rfl h, fun _ h' => absurd h (StrDiff.not_agree h'), fun _ h' => absurd h (StrDiff.not_agree h')⟩

/-! ## Where the strings end -/

section Scan

variable (maxBufferSize : Nat)

/-- The body of the loop. -/
def strncmpBody (maxBufferSize str1 str2 i : Nat) : Rd Uchar (Option Int) := do
  let c1 ← read (str1 + i)
  if c1 = 0 then return some (← memcmp maxBufferSize str1 str2 i)
  else
    let c2 ← read (str2 + i)
    if c2 = 0 then return some (← memcmp maxBufferSize str1 str2 i) else return none

theorem strncmpBody_of_nul (h : m (str1 + i) = 0 ∨ m (str2 + i) = 0) :
    (strncmpBody maxBufferSize str1 str2 i).result m = some ((memcmp maxBufferSize str1 str2 i).result m) := by
  rw [strncmpBody, result_bind, result_read]
  by_cases h1 : m (str1 + i) = 0
  · rw [if_pos h1]
    rfl
  · rw [if_neg h1, result_bind, result_read, if_pos (h.resolve_left h1)]
    rfl

theorem strncmpBody_of_ne (h1 : m (str1 + i) ≠ 0) (h2 : m (str2 + i) ≠ 0) :
    (strncmpBody maxBufferSize str1 str2 i).result m = none := by
  rw [strncmpBody, result_bind, result_read, if_neg h1, result_bind, result_read, if_neg h2]
  rfl

theorem strncmp_eq :
    strncmp maxBufferSize str1 str2 n =
      scan (strncmpBody maxBufferSize str1 str2) n 0 >>= fun r => r.elim (memcmp maxBufferSize str1 str2 n) pure := by
  refine congrArg (scan (strncmpBody maxBufferSize str1 str2) n 0 >>= ·) (funext fun r => ?_)
  cases r <;> rfl

/-- Strings that go on past `n` characters are compared up to there. -/
theorem strncmp_of_no_nul (h : ∀ i, i < n → m (str1 + i) ≠ 0 ∧ m (str2 + i) ≠ 0) :
    (strncmp maxBufferSize str1 str2 n).result m = (memcmp maxBufferSize str1 str2 n).result m := by
  have hnone : (scan (strncmpBody maxBufferSize str1 str2) n 0).result m = none := by
    rw [scan_eq_none_iff]
    intro j hj
    rw [Nat.zero_add]
    exact strncmpBody_of_ne maxBufferSize (h j hj).1 (h j hj).2
  rw [strncmp_eq, result_bind, hnone]
  rfl

/-- Strings of which one ends are compared up to there. -/
theorem strncmp_of_nul (hk : k < n) (hbefore : ∀ i, i < k → m (str1 + i) ≠ 0 ∧ m (str2 + i) ≠ 0)
    (hat : m (str1 + k) = 0 ∨ m (str2 + k) = 0) :
    (strncmp maxBufferSize str1 str2 n).result m = (memcmp maxBufferSize str1 str2 k).result m := by
  have hsome : (scan (strncmpBody maxBufferSize str1 str2) n 0).result m =
      some ((memcmp maxBufferSize str1 str2 k).result m) := by
    rw [scan_eq_some_iff]
    refine ⟨k, hk, fun j hj => ?_, ?_⟩
    · rw [Nat.zero_add]
      exact strncmpBody_of_ne maxBufferSize (hbefore j hj).1 (hbefore j hj).2
    · rw [Nat.zero_add]
      exact strncmpBody_of_nul maxBufferSize hat
  rw [strncmp_eq, result_bind, hsome]
  rfl

end Scan

/-- No string ends before `n` characters, or there is a first index at which one does. -/
theorem no_nul_or_first (m : Mem) (str1 str2 n : Nat) :
    (∀ i, i < n → m (str1 + i) ≠ 0 ∧ m (str2 + i) ≠ 0) ∨
      ∃ k, k < n ∧ (∀ i, i < k → m (str1 + i) ≠ 0 ∧ m (str2 + i) ≠ 0) ∧ (m (str1 + k) = 0 ∨ m (str2 + k) = 0) := by
  rcases all_or_first (fun i => m (str1 + i) ≠ 0 ∧ m (str2 + i) ≠ 0) n with hall | ⟨k, hk, hbefore, hnul⟩
  · exact Or.inl hall
  · refine Or.inr ⟨k, hk, hbefore, ?_⟩
    rw [not_and_or, not_ne_iff, not_ne_iff] at hnul
    exact hnul

/-- A difference of the characters before `k` is one of the strings, when they do not end before. -/
theorem strDiff_of_firstDiff (h : FirstDiff m str1 str2 k i) (hkn : k ≤ n) (hbefore : ∀ i, i < k → m (str1 + i) ≠ 0) :
    StrDiff m str1 str2 n i :=
  ⟨⟨Nat.lt_of_lt_of_le h.lt hkn, h.before, h.ne⟩, fun j hj => hbefore j (Nat.lt_trans hj h.lt)⟩

/-- A string that ends where it differs from the other is all that breaks the contract: the result is zero then. -/
theorem contract_or_prefix (m : Mem) (maxBufferSize str1 str2 n : Nat) :
    (StrncmpContract m str1 str2 n ((strncmp maxBufferSize str1 str2 n).result m) ∧ ¬ProperPrefix m str1 str2 n) ∨
      ((strncmp maxBufferSize str1 str2 n).result m = 0 ∧ ProperPrefix m str1 str2 n) := by
  rcases no_nul_or_first m str1 str2 n with hnone | ⟨k, hk, hbefore, hat⟩
  · refine Or.inl ⟨?_, ?_⟩
    · rw [strncmp_of_no_nul maxBufferSize hnone]
      rcases agree_or_firstDiff m str1 str2 n with hagree | ⟨i, hdiff⟩
      · rw [memcmp_of_agree maxBufferSize hagree]
        exact contract_of_agree (Or.inl hagree)
      · rw [memcmp_of_firstDiff maxBufferSize hdiff]
        exact contract_of_diff (strDiff_of_firstDiff hdiff (Nat.le_refl n) fun i hi => (hnone i hi).1)
    · rintro ⟨i, hi, hnul⟩
      exact hnul.elim (hnone i hi.lt).1 (hnone i hi.lt).2
  · rw [strncmp_of_nul maxBufferSize hk hbefore hat]
    rcases agree_or_firstDiff m str1 str2 k with hagree | ⟨i, hdiff⟩
    · rw [memcmp_of_agree maxBufferSize hagree]
      by_cases heq : m (str1 + k) = m (str2 + k)
      · -- both end at `k`
        have hnul : m (str1 + k) = 0 := hat.elim id fun h2 => heq.trans h2
        have hagree' : StrAgree m str1 str2 n := by
          refine Or.inr ⟨k, hk, hnul, fun i hi => ?_⟩
          rcases Nat.lt_or_eq_of_le hi with hlt | rfl
          · exact hagree i hlt
          · exact heq
        exact Or.inl ⟨contract_of_agree hagree', fun ⟨i, hi, _⟩ => StrDiff.not_agree hi hagree'⟩
      · exact Or.inr ⟨rfl, k, ⟨⟨hk, hagree, heq⟩, fun j hj => (hbefore j hj).1⟩, hat⟩
    · have hstr := strDiff_of_firstDiff hdiff (Nat.le_of_lt hk) fun i hi => (hbefore i hi).1
      rw [memcmp_of_firstDiff maxBufferSize hdiff]
      refine Or.inl ⟨contract_of_diff hstr, fun ⟨i', hi', hnul⟩ => ?_⟩
      obtain rfl := FirstDiff.unique hstr.toFirstDiff hi'.toFirstDiff
      exact hnul.elim (hbefore i hdiff.lt).1 (hbefore i hdiff.lt).2

end StrncmpAux

open StrncmpAux

/-- The contract is kept, whatever the bound, exactly when neither string ends where it first differs from the other. -/
theorem strncmp_contract_iff (m : Mem) (maxBufferSize str1 str2 n : Nat) :
    StrncmpContract m str1 str2 n ((strncmp maxBufferSize str1 str2 n).result m) ↔ ¬ProperPrefix m str1 str2 n := by
  rcases contract_or_prefix m maxBufferSize str1 str2 n with ⟨hcontract, hno⟩ | ⟨hzero, hprefix⟩
  · exact iff_of_true hcontract hno
  · refine iff_of_false (fun hcontract => ?_) (not_not_intro hprefix)
    obtain ⟨i, hi, _⟩ := hprefix
    exact StrDiff.not_agree hi (hcontract.zero.1 hzero)

/-- The empty string at 16 and a string that begins with 1 at 17 are the same, up to one character. -/
theorem strncmp_prefix : ¬AlwaysStrncmpContract := by
  intro h
  have hcontract := h (fun a => BitVec.ofNat 8 (a - 16)) 4 16 17 1
  have hzero : (strncmp 4 16 17 1).result (fun a => BitVec.ofNat 8 (a - 16)) = 0 := by decide
  rcases hcontract.zero.1 hzero with hall | ⟨k, hk, _, hle⟩
  · exact absurd (hall 0 (by decide)) (by decide)
  · exact absurd (hle 0 (Nat.zero_le k)) (by decide)

end VerifyFiredancer
