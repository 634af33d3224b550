import VerifyFiredancer.Verify
import Mathlib.Data.Finset.Lattice.Lemmas
import Mathlib.Data.Finset.Insert

/-!
# What one line of output does

The patterns exclude each other by the first character of a line. So a line does what each pattern says on its own, whatever
the lines before it did: it sets a flag or adds a location, and takes nothing away (`verifyLine_*`, `verifyLoop_*`).
-/

namespace VerifyFiredancer

open Regex

/-- The line adds a location to the set of passed ones, or to the set of failed ones. -/
def VacuityPassed (line d : PyStr) : Prop := d ∈ (checkVacuity line ∅ ∅).1
def VacuityFailed (line d : PyStr) : Prop := d ∈ (checkVacuity line ∅ ∅).2

/-- The line is one of success: the expected string, or one of the two patterns. -/
def IsSuccess (expect : PyStr) (line : PyStr) : Prop :=
  pyStrip line = expect ∨ reMatch noTaskPrefix line ∨ reMatch seahornPassPrefix line

/-- The line is nothing to the patterns. -/
structure IsPlain (line : PyStr) : Prop where
  noTask : ¬reMatch noTaskPrefix line
  assertError : ¬reMatch assertErrorPrefix line
  seahornPass : ¬reMatch seahornPassPrefix line
  passed : ∀ d, ¬VacuityPassed line d
  failed : ∀ d, ¬VacuityFailed line d

namespace VerifyAux

/-! ## Patterns exclude each other -/

/-- What begins with a word begins with its first character. -/
theorem head_of_prefix {w line : PyStr} {c : Char} (h : w <+: line) (hw : w.head? = some c) : line.head? = some c := by
  obtain ⟨t, rfl⟩ := h
  cases w with
  | nil => cases hw
  | cons a w => exact hw

/-- The first character of a line without a task. -/
theorem head_noTask {line : PyStr} (h : reMatch noTaskPrefix line) : line.head? = some 'W' :=
  head_of_prefix (prefix_of_first_seq_lit h) rfl

/-- The first character of a failed assertion. -/
theorem head_assertError {line : PyStr} (h : reMatch assertErrorPrefix line) : line.head? = some 'E' :=
  head_of_prefix (first_lit_isSome_iff.1 h) rfl

/-- The first character of a line of the statistics. -/
theorem head_seahornPass {line : PyStr} (h : reMatch seahornPassPrefix line) : line.head? = some 'B' :=
  head_of_prefix (prefix_of_first_seq_lit h) rfl

/-- What a vacuity line begins with, its stream, is one of the two. -/
theorem stream_of_first {line : PyStr} {m : Captures Char VacuityGroup} (h : vacuityCheckRe.first line = some m) :
    (m .stream = some "Info".toList ∧ line.head? = some 'I') ∨ (m .stream = some "Error".toList ∧ line.head? = some 'E') := by
  obtain ⟨t, hm⟩ := matches_of_first h
  cases hm with
  | seq hstream hrest =>
    have hkeep := hrest.other (n := .stream) (by decide)
    rw [hkeep]
    cases hstream with
    | @group _ _ w _ _ d halt =>
      rw [Function.update_self]
      cases halt with
      | altLeft hw =>
        obtain rfl := List.append_cancel_right (matches_lit_iff.1 hw).1
        exact Or.inl ⟨rfl, rfl⟩
      | altRight hw =>
        obtain rfl := List.append_cancel_right (matches_lit_iff.1 hw).1
        exact Or.inr ⟨rfl, rfl⟩

/-- What a line does to the sets of locations does not depend on them. -/
theorem checkVacuity_eq (line : PyStr) (passedSet failedSet : Finset PyStr) :
    checkVacuity line passedSet failedSet =
      (passedSet ∪ (checkVacuity line ∅ ∅).1, failedSet ∪ (checkVacuity line ∅ ∅).2) := by
  unfold checkVacuity
  cases vacuityCheckRe.first line with
  | none => rw [Finset.union_empty, Finset.union_empty]
  | some m =>
    dsimp only
    split_ifs
    · rw [Finset.union_empty, Finset.insert_eq, Finset.insert_eq, Finset.union_empty, Finset.union_comm]
    · rw [Finset.union_empty, Finset.insert_eq, Finset.insert_eq, Finset.union_empty, Finset.union_comm]
    · rw [Finset.union_empty, Finset.union_empty]

/-- A line that adds a passed location is on the stream of infos. -/
theorem head_passed {line d : PyStr} (h : VacuityPassed line d) : line.head? = some 'I' := by
  unfold VacuityPassed checkVacuity at h
  cases hm : vacuityCheckRe.first line with
  | none =>
    rw [hm] at h
    exact absurd h (Finset.notMem_empty d)
  | some m =>
    rw [hm] at h
    dsimp only at h
    split_ifs at h with hinfo herror
    · rcases stream_of_first hm with ⟨_, hhead⟩ | ⟨hstream, _⟩
      · exact hhead
      · exact absurd (hstream.symm.trans hinfo.1) (by decide)
    · exact absurd h (Finset.notMem_empty d)
    · exact absurd h (Finset.notMem_empty d)

/-- A line that adds a failed location is on the stream of errors. -/
theorem head_failed {line d : PyStr} (h : VacuityFailed line d) : line.head? = some 'E' := by
  unfold VacuityFailed checkVacuity at h
  cases hm : vacuityCheckRe.first line with
  | none =>
    rw [hm] at h
    exact absurd h (Finset.notMem_empty d)
  | some m =>
    rw [hm] at h
    dsimp only at h
    split_ifs at h with hinfo herror
    · exact absurd h (Finset.notMem_empty d)
    · rcases stream_of_first hm with ⟨hstream, _⟩ | ⟨_, hhead⟩
      · exact absurd (hstream.symm.trans herror.1) (by decide)
      · exact hhead
    · exact absurd h (Finset.notMem_empty d)

/-! ## What lines add -/

/-- The second state is the first one with a success, an error, passed locations and failed ones. -/
structure Adds (s s' : VerifyState) (success error : Prop) (passed failed : PyStr → Prop) : Prop where
  foundExpected : s'.foundExpected ↔ s.foundExpected ∨ success
  foundError : s'.foundError ↔ s.foundError ∨ error
  passed : ∀ d, d ∈ s'.vacuityPassed ↔ d ∈ s.vacuityPassed ∨ passed d
  failed : ∀ d, d ∈ s'.vacuityFailed ↔ d ∈ s.vacuityFailed ∨ failed d

/-- What is added in two steps. -/
theorem Adds.trans {s s' s'' : VerifyState} {success error success' error' : Prop} {passed failed passed' failed' : PyStr → Prop}
    (h : Adds s s' success error passed failed) (h' : Adds s' s'' success' error' passed' failed') :
    Adds s s'' (success ∨ success') (error ∨ error') (fun d => passed d ∨ passed' d) (fun d => failed d ∨ failed' d) where
  foundExpected := by rw [h'.foundExpected, h.foundExpected, or_assoc]
  foundError := by rw [h'.foundError, h.foundError, or_assoc]
  passed := fun d => by rw [h'.passed, h.passed, or_assoc]
  failed := fun d => by rw [h'.failed, h.failed, or_assoc]

/-- One line adds what each pattern says on its own, as long as the expected string is nothing to the patterns. -/
theorem verifyLine_adds {expect line : PyStr} (hplain : pyStrip line = expect → IsPlain line) (s : VerifyState) :
    Adds s (verifyLine (some expect) s line) (IsSuccess expect line) (reMatch assertErrorPrefix line) (VacuityPassed line)
      (fun d => VacuityFailed line d ∧ ¬reMatch assertErrorPrefix line) := by
  unfold verifyLine
  by_cases hhit : !s.foundExpected ∧ some expect ≠ none ∧ some (pyStrip line) = some expect
  · rw [if_pos hhit]
    have hp := hplain (Option.some.inj hhit.2.2)
    refine ⟨iff_of_true rfl (Or.inr (Or.inl (Option.some.inj hhit.2.2))), ?_, fun d => ?_, fun d => ?_⟩
    · exact (or_iff_left hp.assertError).symm
    · exact (or_iff_left (hp.passed d)).symm
    · exact (or_iff_left fun h => hp.failed d h.1).symm
  rw [if_neg hhit]
  by_cases htask : reMatch noTaskPrefix line
  · rw [if_pos htask]
    have hhead := head_noTask htask
    refine ⟨iff_of_true rfl (Or.inr (Or.inr (Or.inl htask))), ?_, fun d => ?_, fun d => ?_⟩
    · exact (or_iff_left fun h => nomatch hhead.symm.trans (head_assertError h)).symm
    · exact (or_iff_left fun h => nomatch hhead.symm.trans (head_passed h)).symm
    · exact (or_iff_left fun h => nomatch hhead.symm.trans (head_failed h.1)).symm
  rw [if_neg htask]
  by_cases herror : reMatch assertErrorPrefix line
  · rw [if_pos herror]
    have hhead := head_assertError herror
    refine ⟨?_, iff_of_true rfl (Or.inr herror), fun d => ?_, fun d => ?_⟩
    · refine (or_iff_left ?_).symm
      rintro (hstrip | htask' | hpass)
      · exact (hplain hstrip).assertError herror
      · exact htask htask'
      · exact nomatch hhead.symm.trans (head_seahornPass hpass)
    · exact (or_iff_left fun h => nomatch hhead.symm.trans (head_passed h)).symm
    · exact (or_iff_left fun h => h.2 herror).symm
  rw [if_neg herror]
  by_cases hpass : reMatch seahornPassPrefix line
  · rw [if_pos hpass]
    have hhead := head_seahornPass hpass
    refine ⟨iff_of_true rfl (Or.inr (Or.inr (Or.inr hpass))), ?_, fun d => ?_, fun d => ?_⟩
    · exact (or_iff_left herror).symm
    · exact (or_iff_left fun h => nomatch hhead.symm.trans (head_passed h)).symm
    · exact (or_iff_left fun h => nomatch hhead.symm.trans (head_failed h.1)).symm
  rw [if_neg hpass, checkVacuity_eq]
  refine ⟨?_, (or_iff_left herror).symm, fun d => Finset.mem_union, fun d => ?_⟩
  · refine (or_iff_left_of_imp ?_).symm
    rintro (hstrip | htask' | hpass')
    · -- the expected string, but it was found before
      by_contra hfound
      exact hhit ⟨by simpa using hfound, nofun, congrArg some hstrip⟩
    · exact absurd htask' htask
    · exact absurd hpass' hpass
  · rw [and_iff_left herror]
    exact Finset.mem_union

/-- The whole output. -/
theorem verifyLoop_adds {expect : PyStr} {out : List OutputLine}
    (hplain : ∀ l ∈ out, pyStrip l.text = expect → IsPlain l.text) (s : VerifyState) :
    Adds s (out.foldl (fun s l => verifyLine (some expect) s l.text) s) (∃ l ∈ out, IsSuccess expect l.text)
      (∃ l ∈ out, reMatch assertErrorPrefix l.text) (fun d => ∃ l ∈ out, VacuityPassed l.text d)
      (fun d => ∃ l ∈ out, VacuityFailed l.text d ∧ ¬reMatch assertErrorPrefix l.text) := by
  induction out generalizing s with
  | nil => exact ⟨by simp, by simp, by simp, by simp⟩
  | cons l out ih =>
    have hline := verifyLine_adds (hplain l List.mem_cons_self) s
    have hrest := ih (fun l hl => hplain l (List.mem_cons_of_mem _ hl)) (verifyLine (some expect) s l.text)
    simp only [List.exists_mem_cons_iff]
    exact hline.trans hrest

end VerifyAux

end VerifyFiredancer
