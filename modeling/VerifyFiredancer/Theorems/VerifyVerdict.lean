import VerifyFiredancer.Lemmas.Verify

/-!
# When a refuted job passes

With `--expect=unsat`, a job whose output says `sat` and nowhere `unsat` is refuted. The driver passes it exactly when the
backend exits with zero, a line of its statistics or of a missing task is there, and `--vac` reports no error
(`verify_refuted_iff`). The base configurations of the jobs ask for these statistics, `horn-stats: true`.
-/

namespace VerifyFiredancer

open VerifyAux

/-- What the driver reports under `--vac`: a failed assertion, or a location that failed and did not pass. -/
def ErrorReported (out : List OutputLine) : Prop :=
  (∃ l ∈ out, reMatch assertErrorPrefix l.text) ∨
    ∃ d, (∃ l ∈ out, VacuityFailed l.text d) ∧ ∀ l ∈ out, ¬VacuityPassed l.text d

/-- An output that says `sat` and nowhere `unsat`. -/
structure IsRefuted (out : List OutputLine) : Prop where
  sat : ∃ l ∈ out, pyStrip l.text = "sat".toList
  unsat : ∀ l ∈ out, pyStrip l.text ≠ "unsat".toList

/-- No refuted job passes. -/
def NeverPassesRefuted : Prop :=
  ∀ (out : List OutputLine) (rcode : Int) (vac : Bool), IsRefuted out →
    verifyRun ⟨some "unsat".toList, vac⟩ out rcode ≠ 0

namespace VerifyAux

/-- What the loop found and did not find is what is reported. -/
theorem errorReported_iff {out : List OutputLine} {s s' : VerifyState} {success : Prop}
    (h : Adds s s' success (∃ l ∈ out, reMatch assertErrorPrefix l.text) (fun d => ∃ l ∈ out, VacuityPassed l.text d)
      (fun d => ∃ l ∈ out, VacuityFailed l.text d ∧ ¬reMatch assertErrorPrefix l.text))
    (hs : s = ⟨false, false, ∅, ∅⟩) :
    s'.foundError ∨ (s'.vacuityFailed \ s'.vacuityPassed).Nonempty ↔ ErrorReported out := by
  subst hs
  have herror : s'.foundError ↔ ∃ l ∈ out, reMatch assertErrorPrefix l.text := by
    rw [h.foundError]
    exact or_iff_right Bool.false_ne_true
  have hpassed : ∀ d, d ∈ s'.vacuityPassed ↔ ∃ l ∈ out, VacuityPassed l.text d := by
    intro d
    rw [h.passed]
    exact or_iff_right (Finset.notMem_empty d)
  have hfailed : ∀ d, d ∈ s'.vacuityFailed ↔ ∃ l ∈ out, VacuityFailed l.text d ∧ ¬reMatch assertErrorPrefix l.text := by
    intro d
    rw [h.failed]
    exact or_iff_right (Finset.notMem_empty d)
  rw [herror, ErrorReported]
  constructor
  · rintro (h | ⟨d, hd⟩)
    · exact Or.inl h
    · rw [Finset.mem_sdiff, hpassed, hfailed] at hd
      obtain ⟨⟨l, hl, hfail, _⟩, hno⟩ := hd
      exact Or.inr ⟨d, ⟨l, hl, hfail⟩, fun k hk hpass => hno ⟨k, hk, hpass⟩⟩
  · rintro (h | ⟨d, ⟨l, hl, hfail⟩, hno⟩)
    · exact Or.inl h
    · -- a failed location on the line of a failed assertion is not in the set, but then that is reported
      by_cases hassert : reMatch assertErrorPrefix l.text
      · exact Or.inl ⟨l, hl, hassert⟩
      · refine Or.inr ⟨d, ?_⟩
        rw [Finset.mem_sdiff, hpassed, hfailed]
        exact ⟨⟨l, hl, hfail, hassert⟩, fun ⟨k, hk, hpass⟩ => hno k hk hpass⟩

/-- The verdict of what the loop found. -/
theorem verifyRun_some (expect : PyStr) (out : List OutputLine) (rcode : Int) (vac : Bool) :
    verifyRun ⟨some expect, vac⟩ out rcode =
      if vac ∧ ((verifyLoop (some expect) out).foundError ∨
          ((verifyLoop (some expect) out).vacuityFailed \ (verifyLoop (some expect) out).vacuityPassed).Nonempty) then 2
      else if rcode = 0 then if (verifyLoop (some expect) out).foundExpected then 0 else 1
      else rcode := by
  rw [verifyRun, if_neg (Option.some_ne_none expect)]
  dsimp only
  generalize verifyLoop (some expect) out = s
  by_cases hreport : vac ∧ (s.foundError ∨ (s.vacuityFailed \ s.vacuityPassed).Nonempty)
  · rw [if_pos hreport]
    by_cases herror : s.foundError
    · rw [if_pos ⟨hreport.1, herror⟩]
    · rw [if_neg fun h => herror h.2, if_pos ⟨hreport.1, hreport.2.resolve_left herror⟩]
  · rw [if_neg hreport, if_neg fun h => hreport ⟨h.1, Or.inl h.2⟩, if_neg fun h => hreport ⟨h.1, Or.inr h.2⟩]
    by_cases hrcode : rcode = 0
    · rw [if_pos ⟨hrcode, Option.some_ne_none expect⟩, if_pos hrcode]
    · rw [if_neg fun h => hrcode h.1, if_neg hrcode]

/-- When the verdict of what the loop found is zero. -/
theorem verifyRun_some_eq_zero_iff (expect : PyStr) (out : List OutputLine) (rcode : Int) (vac : Bool) :
    verifyRun ⟨some expect, vac⟩ out rcode = 0 ↔
      rcode = 0 ∧ (verifyLoop (some expect) out).foundExpected ∧
        ¬(vac ∧ ((verifyLoop (some expect) out).foundError ∨
          ((verifyLoop (some expect) out).vacuityFailed \ (verifyLoop (some expect) out).vacuityPassed).Nonempty)) := by
  rw [verifyRun_some]
  split_ifs with hreport hrcode hfound
  · exact iff_of_false (by decide) fun h => h.2.2 hreport
  · exact iff_of_true rfl ⟨hrcode, hfound, hreport⟩
  · exact iff_of_false (by decide) fun h => hfound h.2.1
  · exact iff_of_false hrcode fun h => hrcode h.1

/-- When the driver exits with zero, in terms of the lines of the output. -/
theorem verifyRun_eq_zero_iff {expect : PyStr} {out : List OutputLine}
    (hplain : ∀ l ∈ out, pyStrip l.text = expect → IsPlain l.text) (rcode : Int) (vac : Bool) :
    verifyRun ⟨some expect, vac⟩ out rcode = 0 ↔
      rcode = 0 ∧ (∃ l ∈ out, IsSuccess expect l.text) ∧ ¬(vac ∧ ErrorReported out) := by
  have hadds : Adds _ (verifyLoop (some expect) out) _ _ _ _ := verifyLoop_adds hplain ⟨false, false, ∅, ∅⟩
  have hsuccess : (verifyLoop (some expect) out).foundExpected ↔ ∃ l ∈ out, IsSuccess expect l.text := by
    rw [hadds.foundExpected]
    exact or_iff_right Bool.false_ne_true
  rw [verifyRun_some_eq_zero_iff, hsuccess, errorReported_iff hadds rfl]

end VerifyAux

/-- A refuted job does not pass exactly when the backend fails, no line counts as a success, or `--vac` reports an error. -/
theorem verify_refuted_iff (out : List OutputLine) (rcode : Int) (vac : Bool) (h : IsRefuted out) :
    verifyRun ⟨some "unsat".toList, vac⟩ out rcode ≠ 0 ↔
      rcode ≠ 0 ∨ (∀ l ∈ out, ¬reMatch noTaskPrefix l.text ∧ ¬reMatch seahornPassPrefix l.text) ∨ vac ∧ ErrorReported out := by
  rw [ne_eq, verifyRun_eq_zero_iff fun l hl hstrip => absurd hstrip (h.unsat l hl)]
  constructor
  · intro hne
    by_contra hnot
    rw [not_or, not_or, not_not] at hnot
    obtain ⟨hrcode, hline, hreport⟩ := hnot
    refine hne ⟨hrcode, ?_, hreport⟩
    by_contra hno
    exact hline fun l hl => ⟨fun htask => hno ⟨l, hl, Or.inr (Or.inl htask)⟩, fun hpass => hno ⟨l, hl, Or.inr (Or.inr hpass)⟩⟩
  · rintro hor ⟨hrcode, ⟨l, hl, hstrip | htask | hpass⟩, hreport⟩
    · exact h.unsat l hl hstrip
    · rcases hor with hne | hline | hrep
      · exact hne hrcode
      · exact (hline l hl).1 htask
      · exact hreport hrep
    · rcases hor with hne | hline | hrep
      · exact hne hrcode
      · exact (hline l hl).2 hpass
      · exact hreport hrep

/-- The output is one line. -/
theorem verify_refuted_sat : verifyRun ⟨some "unsat".toList, false⟩ [⟨"sat\n".toList, by decide, by decide⟩] 0 ≠ 0 :=
  (verify_refuted_iff [⟨"sat\n".toList, by decide, by decide⟩] 0 false
    ⟨⟨_, List.mem_singleton_self _, by decide⟩, by decide⟩).2 (Or.inr (Or.inl (by decide)))

/-- A line of the statistics after `sat`. -/
theorem verify_refuted_passes : ¬NeverPassesRefuted := by
  intro h
  refine h [⟨"sat\n".toList, by decide, by decide⟩, ⟨"BRUNCH_STAT seahorn_total 1.23\n".toList, by decide, by decide⟩] 0 false
    ⟨⟨_, List.mem_cons_self, by decide⟩, by decide⟩ ?_
  decide

end VerifyFiredancer
