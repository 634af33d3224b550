import VerifyFiredancer.Theorems.VerifyVerdict

/-!
# The verdict by the set of lines

The loop of the driver takes a line by the first test that it passes, and one of the tests looks at what the lines before it
did. The order does not show for all that: `sat` and `unsat` are nothing to the patterns, and two patterns take one line only
where it is that of a failed assertion, which is reported whatever location it hides. So the exit code is a function of the set
of the lines, `verdict`.
-/

namespace VerifyFiredancer

open VerifyAux

/-- The line is of the vacuity check, with its stream, its result and the location it is about. -/
def LocationLine (stream result : String) (line d : PyStr) : Prop :=
  ∃ m, vacuityCheckRe.first line = some m ∧ m .stream = some stream.toList ∧ m .what = some "vacuity".toList ∧
    m .result = some result.toList ∧ d = pyStrip ((m .debuginfo).getD [])

/-- What `--vac` reports of a set of lines: an assertion failed, or a location failed and did not pass. -/
def VacReports (lines : Set PyStr) : Prop :=
  (∃ l ∈ lines, "Error: assertion failed".toList <+: l) ∨
    ∃ d, (∃ l ∈ lines, LocationLine "Error" "failed" l d) ∧ ¬∃ l ∈ lines, LocationLine "Info" "passed" l d

open Classical in
/-- The exit code by the set of the lines. -/
noncomputable def verdict (expect : PyStr) (vac : Bool) (lines : Set PyStr) (rcode : Int) : Int :=
  if vac ∧ VacReports lines then 2
  else if rcode = 0 then if ∃ l ∈ lines, IsSuccess expect l then 0 else 1
  else rcode

/-- The set of the lines of an output. -/
def lineSet (out : List OutputLine) : Set PyStr := { t | ∃ l ∈ out, l.text = t }

namespace VerifyLinesAux

/-- What a line adds to the passed locations. -/
theorem vacuityPassed_iff {line d : PyStr} : VacuityPassed line d ↔ LocationLine "Info" "passed" line d := by
  unfold VacuityPassed checkVacuity LocationLine
  cases vacuityCheckRe.first line with
  | none => simp
  | some m =>
    dsimp only
    split_ifs with hinfo herror
    · simp [hinfo]
    · simp [herror]
    · simpa using fun h1 h2 h3 _ => hinfo ⟨h1, h2, h3⟩

/-- What a line adds to the failed locations. -/
theorem vacuityFailed_iff {line d : PyStr} : VacuityFailed line d ↔ LocationLine "Error" "failed" line d := by
  unfold VacuityFailed checkVacuity LocationLine
  cases vacuityCheckRe.first line with
  | none => simp
  | some m =>
    dsimp only
    split_ifs with hinfo herror
    · simp [hinfo]
    · simp [herror]
    · simpa using fun h1 h2 h3 _ => herror ⟨h1, h2, h3⟩

/-- What is reported, by the set of the lines. -/
theorem errorReported_iff_vacReports {out : List OutputLine} : ErrorReported out ↔ VacReports (lineSet out) := by
  simp [ErrorReported, VacReports, lineSet, vacuityPassed_iff, vacuityFailed_iff, reMatch, assertErrorPrefix, reWord,
    Regex.first_lit_isSome_iff]

/-- The first character of a line that is a word but for the white space around it. -/
theorem head_of_strip {line w : PyStr} {c : Char} (h : pyStrip line = c :: w) :
    ∃ a, line.head? = some a ∧ (a = c ∨ pyIsSpace a) := by
  cases line with
  | nil => cases h
  | cons a line =>
    refine ⟨a, rfl, ?_⟩
    by_cases hspace : pyIsSpace a
    · exact Or.inr hspace
    · refine Or.inl ?_
      rw [pyStrip, List.dropWhile_cons_of_neg hspace, List.reverse_cons] at h
      have hkeep : ∀ l : PyStr, (l ++ [a]).dropWhile pyIsSpace = l.dropWhile pyIsSpace ++ [a] := by
        intro l
        induction l with
        | nil => simp [hspace]
        | cons b l ih => by_cases hb : pyIsSpace b <;> simp [hb, ih]
      rw [hkeep, List.reverse_append, List.reverse_singleton, List.singleton_append] at h
      exact (List.cons.inj h).1

/-- A line that is a word but for the white space around it is nothing to the patterns, when the word does not begin as one
of them does. -/
theorem isPlain_of_strip {line w : PyStr} {c : Char} (h : pyStrip line = c :: w) (hc : c ∉ ['W', 'E', 'B', 'I']) :
    IsPlain line := by
  obtain ⟨a, hhead, ha⟩ := head_of_strip h
  have hnospace : (['W', 'E', 'B', 'I'].all fun b => !pyIsSpace b) = true := by decide
  have hne : ∀ b ∈ ['W', 'E', 'B', 'I'], line.head? ≠ some b := by
    rintro b hb heq
    rw [hhead] at heq
    cases heq
    rcases ha with rfl | hspace
    · exact hc hb
    · have := List.all_eq_true.1 hnospace a hb
      rw [hspace] at this
      cases this
  exact {
    noTask := fun hm => hne 'W' (by decide) (head_noTask hm)
    assertError := fun hm => hne 'E' (by decide) (head_assertError hm)
    seahornPass := fun hm => hne 'B' (by decide) (head_seahornPass hm)
    passed := fun d hm => hne 'I' (by decide) (head_passed hm)
    failed := fun d hm => hne 'E' (by decide) (head_failed hm) }

/-- The exit code of an output, for an expected word that does not begin as one of the patterns does. -/
theorem verifyRun_eq_verdict {expect : PyStr} (hplain : ∀ line, pyStrip line = expect → IsPlain line) (vac : Bool)
    (out : List OutputLine) (rcode : Int) :
    verifyRun ⟨some expect, vac⟩ out rcode = verdict expect vac (lineSet out) rcode := by
  have hadds : Adds _ (verifyLoop (some expect) out) _ _ _ _ := verifyLoop_adds (fun l _ => hplain l.text) ⟨false, false, ∅, ∅⟩
  have hreport := errorReported_iff hadds rfl
  have hsuccess : (verifyLoop (some expect) out).foundExpected ↔ ∃ l ∈ lineSet out, IsSuccess expect l := by
    rw [hadds.foundExpected, or_iff_right Bool.false_ne_true]
    simp [lineSet]
  rw [errorReported_iff_vacReports] at hreport
  rw [verifyRun_some, verdict]
  by_cases hvac : vac ∧ VacReports (lineSet out)
  · rw [if_pos hvac, if_pos ⟨hvac.1, hreport.2 hvac.2⟩]
  · rw [if_neg hvac, if_neg fun h => hvac ⟨h.1, hreport.1 h.2⟩]
    by_cases hfound : ∃ l ∈ lineSet out, IsSuccess expect l
    · rw [if_pos hfound, if_pos (hsuccess.2 hfound)]
    · rw [if_neg hfound, if_neg fun h => hfound (hsuccess.1 h)]

end VerifyLinesAux

open VerifyLinesAux in
/-- For `sat` and `unsat`, the exit code is one and the same for any two outputs with one set of lines, and it is the verdict on
that set. -/
theorem verify_set_only {expect : PyStr} (h : expect = "sat".toList ∨ expect = "unsat".toList) (vac : Bool) (rcode : Int) :
    (∀ out out', lineSet out = lineSet out' → verifyRun ⟨some expect, vac⟩ out rcode = verifyRun ⟨some expect, vac⟩ out' rcode) ∧
      ∀ out, verifyRun ⟨some expect, vac⟩ out rcode = verdict expect vac (lineSet out) rcode := by
  have hplain : ∀ line, pyStrip line = expect → IsPlain line := by
    rcases h with rfl | rfl
    · exact fun line hline => isPlain_of_strip hline (by decide)
    · exact fun line hline => isPlain_of_strip hline (by decide)
  refine ⟨fun out out' hset => ?_, fun out => verifyRun_eq_verdict hplain vac out rcode⟩
  rw [verifyRun_eq_verdict hplain, verifyRun_eq_verdict hplain, hset]

/-- For `unsat`, under `--vac` and with exit code zero. -/
theorem verify_set_only_unsat :
    (∀ out out', lineSet out = lineSet out' →
        verifyRun ⟨some "unsat".toList, true⟩ out 0 = verifyRun ⟨some "unsat".toList, true⟩ out' 0) ∧
      ∀ out, verifyRun ⟨some "unsat".toList, true⟩ out 0 = verdict "unsat".toList true (lineSet out) 0 :=
  verify_set_only (Or.inr rfl) true 0

end VerifyFiredancer
