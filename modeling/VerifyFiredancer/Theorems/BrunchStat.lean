import VerifyFiredancer.BrunchStat
import VerifyFiredancer.Lib.LastWrite

/-!
# Statistics go to their test

A log of tests is a line that names each test and then what the test printed. What is read from it is a row for each test, in
order, and what stands in a row comes from the lines of its test: the last line of the statistics for the metric, or `n/a`.
-/

namespace VerifyFiredancer

open TextLines

/-- The line is one of the statistics for the metric, by what it has between its first and its last word. -/
def IsStatOf (metric line : PyStr) : Prop :=
  "BRUNCH_STAT".toList <+: line ∧ pyJoin (pySplit line).tail.dropLast = metric

instance (metric line : PyStr) : Decidable (IsStatOf metric line) :=
  inferInstanceAs (Decidable (_ ∧ _))

/-- What a log has of a test: the line that names it, with something before the marker, and the lines that it printed. The lines
are without their newlines. -/
structure LogTest where
  lead : PyStr
  name : PyStr
  output : List PyStr
  lead_newline : '\n' ∉ lead
  name_newline : '\n' ∉ name
  marker_once : OccursOnce "Testing: ".toList (lead ++ "Testing: ".toList ++ name ++ "_unsat_test".toList)
  output_newline : ∀ line ∈ output, '\n' ∉ line
  output_marker : ∀ line ∈ output, ¬"Testing: ".toList <:+: line
  output_jobName : ∀ line ∈ output, ¬IsStatOf "job_name".toList line

namespace LogTest

/-- The line that names the test. -/
def header (t : LogTest) : PyStr := t.lead ++ "Testing: ".toList ++ t.name ++ "_unsat_test".toList

/-- The part of the log. -/
def text (t : LogTest) : PyStr := (t.header :: t.output).flatMap (· ++ ['\n'])

/-- The last word of the last line of the statistics for a metric. -/
def lastStat (t : LogTest) (metric : PyStr) : Option PyStr :=
  (t.output.filter (IsStatOf metric ·)).getLast?.bind fun line => (pySplit line).getLast?

/-- No line of the test has a newline in it. -/
theorem newline_not_mem (t : LogTest) : ∀ line ∈ t.header :: t.output, '\n' ∉ line := by
  intro line hline
  rcases List.mem_cons.1 hline with rfl | hline
  · have hwords : '\n' ∉ "Testing: ".toList ∧ '\n' ∉ "_unsat_test".toList := by decide
    simp only [header, List.mem_append, not_or]
    exact ⟨⟨⟨t.lead_newline, hwords.1⟩, t.name_newline⟩, hwords.2⟩
  · exact t.output_newline line hline

end LogTest

namespace BrunchStatAux

variable {metrics : List (PyStr × PyStr)}

/-- The metric that a line sets. -/
def statKey (metrics : List (PyStr × PyStr)) (line : PyStr) : Option PyStr :=
  if "BRUNCH_STAT".toList <+: line ∧ (metrics.map Prod.fst).contains (pyJoin (pySplit line).tail.dropLast) then
    some (pyJoin (pySplit line).tail.dropLast)
  else none

/-- The value that a line sets it to. -/
def statVal (line : PyStr) : PyStr := (pySplit line).getLast?.getD []

/-- A line sets the metric that it is one of the statistics for. -/
theorem statKey_eq_some_iff {metric line : PyStr} (hmem : metric ∈ metrics.map Prod.fst) :
    statKey metrics line = some metric ↔ IsStatOf metric line := by
  rw [statKey, IsStatOf, Option.ite_none_right_eq_some, Option.some.injEq]
  constructor
  · rintro ⟨⟨hpre, _⟩, heq⟩
    exact ⟨hpre, heq⟩
  · rintro ⟨hpre, rfl⟩
    exact ⟨⟨hpre, List.contains_iff_mem.2 hmem⟩, rfl⟩

/-- The newline of a line is nothing to its words. -/
theorem pySplit_newline (line : PyStr) : pySplit (line ++ ['\n']) = pySplit line :=
  words_concat (by decide) line

theorem prefix_newline {line : PyStr} : "BRUNCH_STAT".toList <+: line ++ ['\n'] ↔ "BRUNCH_STAT".toList <+: line := by
  simpa using occurs_concat (w := "BRUNCH_STAT".toList) (by decide) (show '\n' ∉ _ by decide) line 0

/-- The marker is found in the line with its newline where it is without. -/
theorem reSearch_newline (line : PyStr) :
    reSearch "Testing: ".toList (line ++ ['\n']) = (find "Testing: ".toList line).map fun i => (i, i + 9) :=
  congrArg (Option.map _) (find_concat (by decide) (by decide) line)

/-- The loop body for a line that is given without its newline. -/
def stepLine (metrics : List (PyStr × PyStr)) (data : List TestData) (line : PyStr) : Option (List TestData) :=
  brunchstatLine metrics data (line ++ ['\n'])

/-- The line that names a test opens the row of the test. -/
theorem stepLine_header (t : LogTest) (rows : List TestData) :
    stepLine metrics rows t.header =
      some (rows ++ [Function.update newTestData "job_name".toList t.name]) := by
  have hfind : find "Testing: ".toList t.header = some t.lead.length := by
    refine find_of_occursOnce t.marker_once ?_ ?_
    · simp [LogTest.header]
    · simp [LogTest.header]
  have hdrop : (t.header ++ ['\n']).drop (t.lead.length + 9) = t.name ++ "_unsat_test\n".toList := by
    have hsplit : t.header ++ ['\n'] = (t.lead ++ "Testing: ".toList) ++ (t.name ++ "_unsat_test\n".toList) := by
      simp [LogTest.header]
    rw [hsplit]
    exact List.drop_left' (by simp)
  have hname : (t.name ++ "_unsat_test\n".toList).rdrop 12 = t.name := List.rdrop_append_length
  rw [stepLine, brunchstatLine, reSearch_newline, hfind]
  simp only [Option.map_some, hdrop, hname]

/-- What a test prints changes the row opened last, and no other. -/
theorem stepLine_output (hm : [] ∉ metrics.map Prod.fst) {line : PyStr} (h : ¬"Testing: ".toList <:+: line)
    (rows : List TestData) (row : TestData) :
    stepLine metrics (rows ++ [row]) line =
      some (rows ++ [LastWrite.write (statKey metrics) statVal row line]) := by
  rw [stepLine, brunchstatLine, reSearch_newline, find_eq_none_iff.2 h]
  simp only [Option.map_none, pySplit_newline, prefix_newline, LastWrite.write, statKey, statVal, List.contains_iff_mem]
  by_cases hpre : "BRUNCH_STAT".toList <+: line
  · by_cases hmem : pyJoin (pySplit line).tail.dropLast ∈ metrics.map Prod.fst
    · -- a metric has a name, so the line has words
      have hne : pySplit line ≠ [] := by
        intro hnil
        rw [hnil] at hmem
        exact hm hmem
      rw [if_pos hpre, if_pos hmem, if_pos ⟨hpre, hmem⟩, List.getLast?_eq_some_getLast hne]
      simp [setLast]
    · rw [if_pos hpre, if_neg hmem, if_neg fun h => hmem h.2, Option.elim_none]
  · rw [if_neg hpre, if_neg fun h => hpre h.1, Option.elim_none]

/-- The row of a test: what its lines set, after its name. -/
def testRow (metrics : List (PyStr × PyStr)) (t : LogTest) : TestData :=
  t.output.foldl (LastWrite.write (statKey metrics) statVal) (Function.update newTestData "job_name".toList t.name)

theorem testRow_apply (t : LogTest) (metric : PyStr) :
    testRow metrics t metric =
      ((t.output.filter (statKey metrics · = some metric)).getLast?.map statVal).getD
        (Function.update newTestData "job_name".toList t.name metric) :=
  LastWrite.foldl_write (statKey metrics) statVal t.output _ metric

/-- What is read from a log of tests: a row for each, in order, made from its lines alone. -/
theorem readBrunchstatFromLog_tests (hm : [] ∉ metrics.map Prod.fst) {tests : List LogTest} {log : PyStr}
    (h : universalNewlines log = tests.flatMap LogTest.text) :
    readBrunchstatFromLog metrics log = some (tests.map (testRow metrics)) := by
  have hlines : tests.flatMap LogTest.text = (tests.flatMap fun t => t.header :: t.output).flatMap (· ++ ['\n']) :=
    List.flatMap_assoc.symm
  have hnewline : ∀ line ∈ tests.flatMap fun t => t.header :: t.output, '\n' ∉ line := by
    intro line hline
    obtain ⟨t, _, ht⟩ := List.mem_flatMap.1 hline
    exact t.newline_not_mem line ht
  rw [readBrunchstatFromLog, h, hlines, readLoop_lines hnewline]
  exact foldlM_blocks stepLine_header (fun t line hline => stepLine_output hm (t.output_marker line hline)) tests []

/-- The name in the row of a test. -/
theorem testRow_jobName (hm : "job_name".toList ∈ metrics.map Prod.fst) (t : LogTest) :
    testRow metrics t "job_name".toList = t.name := by
  have hnone : t.output.filter (statKey metrics · = some "job_name".toList) = [] := by
    rw [List.filter_eq_nil_iff]
    intro line hline
    rw [decide_eq_true_eq, statKey_eq_some_iff hm]
    exact t.output_jobName line hline
  rw [testRow_apply, hnone, List.getLast?_nil, Option.map_none, Option.getD_none, Function.update_self]

/-- A metric in the row of a test. -/
theorem testRow_metric (hm : [] ∉ metrics.map Prod.fst) (t : LogTest) {metric : PyStr}
    (hmem : metric ∈ metrics.map Prod.fst) (hne : metric ≠ "job_name".toList) :
    testRow metrics t metric = (t.lastStat metric).getD "n/a".toList := by
  have hfilter : t.output.filter (statKey metrics · = some metric) = t.output.filter (IsStatOf metric ·) :=
    List.filter_congr fun line _ => decide_eq_decide.2 (statKey_eq_some_iff hmem)
  rw [testRow_apply, hfilter, Function.update_of_ne hne, LogTest.lastStat]
  cases hlast : (t.output.filter (IsStatOf metric ·)).getLast? with
  | none => rfl
  | some line =>
    have hstat : IsStatOf metric line := by simpa using List.of_mem_filter (List.mem_of_getLast? hlast)
    have hwords : pySplit line ≠ [] := by
      intro hnil
      have : metric = [] := by rw [← hstat.2, hnil]; rfl
      exact hm (this ▸ hmem)
    rw [Option.map_some, Option.bind_some, statVal, List.getLast?_eq_some_getLast hwords]
    rfl

end BrunchStatAux

open BrunchStatAux in
/-- From a log of tests one row is read for each test, in order: its name under `job_name`, and under every other metric the
last word of the last line of the statistics for it among the lines of the test, or `n/a`. -/
theorem brunchstat_rows (tests : List LogTest) (log : PyStr) (h : universalNewlines log = tests.flatMap LogTest.text) :
    ∃ data, readBrunchstatFromLog metricsYaml log = some data ∧
      List.Forall₂ (fun t row => row "job_name".toList = t.name ∧
        ∀ metric ∈ metricsYaml.map Prod.fst, metric ≠ "job_name".toList →
          row metric = (t.lastStat metric).getD "n/a".toList) tests data := by
  have hm : [] ∉ metricsYaml.map Prod.fst := by decide
  refine ⟨_, readBrunchstatFromLog_tests hm h, ?_⟩
  rw [List.forall₂_map_right_iff, List.forall₂_same]
  exact fun t _ => ⟨testRow_jobName (by decide) t, fun metric hmem hne => testRow_metric hm t hmem hne⟩

/-- A log of two tests. -/
def logOfTwo : PyStr :=
  ("1 Testing: a_unsat_test\r\nBRUNCH_STAT BMC 1.00\nBRUNCH_STAT Control dependence analysis 0.01\n" ++
    "BRUNCH_STAT BMC 2.50\nTesting: b_unsat_test\nok\n").toList

/-- Of two lines for `BMC` the last counts, and none of them for the second test. -/
theorem brunchstat_rows_two :
    ∃ data, readBrunchstatFromLog metricsYaml logOfTwo = some data ∧
      data.map (· "job_name".toList) = ["a".toList, "b".toList] ∧
      data.map (· "BMC".toList) = ["2.50".toList, "n/a".toList] ∧
      data.map (· "Control dependence analysis".toList) = ["0.01".toList, "n/a".toList] := by
  let a : LogTest := {
    lead := "1 ".toList
    name := "a".toList
    output := ["BRUNCH_STAT BMC 1.00".toList, "BRUNCH_STAT Control dependence analysis 0.01".toList,
      "BRUNCH_STAT BMC 2.50".toList]
    lead_newline := by decide
    name_newline := by decide
    marker_once := (occursOnce_iff (by decide)).2 (by decide)
    output_newline := by decide
    output_marker := by decide
    output_jobName := by decide }
  let b : LogTest := {
    lead := []
    name := "b".toList
    output := ["ok".toList]
    lead_newline := by decide
    name_newline := by decide
    marker_once := (occursOnce_iff (by decide)).2 (by decide)
    output_newline := by decide
    output_marker := by decide
    output_jobName := by decide }
  obtain ⟨data, hread, hrows⟩ := brunchstat_rows [a, b] logOfTwo (by decide +kernel)
  refine ⟨data, hread, ?_⟩
  cases hrows with
  | cons ha hrest =>
    cases hrest with
    | cons hb hrest =>
      cases hrest
      refine ⟨?_, ?_, ?_⟩
      · rw [List.map_cons, List.map_cons, ha.1, hb.1]
        rfl
      · rw [List.map_cons, List.map_cons, ha.2 _ (by decide) (by decide), hb.2 _ (by decide) (by decide)]
        decide
      · rw [List.map_cons, List.map_cons, ha.2 _ (by decide) (by decide), hb.2 _ (by decide) (by decide)]
        decide

end VerifyFiredancer
