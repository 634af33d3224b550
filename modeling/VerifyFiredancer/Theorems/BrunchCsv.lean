import VerifyFiredancer.Theorems.BrunchStat

/-!
# The table of a log

What the script makes from a log of tests (`LogTest`) is read back, as comma-separated values, as the table of its tests: the
names of the metrics, and under them a row for each test, also when the names and the statistics have commas or quotes in them.
-/

namespace VerifyFiredancer

/-- What a test has under a metric: its name, or the last of its statistics, or `n/a`. -/
def LogTest.cell (t : LogTest) (metric : PyStr) : PyStr :=
  if metric = "job_name".toList then t.name else (t.lastStat metric).getD "n/a".toList

namespace BrunchStatAux

/-- The row of a test has its cells. -/
theorem testRow_cell (t : LogTest) {metric : PyStr} (hmem : metric ∈ metricsYaml.map Prod.fst) :
    testRow metricsYaml t metric = t.cell metric := by
  rw [LogTest.cell]
  split_ifs with h
  · rw [h]
    exact testRow_jobName (by decide) t
  · exact testRow_metric (by decide) t hmem h

end BrunchStatAux

open BrunchStatAux in
/-- From a log of tests the script writes a file that reads back as a table: the names of the metrics, and for every test, in
order, its row. -/
theorem brunchstat_csv (tests : List LogTest) (log : PyStr) (h : universalNewlines log = tests.flatMap LogTest.text) :
    ∃ data, readBrunchstatFromLog metricsYaml log = some data ∧
      csvExcel.read (writeBrunchstatIntoCsv metricsYaml data) =
        metricsYaml.map Prod.snd :: tests.map fun t => metricsYaml.map fun m => t.cell m.1 := by
  refine ⟨_, readBrunchstatFromLog_tests (by decide) h, ?_⟩
  have hrow : ∀ t, (metricsYaml.map fun m => testRow metricsYaml t m.1) = metricsYaml.map fun m => t.cell m.1 := by
    intro t
    exact List.map_congr_left fun m hm => testRow_cell t (List.mem_map_of_mem hm)
  rw [writeBrunchstatIntoCsv, Csv.Dialect.read_write, List.map_map]
  exact congrArg _ (List.map_congr_left fun t _ => hrow t)

/-- A log of a test that has a comma and a quote in its name. -/
def logOfQuoted : PyStr := "Testing: a,\"b_unsat_test\r\nBRUNCH_STAT BMC 2.50\n".toList

/-- The name is in quotes in the file, and is read back. -/
theorem brunchstat_csv_quoted :
    ∃ data, readBrunchstatFromLog metricsYaml logOfQuoted = some data ∧
      ((csvExcel.read (writeBrunchstatIntoCsv metricsYaml data)).map fun row => (row[0]?, row[14]?)) =
        [(some "job_name".toList, some "bmc_time".toList), (some "a,\"b".toList, some "2.50".toList)] := by
  let t : LogTest := {
    lead := []
    name := "a,\"b".toList
    output := ["BRUNCH_STAT BMC 2.50".toList]
    lead_newline := by decide
    name_newline := by decide
    marker_once := (TextLines.occursOnce_iff (by decide)).2 (by decide)
    output_newline := by decide
    output_marker := by decide
    output_jobName := by decide }
  obtain ⟨data, hread, htable⟩ := brunchstat_csv [t] logOfQuoted (by decide +kernel)
  refine ⟨data, hread, ?_⟩
  rw [htable]
  decide

end VerifyFiredancer
