import VerifyFiredancer.Lib.Csv
import VerifyFiredancer.Lib.TextLines
import VerifyFiredancer.Verify
import Mathlib.Data.List.DropRight

/-!
# BrunchStat: the statistics of a log

`get_exper_brunch_stat.py` makes the tables of the experiments from the log of a test run. `read_brunchstat_from_log` goes through
the log line by line: a line with `Testing: ` in it opens a row for the test that it names, and a line that starts with
`BRUNCH_STAT` sets one metric in the row opened last, when the metric is one of `metrics.yaml`. The log is the text of the file,
decoded; `none` is an exception, that of `data[-1]` for an empty list. `write_brunchstat_into_csv` writes the rows as a table of
comma-separated values, in the dialect that `csv.writer` has by default.
-/

namespace VerifyFiredancer

open TextLines

/-- `open` with the mode `'r'` reads with universal newlines: `\r\n` and `\r` are read as `\n`. -/
def universalNewlines : PyStr → PyStr
  | [] => []
  | '\r' :: '\n' :: s => '\n' :: universalNewlines s
  | '\r' :: s => '\n' :: universalNewlines s
  | c :: s => c :: universalNewlines s

/-- `re.search` for a pattern that is a word: the `span` of the match. -/
def reSearch (w line : PyStr) : Option (Nat × Nat) := (find w line).map fun start => (start, start + w.length)

/-- `str.split`. -/
def pySplit (s : PyStr) : List PyStr := words pyIsSpace s

/-- `" ".join`. -/
def pyJoin (parts : List PyStr) : PyStr := List.intercalate [' '] parts

/-- A `defaultdict` with the default `'n/a'`: what it gives for each key. -/
abbrev TestData : Type := PyStr → PyStr

/-- `defaultdict(lambda: 'n/a')`. -/
def newTestData : TestData := fun _ => "n/a".toList

/-- `data[-1][key] = value`. -/
def setLast (data : List TestData) (key value : PyStr) : Option (List TestData) :=
  data.getLast?.map fun row => data.dropLast ++ [Function.update row key value]

/-- What `yaml.safe_load` gives for `metrics.yaml`: the metrics and their names in the table. -/
def metricsYaml : List (PyStr × PyStr) :=
  [("job_name", "job_name"),
    ("Result", "result"),
    ("pp_loc", "pp_loc"),
    ("opsem_loc", "opsem_loc"),
    ("bmc.circ_sz", "bmc_circuit_size"),
    ("bmc.dag_sz", "bmc_dag_size"),
    ("crab.opsem.isderef.not.solve", "opsem.isderef.not.solve"),
    ("crab.opsem.isderef.solve", "opsem.isderef.solve"),
    ("crab.pp.isderef.not.solve", "pp.isderef.not.solve"),
    ("crab.pp.isderef.solve", "pp.isderef.solve"),
    ("opsem.crab", "opsem_crab_time"),
    ("opsem.crab.range", "opsem_crab_range_time"),
    ("pp.crab.range", "pp_crab_range_time"),
    ("seapp.crab", "pp_crab_time"),
    ("BMC", "bmc_time"),
    ("BMC.solve", "bmc_solve_time"),
    ("Control dependence analysis", "cda_time"),
    ("Thinned Gate SSA transformation", "gssa_time"),
    ("opsem.assert", "opsem_assert_time"),
    ("opsem.simplify", "opsem_simp_time"),
    ("seahorn_total", "seahorn_total_time")].map fun m => (m.1.toList, m.2.toList)

/-- The loop body of `read_brunchstat_from_log` for one line. -/
def brunchstatLine (metrics : List (PyStr × PyStr)) (data : List TestData) (line : PyStr) : Option (List TestData) :=
  match reSearch "Testing: ".toList line with
  | some span =>
    let testName := line.drop span.2
    -- the last 12 characters are `_unsat_test` and the newline
    let curTest := testName.rdrop 12
    some (data ++ [Function.update newTestData "job_name".toList curTest])
  | none =>
    if "BRUNCH_STAT".toList <+: line then
      let stat := pySplit line
      let statName := pyJoin stat.tail.dropLast
      if statName ∈ metrics.map Prod.fst then stat.getLast?.bind fun statNum => setLast data statName statNum
      else some data
    else some data

/-- `read_brunchstat_from_log`, with the table of metrics that it loads. -/
def readBrunchstatFromLog (metrics : List (PyStr × PyStr)) (log : PyStr) : Option (List TestData) :=
  readLoop '\n' (brunchstatLine metrics) [] (universalNewlines log)

/-- The dialect `excel` of `csv`. -/
def csvExcel : Csv.Dialect Char where
  sep := ','
  quote := '"'
  cr := '\r'
  lf := '\n'
  nodup := by decide

/-- `write_brunchstat_into_csv`: the text of the file, with the table of metrics that it loads. -/
def writeBrunchstatIntoCsv (metrics : List (PyStr × PyStr)) (data : List TestData) : PyStr :=
  csvExcel.write (metrics.map Prod.snd :: data.map fun jobData => metrics.map fun m => jobData m.1)

end VerifyFiredancer
