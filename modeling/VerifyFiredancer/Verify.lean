import VerifyFiredancer.Lib.Regex
import Mathlib.Data.Finset.SDiff

/-!
# Verify: the verdict of the verification driver

`verify.py.in` runs the backend on a job, reads what it prints line by line and turns that, with the exit code of the backend,
into the exit code of the driver, "0 - all ok, 1 - expected string not found in stderr/stdout, 2 - error reported to stderr".
The definitions of this file are `check_vacuity` and `VerifyCmd.run` from the start of the backend on: what it printed and its
exit code are the inputs. The patterns are those of the source. `re.match` matches from the start of a line, where `^` holds, so
`^` is left out of them.
-/

namespace VerifyFiredancer

open Regex

/-! ## Texts -/

/-- A `str`. -/
abbrev PyStr : Type := List Char

/-- `str.isspace` of a character, which is the class `\s` too. -/
def pyIsSpace (c : Char) : Bool :=
  let n := c.toNat
  (0x9 ≤ n && n ≤ 0xd) || (0x1c ≤ n && n ≤ 0x20) || (0x2000 ≤ n && n ≤ 0x200a) ||
    [0x85, 0xa0, 0x1680, 0x2028, 0x2029, 0x202f, 0x205f, 0x3000].contains n

/-- The zeros of the runs of ten decimal digits of Unicode 14. -/
def pyDecimalZeros : List Nat :=
  [0x30, 0x660, 0x6f0, 0x7c0, 0x966, 0x9e6, 0xa66, 0xae6, 0xb66, 0xbe6, 0xc66, 0xce6, 0xd66, 0xde6, 0xe50, 0xed0, 0xf20,
    0x1040, 0x1090, 0x17e0, 0x1810, 0x1946, 0x19d0, 0x1a80, 0x1a90, 0x1b50, 0x1bb0, 0x1c40, 0x1c50, 0xa620, 0xa8d0, 0xa900,
    0xa9d0, 0xa9f0, 0xaa50, 0xabf0, 0xff10, 0x104a0, 0x10d30, 0x11066, 0x110f0, 0x11136, 0x111d0, 0x112f0, 0x11450, 0x114d0,
    0x11650, 0x116c0, 0x11730, 0x118e0, 0x11950, 0x11c50, 0x11d50, 0x11da0, 0x16a60, 0x16ac0, 0x16b50, 0x1d7ce, 0x1d7d8,
    0x1d7e2, 0x1d7ec, 0x1d7f6, 0x1e140, 0x1e2f0, 0x1e950, 0x1fbf0]

/-- `str.isdecimal` of a character, which is the class `\d` too. -/
def pyIsDecimal (c : Char) : Bool := pyDecimalZeros.any fun z => z ≤ c.toNat && c.toNat < z + 10

/-- `str.strip`. -/
def pyStrip (s : PyStr) : PyStr := ((s.dropWhile pyIsSpace).reverse.dropWhile pyIsSpace).reverse

/-- A line as `readline` gives it: not empty, and with a newline at its end only. -/
structure OutputLine where
  text : PyStr
  ne_nil : text ≠ []
  newline : '\n' ∉ text.dropLast

/-! ## Patterns -/

section Pattern

variable {ι : Type}

/-- A word, `p+`, `.*` and `$`. -/
def reWord (w : String) : Pattern Char ι := .lit w.toList
def rePlus (p : Char → Bool) : Pattern Char ι := .seq (.one p) (.many p)
def reDots : Pattern Char ι := .many (· != '\n')
def reEnd : Pattern Char ι := .look fun s => s == [] || s == ['\n']

end Pattern

/-- `re.match`, as a test. -/
def reMatch {ι : Type} [DecidableEq ι] (r : Pattern Char ι) (line : PyStr) : Bool := (r.first line).isSome

/-- `ASSERT_ERROR_PREFIX`. -/
def assertErrorPrefix : Pattern Char Unit := reWord "Error: assertion failed"

/-- `NO_TASK_PREFIX`. -/
def noTaskPrefix : Pattern Char Unit :=
  .seq (reWord "WARNING: ") (.group () (.alt (reWord "no assertion was found") (reWord "The program has no main")))

/-- `SEAHORN_PASS_PREFIX`. -/
def seahornPassPrefix : Pattern Char Unit :=
  .seq (reWord "BRUNCH_STAT") <| .seq (rePlus pyIsSpace) <| .seq (reWord "seahorn_total") <| .seq (rePlus pyIsSpace) <|
    .seq (.group () (.seq (rePlus pyIsDecimal) (.seq (reWord ".") (.seq (.one pyIsDecimal) (.one pyIsDecimal))))) reEnd

/-- The named groups of `VACUITY_CHECK_RE`. -/
inductive VacuityGroup where
  | stream
  | what
  | result
  | debuginfo
  deriving DecidableEq, Repr

/-- `VACUITY_CHECK_RE`. -/
def vacuityCheckRe : Pattern Char VacuityGroup :=
  .seq (.group .stream (.alt (reWord "Info") (reWord "Error"))) <| .seq reDots <| .seq (.group .what (reWord "vacuity")) <|
    .seq reDots <| .seq (.group .result (.alt (reWord "passed") (reWord "failed"))) <| .seq reDots <| .seq (reWord "sat) ") <|
    .seq (.group .debuginfo reDots) reEnd

/-! ## The verdict -/

/-- `check_vacuity`: the sets of locations after a line. -/
def checkVacuity (line : PyStr) (passedSet failedSet : Finset PyStr) : Finset PyStr × Finset PyStr :=
  match vacuityCheckRe.first line with
  | none => (passedSet, failedSet)
  | some m =>
    let debugInfo := (m .debuginfo).getD []
    if m .stream = some "Info".toList ∧ m .what = some "vacuity".toList ∧ m .result = some "passed".toList then
      (insert (pyStrip debugInfo) passedSet, failedSet)
    else if m .stream = some "Error".toList ∧ m .what = some "vacuity".toList ∧ m .result = some "failed".toList then
      (passedSet, insert (pyStrip debugInfo) failedSet)
    else (passedSet, failedSet)

/-- The arguments of the driver that the verdict depends on, `--expect` and `--vac`. -/
structure VerifyArgs where
  expect : Option PyStr
  vac : Bool

/-- The flags and sets that the loop over the output fills. -/
structure VerifyState where
  foundExpected : Bool
  foundError : Bool
  vacuityPassed : Finset PyStr
  vacuityFailed : Finset PyStr

/-- The loop body of `VerifyCmd.run` for one line. -/
def verifyLine (expect : Option PyStr) (s : VerifyState) (line : PyStr) : VerifyState :=
  if !s.foundExpected ∧ expect ≠ none ∧ some (pyStrip line) = expect then { s with foundExpected := true }
  else if reMatch noTaskPrefix line then { s with foundExpected := true }
  else if reMatch assertErrorPrefix line then { s with foundError := true }
  else if reMatch seahornPassPrefix line then { s with foundExpected := true }
  else
    let sets := checkVacuity line s.vacuityPassed s.vacuityFailed
    { s with
      vacuityPassed := sets.1
      vacuityFailed := sets.2 }

/-- The loop of `VerifyCmd.run`. -/
def verifyLoop (expect : Option PyStr) (out : List OutputLine) : VerifyState :=
  out.foldl (fun s line => verifyLine expect s line.text) ⟨false, false, ∅, ∅⟩

/-- `VerifyCmd.run`: the exit code of the driver. Without `--expect` it leaves with `exit(0)`. -/
def verifyRun (args : VerifyArgs) (out : List OutputLine) (rcode : Int) : Int :=
  if args.expect = none then 0
  else
    let s := verifyLoop args.expect out
    if args.vac ∧ s.foundError then 2
    else if args.vac ∧ (s.vacuityFailed \ s.vacuityPassed).Nonempty then 2
    else if rcode = 0 ∧ args.expect ≠ none then if s.foundExpected then 0 else 1
    else rcode

end VerifyFiredancer
