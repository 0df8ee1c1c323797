import Mathlib.Algebra.Field.Rat
import FlowClassifier.Framework.Grep
import FlowClassifier.Framework.Loop
import FlowClassifier.Framework.Text

/-!
# Reading the features back from the log

The scripts of `Utils/Visualize`: `FtsFromLog.sh` cuts the values of the debug writes out of the
switch's log, prints them fourteen to a line into `out.csv` and keeps the lines of one identifier;
`Percent.awk` counts the kept lines and those labelled cloud gaming; `GetGraphs.py` reads the twelve
feature columns.  Files are texts.  The second `grep` searches for what the user typed, whatever it
is, so the program `grep` is a parameter; so is what the `awk` at hand does with a division by zero.
-/

namespace FlowClassifier

open Text

variable (grep : List Char → List Char → Bool)

/-! ## `FtsFromLog.sh` -/

/-- The elements of `VLS`: field 17 of each line found by `grep "ingress.Write"`. A word with a
pattern character would be expanded to file names; a numeral is not. -/
def vls (log : List Char) : List (List Char) :=
  words (terminated '\n' (((fileLines log).filter (grep "ingress.Write".toList)).map
    (cutField ' ' 17)))

/-- `VLS[$(($i+k))]`: an element the array does not have is empty. -/
def vlsAt (vls : List (List Char)) (k : ℕ) : List Char := (vls[k]?).getD []

/-- The line the loop prints at `i`: the last two values change places. -/
def vlsLine (vls : List (List Char)) (i : ℕ) : List Char :=
  [','].intercalate ([0, 1, 2, 3, 4, 5, 6, 7, 8, 9, 10, 11, 13, 12].map fun k => vlsAt vls (i + k))

/-- `out.csv` after the loop. -/
def filOut (log : List Char) : List Char :=
  terminated '\n' ((Loop.strides 14 (vls grep log).length).map (vlsLine (vls grep log)))

/-- `out.csv` after the filter `grep ",$IDF$"`. -/
def filOutTemp (idf filout : List Char) : List Char :=
  terminated '\n' ((fileLines filout).filter (grep ((',' :: idf) ++ ['$'])))

/-! ## `Percent.awk` -/

/-- A division by zero ends some implementations of `awk` with an error; others print that the
quotient is no number, and go on. -/
inductive ZeroDivision where
  | ends
  | notNumber

/-- What `Percent.awk` prints: the quotient, which it writes with six significant digits if it is a
number, and the two counts. -/
structure Percentage where
  percentage : Option ℚ
  lines : ℕ
  nbCG : ℕ
  deriving DecidableEq

/-- The action run on every line. -/
def percentLine (st : ℕ × ℕ) (line : List Char) : ℕ × ℕ :=
  let (lines, nbCG) := st
  (lines + 1, if ((csvRow ',' line)[12]?).getD [] = ['1'] then nbCG + 1 else nbCG)

/-- The action at the end: two lines are printed, unless the program ends before them. -/
def percentEnd (awk : ZeroDivision) (lines nbCG : ℕ) : Option Percentage :=
  if lines = 0 then
    match awk with
    | .ends => none
    | .notNumber => some ⟨none, lines, nbCG⟩
  else some ⟨some (nbCG / lines), lines, nbCG⟩

/-- `awk -F, -f Percent.awk $FILOUT`. -/
def percentAwk (awk : ZeroDivision) (filout : List Char) : Option Percentage :=
  let (lines, nbCG) := (fileLines filout).foldl percentLine (0, 0)
  percentEnd awk lines nbCG

/-! ## `GetGraphs.py` -/

/-- The six lists of one direction. -/
structure Columns where
  meanSZ : List ℕ
  stdSZ : List ℕ
  meanIAT : List ℕ
  stdIAT : List ℕ
  sumSze : List ℕ
  nbPaks : List ℕ
  deriving DecidableEq

/-- `int(lines[k])`. -/
def intAt (lines : List (List Char)) (k : ℕ) : Option ℕ := lines[k]? >>= readNat

/-- Six fields from `k` on are appended to the lists of one direction. -/
def Columns.append (vals : Columns) (lines : List (List Char)) (k : ℕ) : Option Columns := do
  let meanSZ ← intAt lines k
  let stdSZ ← intAt lines (k + 1)
  let meanIAT ← intAt lines (k + 2)
  let stdIAT ← intAt lines (k + 3)
  let sumSze ← intAt lines (k + 4)
  let nbPaks ← intAt lines (k + 5)
  some
    { meanSZ := vals.meanSZ ++ [meanSZ]
      stdSZ := vals.stdSZ ++ [stdSZ]
      meanIAT := vals.meanIAT ++ [meanIAT]
      stdIAT := vals.stdIAT ++ [stdIAT]
      sumSze := vals.sumSze ++ [sumSze]
      nbPaks := vals.nbPaks ++ [nbPaks] }

/-- The body of the loop that reads the values. -/
def graphsStep (vals : Columns × Columns) (lines : List (List Char)) :
    Option (Columns × Columns) := do
  let vals1 ← vals.1.append lines 0
  let vals2 ← vals.2.append lines 6
  some (vals1, vals2)

/-- The columns `GetGraphs.py` plots, down and up. -/
def getGraphs (filout : List Char) : Option (Columns × Columns) :=
  ((fileLines filout).map (csvRow ',')).foldlM graphsStep
    (⟨[], [], [], [], [], []⟩, ⟨[], [], [], [], [], []⟩)

end FlowClassifier
