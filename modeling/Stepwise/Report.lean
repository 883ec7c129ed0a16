import Stepwise.Trace
/-!
The summary of a run: the size of its source, the time of each stage, and what was left behind. Times
are in seconds, and are shown in milliseconds with one decimal place.
-/

namespace Stepwise

structure Report where
  sourceBytes : Int := 0
  sourceLines : Int := 0
  parseTime : Num := .float (.zero false)
  executionTime : Num := .float (.zero false)
  totalTime : Num := .float (.zero false)
  steps : Int := 0
  tasksExecuted : Int := 0
  consoleMessages : Int := 0
  heapObjects : Int := 0
  closuresCaptured : Int := 0
  truncated : Bool := false
  failed : Bool := false

namespace Report

/-- The report on a trace. There is no clock, and every time is zero. -/
def ofTrace (source : Source) (t : Trace) : Report where
  sourceBytes := source.size
  sourceLines := source.lineCount
  steps := t.stats.steps
  tasksExecuted := t.stats.tasksExecuted
  consoleMessages := t.stats.consoleMessages
  heapObjects := t.stats.heapObjects
  closuresCaptured := t.stats.closuresCaptured
  truncated := t.stats.truncated
  failed := t.failed

/-- A line across the page with a title in it. -/
def heading (title : String) : Text := s!"═══ {title} ═══"

def milliseconds (seconds : Num) : Except Fault Text := do
  let time ← (← seconds.mul (.int 1000)).toDouble
  return (time.fixedText 1).padLeft 8 ++ Text.ofString "ms"

/-- A row of the table of stages. -/
def row (stage time output : Text) : Text :=
  Text.ofString "  " ++ stage.padRight 20 ++ Text.ofString " " ++ time.padLeft 10 ++
    Text.ofString "  " ++ output.padLeft 30

/-- The line between the rows of the table. -/
def rule : Text :=
  let dashes (n : Nat) : Text := List.replicate n (CodePoint.ofChar '─')
  row (dashes 20) (dashes 10) (dashes 30)

def counts (items : List (Int × String)) : Text :=
  Text.join ", " (items.map fun (n, what) =>
    Text.ofInt n ++ Text.ofString " " ++ Text.ofString what)

/-- What went wrong, if anything did. -/
def notes (r : Report) : List Text :=
  let truncation := if r.truncated then ["  Event loop truncated at its iteration ceiling"] else []
  let failure := if r.failed then ["  Run aborted with an error"] else []
  (truncation ++ failure).map Text.ofString

def toLines (r : Report) : Except Fault (List Text) := do
  let parsed ← milliseconds r.parseTime
  let executed ← milliseconds r.executionTime
  let total ← milliseconds r.totalTime
  let table : List Text :=
    [heading "Pipeline Statistics",
     Text.ofString "  Source: " ++ counts [(r.sourceLines, "lines"), (r.sourceBytes, "bytes")],
     "",
     row "Stage" "Time" "Output",
     rule,
     row "Parse" parsed "",
     row "Evaluate" executed (counts [(r.steps, "steps"), (r.tasksExecuted, "tasks")]),
     rule,
     Text.ofString "  " ++ Text.padRight 20 "Total" ++ Text.ofString " " ++ total,
     "",
     Text.ofString "  Final state: " ++ counts [(r.heapObjects, "heap objects"),
       (r.consoleMessages, "console messages"), (r.closuresCaptured, "closures")]]
  return table ++ r.notes

end Report

end Stepwise
