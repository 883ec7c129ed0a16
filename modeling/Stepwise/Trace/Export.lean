import Stepwise.Trace
import Stepwise.State.Export
/-!
Traces as JSON documents.
-/

namespace Stepwise

namespace Step

def toJson (s : Step) : Json :=
  .record [("step", .ofInt s.ordinal), ("line", .ofInt s.line), ("column", .ofInt s.column),
    ("description", .string s.description), ("snapshot", s.snapshot.toJson)]

end Step

namespace Stats

def toJson (s : Stats) : Json :=
  .record [("steps", .ofInt s.steps), ("tasks_executed", .ofInt s.tasksExecuted),
    ("console_messages", .ofInt s.consoleMessages), ("heap_objects", .ofInt s.heapObjects),
    ("promises", .ofInt s.promises), ("closures_captured", .ofInt s.closuresCaptured),
    ("truncated", .boolean s.truncated)]

end Stats

namespace Trace

/-- The error that ended a run, without its number and its time. -/
def errorJson : Option Message → Json
  | none => .null
  | some m => .record [("type", .ofString m.level.name), ("content", .values m.content)]

def toJson (t : Trace) : Json :=
  .record [("steps", .array (t.steps.map Step.toJson)), ("stats", t.stats.toJson),
    ("diagnostics", .array (t.diagnostics.map fun d => .string d.toText)),
    ("final_state", (t.finalState.map State.toJson).getD .null), ("error", errorJson t.error)]

end Trace

end Stepwise
