import Stepwise.Run.Machine
/-!
What a run leaves behind: its steps with a snapshot of the state at each, the diagnostics, the
error that ended it, and the final state.
-/

namespace Stepwise

structure Step where
  ordinal : Nat
  line : Int
  column : Int
  description : Text
  snapshot : State

/-- A problem that does not end a run. -/
structure Diagnostic where
  message : Text
  location : Location := .unknown
  deriving DecidableEq, Repr

namespace Diagnostic

def unsupported (kind : String) (location : Location) : Diagnostic :=
  ⟨Text.ofString "unsupported:" ++ Text.ofString kind, location⟩

def toText (d : Diagnostic) : Text := d.message ++ Text.ofString " at " ++ d.location.toText

end Diagnostic

namespace Step

/-- The next step behind others, with the state as it is now. -/
def behind (steps : List Step) (line column : Int) (description : Text) (state : State) : Step :=
  let ordinal := steps.length + 1
  ⟨ordinal, line, column, description, { state with step := ordinal }⟩

end Step

/-- What an evaluation notes down. -/
structure Journal where
  steps : List Step := []
  diagnostics : List Diagnostic := []

/-- The counts that sum up a run. -/
structure Stats where
  steps : Nat := 0
  tasksExecuted : Nat := 0
  consoleMessages : Nat := 0
  heapObjects : Nat := 0
  promises : Nat := 0
  closuresCaptured : Nat := 0
  truncated : Bool := false
  deriving DecidableEq, Repr

def Stats.ofRun (steps : List Step) (state : State) : Stats where
  steps := steps.length
  tasksExecuted := state.loop.executed
  consoleMessages := state.console.length
  heapObjects := state.heap.size
  promises := state.promises.size
  closuresCaptured := state.captured.length
  truncated := state.loop.truncated

structure Trace where
  steps : List Step := []
  stats : Stats := {}
  diagnostics : List Diagnostic := []
  /-- the console entry of the fault that ended the run -/
  error : Option Message := none
  /-- the state at the end; a source that does not parse has none -/
  finalState : Option State := none

namespace Trace

def failed (t : Trace) : Bool := t.error.isSome

def console (t : Trace) : List Message :=
  match t.finalState with
  | some state => state.console
  | none => t.error.toList

/-- The console as it is printed. -/
def consoleLines (t : Trace) : List Text :=
  let heap : Heap := (t.finalState.map State.heap).getD Dict.empty
  t.console.map (·.toText heap)

/-- One line per step. -/
def describe (t : Trace) : List Text :=
  t.steps.map fun step =>
    Text.ofString "[" ++ Text.ofNat step.ordinal ++ Text.ofString "] line " ++
      Text.ofInt step.line ++ Text.ofString ": " ++ step.description

end Trace

end Stepwise
