import Stepwise.Grammar
import Stepwise.Program.Reading
import Stepwise.Run.Evaluator
/-!
Runs of whole programs: the top level first, then the event loop. A fault ends a run and becomes
the last message on its console.
-/

namespace Stepwise

namespace Evaluator

variable (self : Evaluator)

/-- The top level of a program; a return there ends it. -/
def topLevel (program : Program) : Eval Unit := do
  let _ ← Eval.catchReturn do
    Eval.hoist self.names program.hoisted
    self.stmts program.statements
    return .undefined

def job (line : Int) : Job → Eval Unit
  | .call f arguments => do
    let _ ← self.call f arguments line ""
  | .fetched address url => Engine.completeFetch address url
  | .react reaction value =>
    Activity.runReaction (fun f arguments => self.call f arguments 0 "") reaction value

/-- Carries out a task, as a step of its own. -/
def task (settings : Settings) (t : Task) : Eval Unit := do
  Eval.record t.line 0
    (Text.ofString s!"Executing {t.kind.name} task: " ++ t.description)
  self.job t.line t.job
  Eval.prune settings

/-- The top level and everything that it defers. -/
def program (settings : Settings) (p : Program) : Eval Unit := do
  self.topLevel p
  let _ ← Activity.drain settings.ceiling (self.task settings)
  Eval.prune settings

end Evaluator

namespace Machine

/-- The machine that a run starts on: the global scope is open, and nothing has happened. -/
def initial : Machine Journal :=
  match Engine.ensureGlobal {} with
  | .ok _ state | .error _ state => { state, journal := {} }

end Machine

namespace Trace

def ofMachine (m : Machine Journal) (error : Option Message) : Trace where
  steps := m.journal.steps
  stats := .ofRun m.journal.steps m.state
  diagnostics := m.journal.diagnostics
  error := error
  finalState := some m.state

/-- Says a fault on the console, and nothing more happens. -/
def ofFault (m : Machine Journal) (fault : Fault) : Trace :=
  match Engine.say .error [.string fault.report] m.state with
  | .ok message state => ofMachine { m with state } (some message)
  | .error _ state => ofMachine { m with state } none

/-- A depth that no program of reasonable size reaches. -/
def ampleDepth : Nat := 1000000000000000000

/-- The trace of a program, if its evaluation keeps to a depth. -/
def ofProgram? (settings : Settings) (depth : Nat) (p : Program) : Option Trace :=
  match (Evaluator.ofDepth settings depth).program settings p .initial with
  | .ok _ m | .error (.returned _) m => some (ofMachine m none)
  | .error (.fault fault) m => some (ofFault m fault)
  | .error .exhausted _ => none

/-- The trace of a tree. -/
def ofTree? (settings : Settings) (depth : Nat) (source : Source) (root : Node) : Option Trace :=
  ofProgram? settings depth (.ofTree source root)

/-- The trace of a source that does not parse: nothing but the error. -/
def ofSyntaxFault (fault : SyntaxFault) : Trace where
  error := some ⟨1, .error, [.string fault.message]⟩

/-- The trace of a tree, or of the error in it. -/
def ofCheckedTree? (settings : Settings) (depth : Nat) (source : Source) (root : Node) :
    Option Trace :=
  match root.check source with
  | .ok root => ofTree? settings depth source root
  | .error fault => some (ofSyntaxFault fault)

/-- The trace of a text that no tree belongs to. -/
def unparsed : Trace where
  error := some ⟨1, .error, [.string (Text.ofString "SyntaxError")]⟩

/-- The trace of a source text. -/
def ofSource? (settings : Settings) (source : Source) : Option Trace :=
  match source.parse? with
  | some root => ofTree? settings ampleDepth source root
  | none => some unparsed

end Trace

end Stepwise
