import Stepwise.CommandLine.Help
import Stepwise.CommandLine.Options
import Stepwise.Gallery
import Stepwise.Report
import Stepwise.Run
import Stepwise.Trace.Export
/-!
The command line: from the arguments to what is printed and the status. Reading a file is left to
the caller.
-/

namespace Stepwise.CommandLine

/-- What a command prints, and the status that it ends with. -/
structure Outcome where
  status : Nat
  output : List Text := []
  errors : List Text := []

namespace Outcome

/-- The printed lines as one text; each ends in a line break. -/
def printed (lines : List Text) : Text := lines.flatMap (· ++ Text.ofString "\n")

end Outcome

namespace Refusal

def outcome : Refusal → Outcome
  | help => { status := 0, output := Help.lines.map Text.ofString }
  | error cause =>
    { status := 2
      errors := Help.usage.map Text.ofString ++ [Text.ofString "jstrace: error: " ++ cause.message] }

end Refusal

/-- The text of a file with every kind of line end as one line break. -/
def unifyLineEnds : List Char → List Char
  | [] => []
  | '\r' :: '\n' :: cs => '\n' :: unifyLineEnds cs
  | c :: cs => (if c = '\r' then '\n' else c) :: unifyLineEnds cs

def galleryLines : List Text :=
  Gallery.exhibits.map fun e =>
    (Text.ofString e.id).padRight 14 ++ Text.ofString s!" {e.title} — {e.description}"

def indent (lines : List Text) : List Text := lines.map (Text.ofString "  " ++ ·)

/-- The steps and the console of a trace. -/
def summary (t : Trace) : List Text :=
  Report.heading "Steps" :: indent t.describe ++ [] :: Report.heading "Console" ::
    indent t.consoleLines

/-- The steps, the console and the diagnostics of a trace, and the report on it. A source that does
not parse has its error only. -/
def narration (source : Source) (t : Trace) : List Text :=
  if t.finalState.isNone then t.consoleLines
  else
    let step (s : Step) : Text :=
      Text.ofString "  [" ++ (Text.ofNat s.ordinal).padLeft 3 ++ Text.ofString "] line " ++
        (Text.ofInt s.line).padLeft 3 ++ Text.ofString "  " ++ s.description
    let report := match (Report.ofTrace source t).toLines with
      | .ok lines => lines
      | .error _ => []
    Report.heading "Steps" :: t.steps.map step ++ [] :: Report.heading "Console" ::
      indent t.consoleLines ++ t.diagnostics.map (Text.ofString "  ! " ++ ·.toText) ++
      [] :: report

/-- One step in full; there may be no such step. -/
def stepOutcome (t : Trace) (n : Int) : Except Text (List Text) :=
  match if n < 1 then none else t.steps[(n - 1).toNat]? with
  | some s =>
    .ok [s!"Step {s.ordinal} (line {s.line}): " ++ s.description, s.snapshot.toJson.indented 0]
  | none => .error s!"Step {n} out of range (1-{t.steps.length})"

/-- Traces a source behind some lines that are printed first. -/
def traceOutcome? (o : Options) (front : List Text) (source : Source) : Option Outcome := do
  let t ← Trace.ofSource? { ceiling := o.ceiling } source
  let front := front ++ if o.verbose then narration source t else []
  let status := if t.failed then 1 else 0
  if o.json then return { status, output := front ++ [t.toJson.indented 0] }
  match o.step with
  | none => return { status, output := front ++ if o.verbose then [] else summary t }
  | some n =>
    match stepOutcome t n with
    | .ok lines => return { status, output := front ++ lines }
    | .error message => return { status := 2, output := front, errors := [message] }

/-- What is printed before the program that is traced where none is named. -/
def demoFront (e : Exhibit) : List Text :=
  ["No file provided. Using built-in demo:", "", e.code, ""].map Text.ofString

/-- An option that is given and not empty. -/
def present (s : Option String) : Option String := s.filter (· ≠ "")

/-- Carries out a command line, with a way to read files. The outcome is none only where a program
nests deeper than any evaluation goes. -/
def respond {m : Type → Type} [Monad m] (readText : String → m String) (arguments : List String) :
    m (Option Outcome) := do
  match Options.ofArguments arguments with
  | .error refusal => return some refusal.outcome
  | .ok o =>
    if o.listsGallery then return some { status := 0, output := galleryLines }
    match present o.exhibit, present o.file with
    | some id, _ =>
      match Gallery.find? id with
      | some e => return traceOutcome? o [] (.ofString e.code)
      | none => return some { status := 2, errors := [Gallery.unknownText id] }
    | none, some path =>
      let text ← readText path
      return traceOutcome? o [] ⟨unifyLineEnds text.toList⟩
    | none, none => return traceOutcome? o (demoFront .closure) (.ofString Exhibit.closure.code)

end Stepwise.CommandLine
