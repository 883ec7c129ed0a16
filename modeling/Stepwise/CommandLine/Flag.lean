import Stepwise.Number.Numeral
import Stepwise.Text.Quoted
/-!
The flags of the command line, and how single arguments are understood. A long flag may be
shortened as far as it stays unique; a short one may be joined to its value and to further short
ones.
-/

namespace Stepwise.CommandLine

inductive Flag where
  | help | exhibit | gallery | ceiling | step | json | verbose
  deriving DecidableEq, Repr

namespace Flag

def all : List Flag := [help, exhibit, gallery, ceiling, step, json, verbose]

def spellings : Flag → List String
  | help => ["-h", "--help"]
  | exhibit => ["--example", "-x"]
  | gallery => ["--list-examples"]
  | ceiling => ["--max-iterations", "-n"]
  | step => ["--step"]
  | json => ["--json"]
  | verbose => ["--verbose", "-v"]

/-- What the value of a flag is called; a flag without one is a switch. -/
def value? : Flag → Option String
  | exhibit => some "EXAMPLE"
  | ceiling => some "MAX_ITERATIONS"
  | step => some "STEP"
  | _ => none

def takesValue (f : Flag) : Bool := f.value?.isSome

def description : Flag → String
  | help => "show this help message and exit"
  | exhibit => "Trace a gallery example by id"
  | gallery => "List gallery examples and exit"
  | ceiling => "Event-loop iteration ceiling (default: 100)"
  | step => "Print the state at step N (1-based)"
  | json => "Print the full trace as JSON"
  | verbose => "Debug logging plus step-by-step pipeline output"

/-- All spellings with their flags. -/
def table : List (String × Flag) := all.flatMap fun f => f.spellings.map (·, f)

def ofSpelling? (s : String) : Option Flag := table.lookup s

/-- The name of a flag in messages. -/
def title (f : Flag) : String := "/".intercalate f.spellings

end Flag

/-- Why arguments are refused. -/
inductive UsageError where
  | ambiguous (argument : String) (candidates : List String)
  | missingValue (flag : Flag)
  | surplusValue (flag : Flag) (value : String)
  | malformedInteger (flag : Flag) (value : String)
  | unrecognized (arguments : List String)
  deriving DecidableEq, Repr

namespace UsageError

def ofFlag (flag : Flag) (message : Text) : Text :=
  Text.ofString s!"argument {flag.title}: " ++ message

def message : UsageError → Text
  | ambiguous argument candidates =>
    let candidates := ", ".intercalate candidates
    s!"ambiguous option: {argument} could match {candidates}"
  | missingValue flag => ofFlag flag "expected one argument"
  | surplusValue flag value =>
    ofFlag flag (Text.ofString "ignored explicit argument " ++ (Text.ofString value).quoted)
  | malformedInteger flag value =>
    ofFlag flag (Text.ofString "invalid int value: " ++ (Text.ofString value).quoted)
  | unrecognized arguments =>
    Text.ofString ("unrecognized arguments: " ++ " ".intercalate arguments)

end UsageError

/-- A value written in one argument with its flag: behind an equals sign, or joined to it. -/
structure Attached where
  isAssigned : Bool
  chars : List Char
  deriving DecidableEq, Repr

/-- An argument as it is understood. -/
inductive Argument where
  | plain (text : String)
  /-- what follows it is plain -/
  | separator
  | flag (flag : Flag) (isShort : Bool) (attached : Option Attached)
  | unknown (text : String)
  deriving DecidableEq, Repr

namespace Argument

/-- Whether a text is a negative number without exponent; it is plain. -/
def isNegativeNumber (cs : List Char) : Bool :=
  let cs := if cs.getLast? = some '\n' then cs.dropLast else cs
  let isDecimal (c : Char) : Bool := (Text.decimalDigit? (CodePoint.ofChar c)).isSome
  match cs with
  | '-' :: cs =>
    let fraction := cs.dropWhile isDecimal
    (!cs.isEmpty && fraction.isEmpty) ||
      match fraction with
      | '.' :: figures => !figures.isEmpty && figures.all isDecimal
      | _ => false
  | _ => false

/-- The text before the first equals sign, and the one behind it. -/
def split (cs : List Char) : List Char × Option (List Char) :=
  match cs.dropWhile (· ≠ '=') with
  | [] => (cs, none)
  | _ :: value => (cs.takeWhile (· ≠ '='), some value)

/-- The flags that a text with a leading dash can stand for, each with its full spelling. -/
def candidates (cs : List Char) : List (String × Argument) :=
  match cs with
  | '-' :: '-' :: _ =>
    let (name, value) := split cs
    let attached := value.map (⟨true, ·⟩ : List Char → Attached)
    (Flag.table.filter fun entry => name.isPrefixOf entry.1.toList).map fun entry =>
      (entry.1, flag entry.2 false attached)
  | '-' :: c :: tail =>
    let short := String.ofList ['-', c]
    (Flag.table.filter fun entry => entry.1 == short).map fun entry =>
      (entry.1, flag entry.2 true (some ⟨false, tail⟩))
  | _ => []

/-- A flag by its full spelling, alone or with a value behind an equals sign. -/
def spelledOut? (cs : List Char) : Option Argument :=
  let isShort : Bool := cs[1]? ≠ some '-'
  match Flag.ofSpelling? (String.ofList cs), split cs with
  | some f, _ => some (flag f isShort none)
  | none, (name, some value) =>
    (Flag.ofSpelling? (String.ofList name)).map (flag · isShort (some ⟨true, value⟩))
  | none, _ => none

/-- Understands an argument that no separator precedes. -/
def ofString (s : String) : Except UsageError Argument :=
  let cs := s.toList
  if s = "--" then .ok separator
  else if cs.head? ≠ some '-' || cs = ['-'] then .ok (plain s)
  else match spelledOut? cs with
    | some a => .ok a
    | none =>
      match candidates cs with
      | [candidate] => .ok candidate.2
      | [] => .ok (if isNegativeNumber cs || cs.contains ' ' then plain s else unknown s)
      | several => .error (.ambiguous s (several.map (·.1)))

/-- Understands all arguments; behind a separator all are plain. -/
def ofStrings : List String → Except UsageError (List Argument)
  | [] => .ok []
  | s :: rest => do
    match ← ofString s with
    | separator => return separator :: rest.map plain
    | a => return a :: (← ofStrings rest)

end Argument

end Stepwise.CommandLine
