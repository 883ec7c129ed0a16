import Stepwise.CommandLine.Flag
/-!
The texts that explain the command line.
-/

namespace Stepwise.CommandLine

namespace Help

def usage : List String :=
  ["usage: jstrace [-h] [--example EXAMPLE] [--list-examples]",
   "               [--max-iterations MAX_ITERATIONS] [--step STEP] [--json]",
   "               [--verbose]",
   "               [file]"]

/-- An entry: its description starts in a column of its own, on a further line where the left side
is too long. -/
def entry (left description : String) : List String :=
  let blanks (n : Nat) : String := String.ofList (List.replicate n ' ')
  if left.length ≤ 20 then ["  " ++ left ++ blanks (22 - left.length) ++ description]
  else ["  " ++ left, blanks 24 ++ description]

/-- The spellings of a flag, each with the name of its value. -/
def invocation (f : Flag) : String :=
  let value := match f.value? with
    | some v => " " ++ v
    | none => ""
  ", ".intercalate (f.spellings.map (· ++ value))

def lines : List String :=
  usage ++ ["", "Step-by-step tracer for a JavaScript subset", "", "positional arguments:"] ++
    entry "file" "JavaScript source file to trace" ++ ["", "options:"] ++
    Flag.all.flatMap fun f => entry (invocation f) f.description

end Help

end Stepwise.CommandLine
