import Stepwise.CommandLine
/-!
The program: arguments and files in, lines and a status out.
-/

open Stepwise

/-- The text as a string; a lone surrogate has no place in one, and is shown as a replacement. -/
def Stepwise.Text.shown (t : Text) : String :=
  .ofList (t.map fun p => p.toChar?.getD '\ufffd')

def main (args : List String) : IO UInt32 := do
  match ← CommandLine.respond (fun path => IO.FS.readFile path) args with
  | none =>
    IO.eprintln "the program nests too deep"
    return 3
  | some outcome =>
    IO.print (CommandLine.Outcome.printed outcome.output).shown
    IO.eprint (CommandLine.Outcome.printed outcome.errors).shown
    return outcome.status.toUInt32
