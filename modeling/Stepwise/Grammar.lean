import Stepwise.Grammar.Statement
/-!
The grammar as a whole: a source text parses to the syntax tree of a program, or it does not parse.
-/

namespace Stepwise

open Parse

namespace Grammar

/-- The productions, nested to a depth; nothing parses beyond it. -/
def ofDepth : Nat → Grammar
  | 0 =>
    { binary := fun _ _ => none, unary := fun _ => none, primary := fun _ => none
      statement := fun _ => none }
  | n + 1 =>
    { binary := fun least c => (ofDepth n).readBinary least c
      unary := fun c => (ofDepth n).readUnary c
      primary := fun c => (ofDepth n).readPrimary c
      statement := fun c => (ofDepth n).readStatement c }

/-- The line at the start of a program that names its interpreter. -/
def interpreterLine (cs : List Char) : Nat :=
  if "#!".toList.isPrefixOf cs then (cs.takeWhile (· ≠ '\n')).length else 0

/-- A program spans its first to its last token, and the blanks behind it. -/
def program (self : Grammar) : Parse Node := do
  let n := interpreterLine (← get).rest
  let front ← if n = 0 then pure [] else here (leaf (.other "hash_bang_line") true n)
  let children := front ++ (← self.statementsUntil [])
  guard (← isEnd)
  let c ← get
  let stop := c.offset + Source.size ⟨c.rest⟩
  let start := (children.head?.map (·.label.start)).getD stop
  return .mk ⟨.other "program", start, stop, none, true, false, false⟩ children

end Grammar

namespace Source

/-- A depth that the nesting of a text does not reach: each character opens four productions at
most. -/
def parsingDepth (s : Source) : Nat := 4 * (s.chars.length + 1)

/-- The syntax tree of a source text, if it parses. -/
def parse? (s : Source) : Option Node := do
  let (root, _) ← (Grammar.ofDepth s.parsingDepth).program ⟨s.chars, 0⟩
  guard !root.hasStrayDefault
  return root

end Source

end Stepwise
