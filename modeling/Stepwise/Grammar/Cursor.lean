import Stepwise.Tree
import Stepwise.Grammar.Trivia
/-!
Reading a source text from front to back, and building nodes from what is read. A production starts
at its first token. Comments belong to the node that holds the tokens on both sides of them: the
node that is being read collects them before each of its parts, and leaves those behind its last
part alone.
-/

namespace Stepwise

/-- The text that is still to be read, and the number of bytes before it. -/
structure Cursor where
  rest : List Char
  offset : Nat
  deriving DecidableEq, Repr

/-- A production: it reads from the front of the text, or the text does not parse. -/
abbrev Parse := StateT Cursor Option

namespace Cursor

/-- Moves behind a number of characters. -/
def advance (c : Cursor) (n : Nat) : Cursor :=
  ⟨c.rest.drop n, c.offset + Source.size ⟨c.rest.take n⟩⟩

/-- The text from the next token on. -/
def ahead (c : Cursor) : List Char := Trivium.behind false c.rest

end Cursor

namespace Parse

/-! ### Looking ahead -/

/-- The next symbol, if one is next. -/
def symbol? : Parse (Option String) := do return Lexeme.symbol? (← get).ahead

/-- The next word; empty if none is next. -/
def word : Parse String := do
  let ahead := (← get).ahead
  return .ofList (ahead.take (Lexeme.word ahead))

/-- Whether the text is over. -/
def isEnd : Parse Bool := do return (← get).ahead.isEmpty

/-- Whether the next token is on the same line. -/
def isSameLine : Parse Bool := do
  return !Trivium.hasLineEnd (Trivium.before false (← get).rest)

/-- What a production would read here, without moving. -/
def lookahead {α : Type} (p : Parse α) : Parse (Option α) := fun c => some ((p c).map (·.1), c)

/-- Whether a production would succeed here. -/
def wouldRead {α : Type} (p : Parse α) : Parse Bool := do return (← lookahead p).isSome

/-! ### Tokens -/

/-- Reads a number of characters as a node of its own; at least one. -/
def leaf (kind : Kind) (named : Bool) (n : Nat) : Parse Node := fun c =>
  if n = 0 then none
  else
    let next := c.advance n
    some (.leaf kind named c.offset next.offset, next)

/-- The lexeme of a class that stands here. -/
def lexeme (kind : Kind) (length : List Char → Nat) : Parse Node := do
  leaf kind true (length (← get).rest)

/-- The comments up to the next token. -/
def comments (markup : Bool) : Parse (List Node) := fun c =>
  let (nodes, c) := (Trivium.before markup c.rest).foldl
    (fun (nodes, c) t =>
      let next := c.advance t.chars.length
      let node (kind : Kind) := Node.leaf kind true c.offset next.offset
      match t with
      | .blank _ => (nodes, next)
      | .lineComment _ | .blockComment _ => (node .comment :: nodes, next)
      | .markupComment _ => (node .htmlComment :: nodes, next))
    ([], c)
  some (nodes.reverse, c)

/-- The symbol or word that must stand here. -/
def tokenHere (s : String) : Parse Node := do
  let rest := (← get).rest
  let n := Lexeme.word rest
  guard (if n = 0 then Lexeme.symbol? rest == some s else String.ofList (rest.take n) == s)
  leaf (.ofName s) false s.length

/-! ### Parts of a node -/

/-- A production that stands right here. -/
def here (p : Parse Node) : Parse (List Node) := do return [← p]

/-- A production behind the comments before it. -/
def part (p : Parse Node) : Parse (List Node) := do
  let before ← comments true
  return before ++ [← p]

/-- A production in a role. -/
def role (field : String) (p : Parse Node) : Parse (List Node) :=
  part (do return (← p).inRole field)

/-- The symbol or word that must be next. -/
def token (s : String) : Parse (List Node) := do
  let before ← comments false
  return before ++ [← tokenHere s]

/-- The symbol or word that must be next, in a role. -/
def tokenAs (field s : String) : Parse (List Node) := do
  let before ← comments false
  return before ++ [(← tokenHere s).inRole field]

/-- Whether a symbol or word is next. -/
def isNext (s : String) : Parse Bool := wouldRead (token s)

/-- The symbol or word if it is next. -/
def tokenIf (s : String) : Parse (List Node) := do
  if ← isNext s then token s else return []

/-- A name, as a node of a kind. -/
def name (kind : Kind) : Parse Node := lexeme kind Lexeme.name

/-- Any word, as a node of a kind. -/
def anyWord (kind : Kind) : Parse Node := lexeme kind Lexeme.word

/-- All parts of a node, in order. -/
def node (kind : Kind) (parts : List (Parse (List Node))) : Parse Node := do
  return .branch kind (← parts.mapM id).flatten

/-! ### Repetition -/

/-- Repeats a step while it yields something. Each step reads a character at least, so the text is
budget enough for itself. -/
def repeatWithin {α : Type} (step : α → Parse (Option α)) : (budget : List Char) → α → Parse α
  | [], a => pure a
  | _ :: budget, a => do
    match ← step a with
    | some a => repeatWithin step budget a
    | none => return a

def repeatFrom {α : Type} (step : α → Parse (Option α)) (a : α) : Parse α := do
  repeatWithin step (← get).rest a

/-- The parts of all rounds, as long as there is another one. -/
def many (another : Parse Bool) (round : Parse (List Node)) : Parse (List Node) :=
  repeatFrom (fun nodes => do
    if ← another then return some (nodes ++ (← round)) else return none) []

/-- Parts separated by commas, places between commas being left out at will, up to a symbol that
closes them. -/
def commaSeparated (close : String) (item : Parse Node) : Parse (List Node) :=
  repeatFrom (fun nodes => do
    if ← isNext close then return none
    else if ← isNext "," then return some (nodes ++ (← token ","))
    else
      let nodes := nodes ++ (← part item)
      guard ((← isNext close) || (← isNext ","))
      return some nodes) []

/-! ### Ends of statements -/

/-- The semicolon of a statement; what follows or a line end may stand for it. -/
def semicolonWhere (isImplied : List Char → Bool) : Parse (List Node) := do
  if isImplied (← get).rest then return [] else token ";"

/-- The end of a statement behind a complete operand. -/
def semicolon : Parse (List Node) := semicolonWhere Semicolon.isImplied

/-- The end of a statement that could go on with an operand. -/
def semicolonOrOperand : Parse (List Node) := semicolonWhere Semicolon.isImpliedBeforeOperand

end Parse

end Stepwise
