import Stepwise.Grammar.Lexeme
/-!
What stands between two tokens: blanks and comments. A line end among them can end a statement
that lacks its semicolon.
-/

namespace Stepwise

inductive Trivium where
  | blank (c : Char)
  | lineComment (text : List Char)
  | blockComment (text : List Char)
  /-- from a comment mark of markup to the end of the line -/
  | markupComment (text : List Char)
  deriving DecidableEq, Repr

namespace Trivium

/-- The characters that it covers. -/
def chars : Trivium → List Char
  | blank c => [c]
  | lineComment text | blockComment text | markupComment text => text

def isLineEnd : Trivium → Bool
  | blank c => Lexeme.endsLine c
  | _ => false

def isBlank : Trivium → Bool
  | blank _ => true
  | _ => false

/-- A comment to its closing mark; without one there is no comment. -/
def blockBody : List Char → Option (List Char)
  | '*' :: '/' :: _ => some ['*', '/']
  | [] => none
  | c :: cs => (blockBody cs).map (c :: ·)

def toLineEnd (cs : List Char) : List Char := cs.takeWhile fun c => !Lexeme.endsComment c

/-- What stands in front of a text and is no token. Comments of markup count only where an operand
is expected. -/
def front? (markup : Bool) : List Char → Option Trivium
  | '/' :: '/' :: cs => some (lineComment ('/' :: '/' :: toLineEnd cs))
  | '/' :: '*' :: cs => (blockBody cs).map fun body => blockComment ('/' :: '*' :: body)
  | c :: cs =>
    if Lexeme.isBlank c then some (blank c)
    else if markup && ("<!--".toList.isPrefixOf (c :: cs) || "-->".toList.isPrefixOf (c :: cs)) then
      some (markupComment (toLineEnd (c :: cs)))
    else none
  | [] => none

/-- Takes as much as the budget allows; a text is budget enough for itself. -/
def takeAll (markup : Bool) : (budget rest : List Char) → List Trivium
  | [], _ => []
  | _ :: budget, rest =>
    match front? markup rest with
    | none => []
    | some t => t :: takeAll markup budget (rest.drop t.chars.length)

/-- Everything in front of the next token. -/
def before (markup : Bool) (rest : List Char) : List Trivium := takeAll markup rest rest

def size (ts : List Trivium) : Nat := ts.foldr (fun t n => t.chars.length + n) 0

/-- The text from the next token on. -/
def behind (markup : Bool) (rest : List Char) : List Char := rest.drop (size (before markup rest))

def hasLineEnd (ts : List Trivium) : Bool := ts.any isLineEnd

end Trivium

/-! ### Statements without a semicolon -/

namespace Semicolon

def isLetter (c : Char) : Bool := c.isAlpha || 0x7F < c.toNat

/-- Whether a word that starts like an operator by name goes on as one, so far as letters tell. -/
def isOperatorWord : List Char → Bool
  | 'i' :: 'n' :: cs =>
    match cs with
    | [] => true
    | c :: _ =>
      !isLetter c ||
        ("stanceof".toList.isPrefixOf cs && !((cs.drop 8).head?.any isLetter))
  | _ => false

/-- Whether the token at the start of a line carries on the statement before it. -/
def continues : List Char → Bool
  | '.' :: cs => !(cs.head?.any Char.isDigit)
  | '+' :: cs => cs.head? ≠ some '+'
  | '-' :: cs => cs.head? ≠ some '-'
  | '!' :: cs => cs.head? = some '='
  | c :: cs => "\x60,:;*%><=[(?^|&/".toList.contains c || isOperatorWord (c :: cs)
  | [] => false

/-- Whether a statement may end behind a complete operand. -/
def isImplied (rest : List Char) : Bool :=
  let gap := Trivium.before false rest
  let next := Trivium.behind false rest
  next.isEmpty || next.head? = some '\x7d' || (Trivium.hasLineEnd gap && !continues next)

/-- Whether a comment, with those that follow it, ends a statement that waits for an operand: a line
comment does, and a block comment with a line end in it. -/
def commentEnds (next : List Char) (broken : Bool) : List Trivium → Bool
  | [] => broken && !(next.head?.any ",=/".toList.contains)
  | .blank _ :: ts => commentEnds next broken ts
  | .blockComment text :: ts =>
    let broken := broken || text.any Lexeme.endsLine
    if (ts.head?.any Trivium.isBlank) then broken else commentEnds next broken ts
  | _ :: ts => commentEnds next true ts

/-- Whether a comment in a gap ends the statement; one that opens a line of its own does not. -/
def endsByComment (next : List Char) (broken : Bool) : List Trivium → Bool
  | [] => false
  | .blank c :: ts => endsByComment next (broken || Lexeme.endsLine c) ts
  | t :: ts => (!broken && commentEnds next false (t :: ts)) || endsByComment next false ts

/-- Whether a statement may end in front of an operand that is not required. -/
def isImpliedBeforeOperand (rest : List Char) : Bool :=
  isImplied rest || endsByComment (Trivium.behind false rest) false (Trivium.before false rest)

end Semicolon

end Stepwise
