import Stepwise.Tree.Location
/-!
Programs as they are evaluated. What the evaluator cannot run stays in the program as an
unsupported form with its place, to be reported each time control reaches it; a form whose tree
lacks a promised part is incomplete.
-/

namespace Stepwise

/-- How a name is declared. -/
inductive BindingKind where
  | constant
  | blockScoped
  | functionScoped
  | other
  deriving DecidableEq, Repr

namespace BindingKind

def ofWord (word : String) : BindingKind :=
  if word = "const" then constant
  else if word = "let" then blockScoped
  else if word = "var" then functionScoped
  else other

end BindingKind

inductive LogicalOp where
  | and | or | nullish
  deriving DecidableEq, Repr

inductive BinaryOp where
  | add | sub | mul | div | rem
  | looseEq | looseNe | strictEq | strictNe
  | lt | le | gt | ge
  deriving DecidableEq, Repr

inductive UnaryOp where
  | not | minus | plus | typeof | void
  deriving DecidableEq, Repr

namespace LogicalOp

def ofSymbol? (s : String) : Option LogicalOp :=
  if s = "&&" then some and else if s = "||" then some or
  else if s = "??" then some nullish else none

end LogicalOp

namespace BinaryOp

def symbol : BinaryOp → String
  | add => "+" | sub => "-" | mul => "*" | div => "/" | rem => "%"
  | looseEq => "==" | looseNe => "!=" | strictEq => "===" | strictNe => "!=="
  | lt => "<" | le => "<=" | gt => ">" | ge => ">="

def ofSymbol? (s : String) : Option BinaryOp :=
  [add, sub, mul, div, rem, looseEq, looseNe, strictEq, strictNe, lt, le, gt, ge].find?
    (·.symbol == s)

end BinaryOp

namespace UnaryOp

def symbol : UnaryOp → String
  | not => "!" | minus => "-" | plus => "+" | typeof => "typeof" | void => "void"

def ofSymbol? (s : String) : Option UnaryOp := [not, minus, plus, typeof, void].find? (·.symbol == s)

end UnaryOp

/-- A place in a parameter list. -/
inductive Param where
  | name (name : String)
  | unsupported (kind : String) (location : Location)
  deriving DecidableEq, Repr

mutual

inductive Expr where
  | identifier (name : String)
  | number (literal : String)
  | string (parts : List Part)
  | boolean (value : Bool)
  | null
  | undefined
  | logical (op : LogicalOp) (left right : Expr)
  | binary (op : BinaryOp) (left right : Expr)
  /-- both operands are evaluated before the operator is reported -/
  | unsupportedBinary (symbol : String) (left right : Expr) (location : Location)
  | unary (op : UnaryOp) (argument : Expr)
  | unsupportedUnary (symbol : String) (argument : Expr) (location : Location)
  | update (increments givesNew : Bool) (place : Place)
  | assign (place : Place) (value : Expr)
  /-- each slot with the number of commas before it -/
  | assignSlots (slots : List (Nat × Slot)) (value : Expr)
  | conditional (condition consequence alternative : Expr)
  | parenthesized (inner : Option Expr)
  | call (callee : Expr) (arguments : List Expr) (location : Location)
  | member (object : Expr) (property : String)
  | subscript (object index : Expr)
  /-- each element with the number of commas before it -/
  | array (elements : List (Nat × Expr))
  | object (members : List Member)
  | function (name : Option String) (params : List Param) (body : Body) (line : Int)
  | unsupported (kind : String) (location : Location)
  | incomplete

/-- A stretch of a string or template literal. -/
inductive Part where
  | raw (text : String)
  | escape (sequence : String)
  | substitution (value : Option Expr)

/-- What can be assigned to; anything else can be read, and is reported when it is written. -/
inductive Place where
  | name (name : String)
  | member (object : Expr) (property : String)
  | subscript (object index : Expr)
  | unsupported (value : Expr) (kind : String) (location : Location)
  | incomplete

/-- A target in an array pattern, with its text, which is the name a declaration binds. -/
inductive Slot where
  | target (text : String) (place : Place)
  | unsupported (kind : String) (location : Location)

/-- The key of a property in an object literal. -/
inductive Key where
  | name (name : String)
  | number (literal : String)
  | string (parts : List Part)
  | computed (value : Expr)

inductive Member where
  | pair (key : Key) (value : Expr)
  | shorthand (name : String)
  | unsupported (kind : String) (location : Location)

inductive Body where
  | expression (value : Expr)
  | block (hoisted : List String) (statements : List Stmt)
  | incomplete

inductive Stmt where
  | expression (value : Option Expr) (location : Location)
  | declaration (kind : BindingKind) (declarators : List Declarator) (location : Location)
  | function (name : String) (params : List Param) (body : Body) (location : Location)
  | returns (value : Option Expr) (location : Location)
  | conditional (condition : Expr) (consequence : Stmt) (alternative : Option (Option Stmt))
      (location : Location)
  | loop (initializer : Initializer) (condition update : Option Expr) (body : Stmt)
  | block (statements : List Stmt)
  | empty
  | comment
  | unsupported (kind : String) (location : Location)
  | incomplete

inductive Declarator where
  | mk (target : Binder) (value : Option Expr)

/-- What a declarator binds. -/
inductive Binder where
  | name (name : String)
  | slots (slots : List (Nat × Slot))
  | unsupported (kind : String) (location : Location)
  | incomplete

/-- The first clause of a loop header. -/
inductive Initializer where
  | none
  | expression (value : Expr)
  /-- with a fresh scope for every iteration, or without -/
  | declaration (perIteration : Bool) (statement : Stmt)

end

/-- A whole program, with the names of the variables declared outside its functions. -/
structure Program where
  hoisted : List String
  statements : List Stmt

end Stepwise
