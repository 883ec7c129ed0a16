import Stepwise.Grammar.Cursor
import Stepwise.Grammar.Pattern
/-!
Expressions. Binary operations are read by levels of precedence; an assignment, an arrow function
or a `yield` is read where its first operand stands and takes everything behind it that it can.
The productions refer to each other through a record, which is tied up in `Grammar.ofDepth`.
-/

namespace Stepwise

open Parse

/-- The productions that nest. -/
structure Grammar where
  /-- operations whose precedence is at least a level -/
  binary : Nat → Parse Node
  unary : Parse Node
  /-- an operand without what may be applied to it -/
  primary : Parse Node
  statement : Parse Node

namespace Grammar

/-! ### Operators -/

/-- The level of a binary operator; higher levels bind tighter. The conditional is at the lowest
level, together with the choice of what is not null. -/
def level? (op : String) : Option Nat :=
  [("??", 1), ("||", 2), ("&&", 3), ("|", 4), ("^", 5), ("&", 6), ("==", 7), ("!=", 7), ("===", 7),
   ("!==", 7), ("<", 8), ("<=", 8), (">", 8), (">=", 8), ("in", 8), ("instanceof", 8), ("<<", 9),
   (">>", 9), (">>>", 9), ("+", 10), ("-", 10), ("*", 11), ("/", 11), ("%", 11), ("**", 12)].lookup op

/-- The least level of the right operand: powers group to the right, all others to the left. -/
def rightLevel (op : String) (level : Nat) : Nat := if op = "**" then level else level + 1

def compoundAssignments : List String :=
  ["+=", "-=", "*=", "/=", "%=", "**=", "<<=", ">>=", ">>>=", "&=", "|=", "^=", "&&=", "||=", "??="]

def unarySymbols : List String := ["!", "~", "-", "+"]

def unaryWords : List String := ["typeof", "void", "delete"]

/-- The symbols that open an operand, apart from the unary operators. -/
def openingSymbols : List String :=
  ["(", "[", "\x7b", "\"", "'", "\x60", "/", "++", "--", "#", "@"]

/-- The next symbol or word. -/
def next : Parse String := do
  match ← symbol? with
  | some s => return s
  | none => word

/-- Whether an operand is next. -/
def isOperandNext : Parse Bool := do
  let ahead := (← get).ahead
  match Lexeme.symbol? ahead with
  | some s =>
    return Lexeme.number ahead ≠ 0 || openingSymbols.contains s || unarySymbols.contains s
  | none => return !ahead.isEmpty && (level? (← word)).isNone

variable (self : Grammar)

def expression : Parse Node := self.binary 1

/-- One expression, or several with commas between them. -/
def expressions : Parse Node := do
  let first ← self.expression
  let more ← many (isNext ",") (do return (← token ",") ++ (← part self.expression))
  return if more.isEmpty then first else .branch .sequenceExpression (first :: more)

/-- An element of a list. -/
def element : Parse Node := do
  if ← isNext "..." then node .spreadElement [token "...", part self.expression]
  else self.expression

/-! ### Literals -/

/-- The pieces of a literal up to its end, blanks and all. -/
def pieces (fragment : List Char → Nat) (substitution : Parse Node) : Parse (List Node) :=
  repeatFrom (fun nodes => do
    let rest := (← get).rest
    if fragment rest ≠ 0 then
      return some (nodes ++ [← leaf (.other "string_fragment") true (fragment rest)])
    else if Lexeme.escape rest ≠ 0 then
      return some (nodes ++ [← leaf .escapeSequence true (Lexeme.escape rest)])
    else if "$\x7b".toList.isPrefixOf rest then return some (nodes ++ [← substitution])
    else return none) []

def string (quote : Char) : Parse Node := do
  let mark := String.ofList [quote]
  node .string [here (tokenHere mark), pieces (Lexeme.stringFragment quote) failure,
    here (tokenHere mark)]

def template : Parse Node :=
  node .templateString [here (tokenHere "\x60"),
    pieces Lexeme.templateFragment
      (node .templateSubstitution [here (leaf (.other "$\x7b") false 2), part self.expressions,
        token "\x7d"]),
    here (tokenHere "\x60")]

def regex : Parse Node := do
  let opening ← leaf (.other "/") false 1
  let some length := Lexeme.regexPattern false (← get).rest | failure
  let pattern ← leaf (.other "regex_pattern") true length
  let closing ← leaf (.other "/") false 1
  let flags := ((← get).rest.takeWhile fun c => 'a' ≤ c && c ≤ 'z').length
  let flags ← if flags = 0 then pure []
    else role "flags" (leaf (.other "regex_flags") true flags)
  return .branch (.other "regex") ([opening, pattern.inRole "pattern", closing] ++ flags)

def array : Parse Node :=
  node .array [token "[", commaSeparated "]" self.element, token "]"]

/-! ### Names of properties -/

def privateName : Parse Node :=
  lexeme (.other "private_property_identifier") fun cs =>
    match cs with
    | '#' :: cs => if Lexeme.word cs = 0 then 0 else 1 + Lexeme.word cs
    | _ => 0

def propertyName : Parse Node := do
  match (← get).rest with
  | '\x22' :: _ => string '\x22'
  | '\x27' :: _ => string '\x27'
  | '[' :: _ => node .computedPropertyName [token "[", part self.expression, token "]"]
  | '#' :: _ => privateName
  | rest =>
    if Lexeme.number rest ≠ 0 then lexeme .number Lexeme.number
    else anyWord .propertyIdentifier

/-! ### Functions -/

def parameters : Parse Node := do
  let opening ← token "("
  let items ← commaSeparated ")" self.element
  let closing ← token ")"
  Node.toParameters? opening items closing

/-- Statements up to the end of the text, a closing brace, or one of some words. -/
def statementsUntil (stops : List String) : Parse (List Node) := do
  let another : Parse Bool := do
    let next := Trivium.behind true (← get).rest
    return !(next.isEmpty || next.head? = some '\x7d' ||
      stops.contains (String.ofList (next.take (Lexeme.word next))))
  let statements ← many another (part self.statement)
  return statements ++ (← comments true)

def block : Parse Node :=
  node .statementBlock [token "\x7b", self.statementsUntil [], token "\x7d"]

/-- The parameters and the body of a function behind what comes first. -/
def functionOfKind (kind : Kind) (front : List Node) : Parse Node :=
  node kind [pure front, role "parameters" self.parameters, role "body" self.block]

def functionExpression : Parse Node := do
  let front := (← tokenIf "async") ++ (← token "function")
  let star ← tokenIf "*"
  let given ← if (← word).isEmpty then pure [] else role "name" (name .identifier)
  self.functionOfKind (if star.isEmpty then .functionExpression else .generatorFunction)
    (front ++ star ++ given)

/-- A block, or what starts with an object where no block can be read. An object is considered
only if it spreads a value first, or starts with a key and a colon. -/
def blockOr (other : Parse Node) : Parse Node := do
  let isObject ← wouldRead (do
    let _ ← token "\x7b"
    if ← isNext "..." then token "..."
    else
      let _ ← part self.propertyName
      token ":")
  if isObject then self.block <|> other else self.block

/-- An arrow and the body behind it. -/
def arrow (front : List Node) : Parse Node := do
  let body : Parse Node := do
    if ← isNext "\x7b" then self.blockOr self.expression else self.expression
  node .arrowFunction [pure front, token "=>", role "body" body]

/-- A list in parentheses: the parameters of an arrow function, or expressions. -/
def parenthesized : Parse Node := do
  let opening ← token "("
  let items ← commaSeparated ")" self.element
  let closing ← token ")"
  if ← isNext "=>" then
    let params ← Node.toParameters? opening items closing
    self.arrow [params.inRole "parameters"]
  else Node.toParenthesized? opening items closing

def arguments : Parse Node :=
  node (.other "arguments") [token "(", commaSeparated ")" self.element, token ")"]

/-! ### Objects and classes -/

/-- The words and the star before the name of a property. A word that no name follows is the name
itself. -/
def modifiers (words : List String) : Parse (List Node) := do
  let another : Parse Bool := do
    let w ← word
    if words.contains w then
      wouldRead (do
        let _ ← token w
        let rest := (← get).ahead
        guard (Lexeme.word rest ≠ 0 || Lexeme.number rest ≠ 0 || rest.head?.any "\"'[#*".toList.contains))
    else return false
  let front ← many another (do token (← word))
  return front ++ (← tokenIf "*")

/-- A property of an object. -/
def property : Parse Node := do
  if ← isNext "..." then self.element
  else
    let front ← modifiers ["async", "get", "set"]
    let front := front ++ (← comments true)
    let key ← self.propertyName
    if ← isNext "(" then self.functionOfKind .methodDefinition (front ++ [key.inRole "name"])
    else
      guard front.isEmpty
      if ← isNext ":" then
        node .pair [pure [key.inRole "key"], token ":", role "value" self.expression]
      else
        guard (key.kind = .propertyIdentifier)
        if ← isNext "=" then
          node .defaultedProperty [pure [(key.ofKind .shorthandPattern).inRole "left"], token "=",
            role "right" self.expression]
        else return key.ofKind .shorthandPropertyIdentifier

def object : Parse Node :=
  node .object [token "\x7b", commaSeparated "\x7d" self.property, token "\x7d"]

/-- The value behind an equals sign, if there is one. -/
def initializer : Parse (List Node) := do
  if ← isNext "=" then return (← token "=") ++ (← role "value" self.expression) else return []

/-- A method, a field or a block of static statements. -/
def classMember : Parse Node := do
  if ← wouldRead (do let _ ← token "static"; token "\x7b") then
    node (.other "class_static_block") [token "static", role "body" self.block]
  else
    let front ← modifiers ["static", "async", "get", "set"]
    let front := front ++ (← comments true)
    let key ← self.propertyName
    if ← isNext "(" then self.functionOfKind .methodDefinition (front ++ [key.inRole "name"])
    else node (.other "field_definition") [pure (front ++ [key.inRole "property"]), self.initializer]

/-- Members of a class; a field ends like a statement. -/
def classBody : Parse Node := do
  let round : Parse (List Node) := do
    if ← isNext ";" then token ";"
    else
      let nodes ← role "member" self.classMember
      let isField := nodes.getLast?.any (·.kind = .other "field_definition")
      return nodes ++ (← if isField then semicolon else pure [])
  let another : Parse Bool := do
    return !(← isEnd) && !(← isNext "\x7d")
  node (.other "class_body") [token "\x7b", many another round, token "\x7d"]

/-- A class behind its name. -/
def classOfKind (kind : Kind) (front : List Node) : Parse Node := do
  let heritage ← if ← isNext "extends" then
      part (node (.other "class_heritage") [token "extends", part self.expression])
    else pure []
  node kind [pure (front ++ heritage), role "body" self.classBody]

def classExpression : Parse Node := do
  let front ← token "class"
  let w ← word
  let given ← if w.isEmpty || w == "extends" then pure [] else role "name" (name .identifier)
  self.classOfKind (.other "class") (front ++ given)

/-! ### Operands -/

/-- The name behind a dot. -/
def memberName : Parse Node := do
  if (← get).rest.head? = some '#' then privateName else anyWord .propertyIdentifier

/-- One access to a property, or one call, applied to what stands before it. -/
def access (calls : Bool) (object : Node) : Parse (Option Node) := do
  let subscript (front : List Node) : Parse Node :=
    node .subscriptExpression [pure (object.inRole "object" :: front), token "[",
      role "index" self.expressions, token "]"]
  let call (front : List Node) : Parse Node :=
    node .callExpression [pure (object.inRole "function" :: front), role "arguments" self.arguments]
  match ← symbol? with
  | some "." =>
    return some (← node .memberExpression [pure [object.inRole "object"], token ".",
      role "property" memberName])
  | some "[" => return some (← subscript [])
  | some "(" => if calls then return some (← call []) else return none
  | some "\x60" =>
    return some (← node .callExpression [pure [object.inRole "function"], role "arguments" self.template])
  | some "?." =>
    if !calls then return none
    let chain ← role "optional_chain" (leaf (.other "optional_chain") true 2)
    if ← isNext "[" then return some (← subscript chain)
    else if ← isNext "(" then return some (← call chain)
    else
      return some (← node .memberExpression [pure (object.inRole "object" :: chain),
        role "property" memberName])
  | _ => return none

/-- An operand with all that is applied to it. -/
def accessed (calls : Bool) (object : Node) : Parse Node := repeatFrom (self.access calls) object

/-- The constructor of a new object, and its arguments if there are any. -/
def newExpression : Parse Node := do
  let front ← token "new"
  if ← isNext "." then node (.other "meta_property") [pure front, token ".", token "target"]
  else
    let constructor ← role "constructor" (do self.accessed false (← self.primary))
    let arguments ← if ← isNext "(" then role "arguments" self.arguments else pure []
    return .branch (.other "new_expression") (front ++ constructor ++ arguments)

/-- An import that is called, or asked about itself. -/
def importOperand : Parse Node := do
  let word ← leaf (.other "import") true 6
  if ← isNext "." then node (.other "meta_property") [pure [word], token ".", token "meta"]
  else
    guard (← isNext "(")
    return word

/-- An operand that starts with the word for deferred functions, which is a name, too. -/
def asyncOperand : Parse Node := do
  if ← wouldRead (do let _ ← token "async"; token "function") then self.functionExpression
  else if ← wouldRead (do
      let _ ← token "async"
      let _ ← part (name .identifier)
      token "=>") then
    let front ← token "async"
    self.arrow (front ++ (← role "parameter" (name .identifier)))
  else if ← wouldRead (do let _ ← token "async"; token "(") then
    let word ← tokenHere "async"
    let opening ← token "("
    let items ← commaSeparated ")" self.element
    let closing ← token ")"
    if ← isNext "=>" then
      let params ← Node.toParameters? opening items closing
      self.arrow [word, params.inRole "parameters"]
    else
      let callee := Node.leaf .identifier true word.label.start word.label.stop
      let arguments := Node.branch (.other "arguments") (opening ++ items ++ closing)
      return .branch .callExpression [callee.inRole "function", arguments.inRole "arguments"]
  else name .identifier

/-- The words that are operands of their own. -/
def literalWord? (w : String) : Option Kind :=
  [("true", .trueLiteral), ("false", .falseLiteral), ("null", .nullLiteral),
   ("undefined", .undefinedLiteral), ("this", .other "this"), ("super", .other "super")].lookup w

/-- An operand that starts with a word. -/
def wordOperand : Parse Node := do
  let w ← word
  match literalWord? w with
  | some kind => anyWord kind
  | none =>
    if w == "function" then self.functionExpression
    else if w == "class" then self.classExpression
    else if w == "new" then self.newExpression
    else if w == "import" then importOperand
    else if w == "async" then self.asyncOperand
    else
      let given ← name .identifier
      if ← isNext "=>" then self.arrow [given.inRole "parameter"] else return given

def readPrimary : Parse Node := do
  match (← get).rest with
  | '(' :: _ => self.parenthesized
  | '[' :: _ => self.array
  | '\x7b' :: _ => self.object
  | '\x22' :: _ => string '\x22'
  | '\x27' :: _ => string '\x27'
  | '\x60' :: _ => self.template
  | '/' :: c :: _ => if c = '*' then failure else regex
  | rest => if Lexeme.number rest ≠ 0 then lexeme .number Lexeme.number else self.wordOperand

/-! ### Operations -/

/-- Whether nothing more can be applied to an operand. -/
def isClosed (operand : Node) : Bool :=
  operand.kind = .arrowFunction &&
    (operand.child? "body").any fun body => body.kind ≠ .statementBlock

/-- An assignment to an operand, or a step up or down of it, if there is one. -/
def assigned (target : Node) : Parse Node := do
  match ← symbol? with
  | none => return target
  | some op =>
    if op = "=" then
      match target.toAssignable? with
      | none => return target
      | some left =>
        node .assignmentExpression [pure [left.inRole "left"], token op, role "right" self.expression]
    else if compoundAssignments.contains op && target.isChangeable then
      node (.other "augmented_assignment_expression")
        [pure [target.inRole "left"], tokenAs "operator" op, role "right" self.expression]
    else if (op = "++" || op = "--") && (← isSameLine) then
      node .updateExpression [pure [target.inRole "argument"], tokenAs "operator" op]
    else return target

def operand : Parse Node := do
  let head ← self.primary
  if isClosed head then return head else self.assigned (← self.accessed true head)

/-- The value handed out by a generator, if there is one. -/
def yieldExpression : Parse Node := do
  let front ← token "yield"
  let closers := [")", "]", "\x7d", ",", ";", ":"]
  let parts ←
    if ← isNext "*" then pure [token "*", part self.expression]
    else if Semicolon.isImpliedBeforeOperand (← get).rest || closers.contains (← next) then pure []
    else pure [part self.expression]
  node (.other "yield_expression") (pure front :: parts)

/-- Whether a value is waited for; the word for that is a name where no operand follows it. -/
def isAwaiting : Parse Bool :=
  wouldRead (do
    let _ ← token "await"
    guard !(Semicolon.isImplied (← get).rest)
    guard (← isOperandNext))

def readUnary : Parse Node := do
  let op ← next
  if unarySymbols.contains op || unaryWords.contains op then
    node .unaryExpression [tokenAs "operator" op, role "argument" self.unary]
  else if op = "++" || op = "--" then
    node .updateExpression [tokenAs "operator" op, role "argument" self.unary]
  else if ← isAwaiting then node (.other "await_expression") [token op, part self.unary]
  else if op = "yield" then self.yieldExpression
  else self.operand

/-- One operation of at least a level, with what stands before it as its left side. -/
def operation (least : Nat) (left : Node) : Parse (Option Node) := do
  let op ← next
  match level? op with
  | some level =>
    if level < least then return none
    return some (← node .binaryExpression [pure [left.inRole "left"], tokenAs "operator" op,
      role "right" (self.binary (rightLevel op level))])
  | none =>
    if op = "?" && least ≤ 1 then
      return some (← node .ternaryExpression [pure [left.inRole "condition"], token op,
        role "consequence" self.expression, token ":", role "alternative" self.expression])
    else return none

def readBinary (least : Nat) : Parse Node := do
  repeatFrom (self.operation least) (← self.unary)

end Grammar

end Stepwise
