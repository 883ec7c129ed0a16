import Stepwise.Grammar.Expression
/-!
Statements and declarations. A statement without its semicolon ends where the text, a block or a
line does.
-/

namespace Stepwise

open Parse

namespace Grammar

variable (self : Grammar)

/-! ### Declarations -/

/-- What a declaration binds: a name or a pattern. -/
def binding : Parse Node := do
  match (← get).rest with
  | '[' :: _ => (← self.array).toPattern? .target
  | '\x7b' :: _ => (← self.object).toPattern? .target
  | _ => name .identifier

def declarator : Parse Node :=
  node .variableDeclarator [role "name" self.binding, self.initializer]

/-- Declarators behind the word that declares them, up to the semicolon. -/
def declarationOfKind (kind : Kind) (front : Parse (List Node)) : Parse Node := do
  let front ← front
  let first ← part self.declarator
  let more ← many (isNext ",") (do return (← token ",") ++ (← part self.declarator))
  let declarators := first ++ more
  let isOpen := declarators.getLast?.any fun d => (d.child? "value").isNone
  node kind [pure (front ++ declarators), if isOpen then semicolonOrOperand else semicolon]

def variableDeclaration : Parse Node :=
  self.declarationOfKind .variableDeclaration (token "var")

def lexicalDeclaration : Parse Node := do
  let w ← word
  self.declarationOfKind .lexicalDeclaration (tokenAs "kind" w)

/-- Whether what is bound by a word that declares follows it; the word for block-scoped variables
is a name, too. -/
def declares (w : String) : Parse Bool := do
  let next ← lookahead (do let _ ← token w; return (← get).ahead)
  return next.any fun rest =>
    let w := String.ofList (rest.take (Lexeme.word rest))
    if w.isEmpty then rest.head? = some '[' || rest.head? = some '\x7b'
    else w ≠ "in" && w ≠ "instanceof"

/-- Whether a variable declaration is next, and of which scope. -/
def isVariable : Parse Bool := isNext "var"

def isLexical : Parse Bool := do
  let w ← word
  return w == "const" || (w == "let" && (← declares "let"))

def functionDeclaration : Parse Node := do
  let front := (← tokenIf "async") ++ (← token "function")
  let star ← tokenIf "*"
  let given ← role "name" (name .identifier)
  self.functionOfKind
    (if star.isEmpty then .functionDeclaration else .generatorFunctionDeclaration)
    (front ++ star ++ given)

/-- Whether a function with a name is next. -/
def isFunctionDeclaration : Parse Bool :=
  wouldRead (do
    let _ ← tokenIf "async"
    let _ ← token "function"
    let _ ← tokenIf "*"
    part (name .identifier))

def classDeclaration : Parse Node := do
  let front ← token "class"
  self.classOfKind .classDeclaration (front ++ (← role "name" (name .identifier)))

/-- Whether a class with a name is next. -/
def isClassDeclaration : Parse Bool := do
  let next ← lookahead (do let _ ← token "class"; word)
  return next.any fun w => !w.isEmpty && w ≠ "extends"

/-- A declaration, if one is next. -/
def declaration? : Parse (Option (Parse Node)) := do
  if ← isVariable then return some self.variableDeclaration
  else if ← isLexical then return some self.lexicalDeclaration
  else if ← isFunctionDeclaration then return some self.functionDeclaration
  else if ← isClassDeclaration then return some self.classDeclaration
  else return none

/-! ### Conditions and loops -/

/-- The condition of a statement, in its parentheses. -/
def condition : Parse Node :=
  node .parenthesizedExpression [token "(", part self.expressions, token ")"]

def emptyStatement : Parse Node := node .emptyStatement [token ";"]

def ifStatement : Parse Node := do
  let front ← node .ifStatement [token "if", role "condition" self.condition,
    role "consequence" self.statement]
  if ← isNext "else" then
    let other ← role "alternative" (node .elseClause [token "else", part self.statement])
    return .branch .ifStatement (front.children ++ other)
  else return front

def whileStatement : Parse Node :=
  node (.other "while_statement") [token "while", role "condition" self.condition,
    role "body" self.statement]

def doStatement : Parse Node := do
  let front ← node (.other "do_statement") [token "do", role "body" self.statement, token "while",
    role "condition" self.condition]
  return .branch front.kind (front.children ++ (← tokenIf ";"))

/-- What takes the elements in a loop over them: a declared name or pattern, or a target. -/
def loopTarget : Parse (List Node) := do
  if (← isVariable) || (← isLexical) then
    let w ← word
    return (← tokenAs "kind" w) ++ (← role "left" self.binding)
  else
    role "left" (do
      let target ← self.accessed true (← self.primary)
      target.toAssignable?)

/-- A loop over the elements or the keys of a value. -/
def forInStatement : Parse Node := do
  let front := (← token "for") ++ (← tokenIf "await") ++ (← token "(") ++ (← self.loopTarget)
  let w ← word
  guard (w == "of" || w == "in")
  node (.other "for_in_statement") [pure front, tokenAs "operator" w, role "right" self.expressions,
    token ")", role "body" self.statement]

/-- A clause of a loop header, which ends in a semicolon. -/
def clause (field : String) : Parse (List Node) := do
  if ← isNext ";" then role field emptyStatement
  else return (← role field self.expressions) ++ (← token ";")

def forStatement : Parse Node := do
  let front := (← token "for") ++ (← token "(")
  let start ←
    if ← isVariable then role "initializer" self.variableDeclaration
    else if ← isLexical then role "initializer" self.lexicalDeclaration
    else self.clause "initializer"
  let condition ← self.clause "condition"
  let increment ← if ← isNext ")" then pure [] else role "increment" self.expressions
  node .forStatement [pure (front ++ start ++ condition ++ increment), token ")",
    role "body" self.statement]

/-! ### Choices and jumps -/

/-- The statements of a case, each in the role of its body. -/
def caseBody : Parse (List Node) := do
  let nodes ← self.statementsUntil ["case", "default"]
  return nodes.map fun n => if n.kind.isComment then n else n.inRole "body"

def switchStatement : Parse Node := do
  let round : Parse Node := do
    if ← isNext "case" then
      node (.other "switch_case") [token "case", role "value" self.expressions, token ":", self.caseBody]
    else node (.other "switch_default") [token "default", token ":", self.caseBody]
  let another : Parse Bool := do return !(← isNext "\x7d")
  node (.other "switch_statement") [token "switch", role "value" self.condition,
    role "body" (node (.other "switch_body") [token "\x7b", many another (part round), token "\x7d"])]

def tryStatement : Parse Node := do
  let body := (← token "try") ++ (← role "body" self.block)
  let handler ← if ← isNext "catch" then
      role "handler" (do
        let front ← token "catch"
        let parameter ← if ← isNext "(" then
            pure [token "(", role "parameter" self.binding, token ")"]
          else pure []
        node (.other "catch_clause") (pure front :: parameter ++ [role "body" self.block]))
    else pure []
  let finalizer ← if ← isNext "finally" then
      role "finalizer" (node (.other "finally_clause") [token "finally", role "body" self.block])
    else pure []
  return .branch (.other "try_statement") (body ++ handler ++ finalizer)

/-- A statement of a word that an operand may follow. -/
def statementOfWord (kind : Kind) (w : String) : Parse Node := do
  let front ← token w
  if Semicolon.isImpliedBeforeOperand (← get).rest then return .branch kind front
  else if ← isNext ";" then node kind [pure front, token ";"]
  else node kind [pure front, part self.expressions, semicolon]

/-- A jump, to a label if there is one. -/
def jump (kind : Kind) (w : String) : Parse Node := do
  let front ← token w
  if Semicolon.isImpliedBeforeOperand (← get).rest then return .branch kind front
  else if ← isNext ";" then node kind [pure front, token ";"]
  else
    node kind [pure front, role "label" (name (.other "statement_identifier")), semicolonOrOperand]

/-! ### Modules -/

/-- Names in braces, each under another name at will. -/
def moduleNames (kind specifier : Kind) : Parse Node := do
  let given : Parse Node := do
    match (← get).rest with
    | '\x22' :: _ => string '\x22'
    | '\x27' :: _ => string '\x27'
    | rest =>
      if rest.take (Lexeme.word rest) = "default".toList then tokenHere "default"
      else name .identifier
  let item : Parse Node := do
    let first ← role "name" given
    let second ← if ← isNext "as" then pure [token "as", role "alias" given] else pure []
    node specifier (pure first :: second)
  node kind [token "\x7b", commaSeparated "\x7d" item, token "\x7d"]

def moduleSource : Parse (List Node) :=
  role "source" (do
    match (← get).rest with
    | '\x22' :: _ => string '\x22'
    | _ => string '\x27')

def isString : Parse Bool := do
  return (← get).ahead.head?.any "\"'".toList.contains

def namespaceImport : Parse Node :=
  node (.other "namespace_import") [token "*", token "as", part (name .identifier)]

/-- What an import binds. -/
def importClause : Parse Node := do
  let braces : Parse Node := do
    if ← isNext "*" then namespaceImport
    else moduleNames (.other "named_imports") (.other "import_specifier")
  let kind : Kind := .other "import_clause"
  if (← word).isEmpty then node kind [part braces]
  else
    let first ← part (name .identifier)
    let more ← if ← isNext "," then pure [token ",", part braces] else pure []
    node kind (pure first :: more)

/-- The attributes of an import, in an object. -/
def importAttributes : Parse (List Node) := do
  let w ← word
  if w == "with" || w == "assert" then
    part (node (.other "import_attribute") [token w, part self.object])
  else return []

def importStatement : Parse Node := do
  let front ← token "import"
  let clause ← if ← isString then pure [] else pure [part importClause, token "from"]
  node (.other "import_statement") ([pure front] ++ clause ++ [moduleSource, self.importAttributes,
    semicolonOrOperand])

def exportStatement : Parse Node := do
  let front ← token "export"
  let kind : Kind := .other "export_statement"
  if ← isNext "*" then
    let clause ← if ← wouldRead (do let _ ← token "*"; token "as") then
        part (node (.other "namespace_export") [token "*", token "as", part (name .identifier)])
      else token "*"
    node kind [pure (front ++ clause), token "from", moduleSource, semicolonOrOperand]
  else if ← isNext "\x7b" then
    let clause ← part (moduleNames (.other "export_clause") (.other "export_specifier"))
    let source ← if ← isNext "from" then pure [token "from", moduleSource] else pure []
    node kind ([pure (front ++ clause)] ++ source ++ [semicolonOrOperand])
  else
    let word ← tokenIf "default"
    match ← self.declaration? with
    | some declaration => node kind [pure (front ++ word), role "declaration" declaration]
    | none =>
      guard !word.isEmpty
      node kind [pure (front ++ word), role "value" self.expression, semicolon]

/-! ### Statements -/

def labeledStatement : Parse Node :=
  node (.other "labeled_statement") [role "label" (name (.other "statement_identifier")), token ":",
    role "body" self.statement]

def expressionStatement : Parse Node :=
  node .expressionStatement [part self.expressions, semicolon]

/-- The statements that start with a word of their own. -/
def statementOf? (w : String) : Option (Parse Node) :=
  [("if", self.ifStatement), ("for", self.forInStatement <|> self.forStatement),
   ("while", self.whileStatement), ("do", self.doStatement), ("switch", self.switchStatement),
   ("try", self.tryStatement),
   ("return", self.statementOfWord .returnStatement "return"),
   ("throw", node (.other "throw_statement") [token "throw", part self.expressions, semicolon]),
   ("break", jump (.other "break_statement") "break"),
   ("continue", jump (.other "continue_statement") "continue"),
   ("with", node (.other "with_statement") [token "with", role "object" self.condition,
     role "body" self.statement]),
   ("debugger", node (.other "debugger_statement") [token "debugger", semicolonOrOperand]),
   ("export", self.exportStatement)].lookup w

/-- Whether an import stands as a statement; one that is called or asked about itself does not. -/
def isImportStatement : Parse Bool := do
  let next ← lookahead (do let _ ← token "import"; return (← get).ahead)
  return next.any fun rest => !(rest.head?.any "(.".toList.contains)

def readStatement : Parse Node := do
  if ← isNext "\x7b" then self.blockOr self.expressionStatement
  else if ← isNext ";" then emptyStatement
  else
    match self.statementOf? (← word) with
    | some statement => statement
    | none =>
      match ← self.declaration? with
      | some declaration => declaration
      | none =>
        if ← isImportStatement then self.importStatement
        else if ← wouldRead (do let _ ← part (name .identifier); token ":") then self.labeledStatement
        else self.expressionStatement

end Grammar

end Stepwise
