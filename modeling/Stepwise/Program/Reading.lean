import Stepwise.Tree
import Stepwise.Program
/-!
How syntax trees become programs. A node is read from the readings of its children: as an
expression, a statement, a target and so on, whichever its parent asks for. Comments are read
past; kinds outside the language become unsupported forms.
-/

namespace Stepwise

/-- A node with everything that it can be read as. -/
structure Reading where
  label : Label
  text : String
  location : Location
  expr : Expr
  stmt : Stmt
  place : Place
  /-- as an element of an array pattern -/
  slot : Slot
  /-- as an array pattern -/
  slots : List (Nat × Slot)
  /-- as an argument list -/
  items : List Expr
  /-- as a property key, and as a property -/
  key : Key
  member : Member
  /-- as one parameter, and as a parameter list -/
  param : Param
  params : List Param
  /-- as a function body -/
  body : Body
  declarator : Declarator
  /-- as a clause of a loop header, and as its first one -/
  clause : Option Expr
  initializer : Initializer
  /-- as the second branch of a conditional -/
  branch : Option Stmt
  /-- the names bound as a pattern -/
  names : List String
  /-- the names bound by the pattern in the role of the name -/
  bound : List String
  /-- the variables declared here, outside of functions -/
  declared : List String

namespace Reading

def kind (r : Reading) : Kind := r.label.kind

/-- The children that matter: named, and not comments. -/
def significant (rs : List Reading) : List Reading :=
  rs.filter fun r => r.label.named && !r.kind.isComment

def first? (rs : List Reading) : Option Reading := (significant rs).head?

/-- The first child in a role, comments included. -/
def child? (field : String) (rs : List Reading) : Option Reading :=
  rs.find? (·.label.field == some field)

def exprAt (field : String) (rs : List Reading) : Expr :=
  ((child? field rs).map Reading.expr).getD .incomplete

def stmtAt (field : String) (rs : List Reading) : Stmt :=
  ((child? field rs).map Reading.stmt).getD .incomplete

def isComma (r : Reading) : Bool := r.kind = .other ","

/-- The significant children, each with the number of commas before it. -/
def slotted {α : Type} (f : Reading → α) : Nat → List Reading → List (Nat × α)
  | _, [] => []
  | n, r :: rs =>
    if r.isComma then slotted f (n + 1) rs
    else if r.label.named && !r.kind.isComment then (n, f r) :: slotted f n rs
    else slotted f n rs

/-- The stretches of a literal between two offsets: its children, and the source text that none
of them covers. -/
def parts (source : Source) (start stop : Nat) : Nat → List Reading → List Part
  | cursor, [] => if cursor < stop then [.raw (source.slice cursor stop)] else []
  | cursor, r :: rs =>
    if r.label.start < start || stop < r.label.stop then parts source start stop cursor rs
    else
      let gap := if cursor < r.label.start then [Part.raw (source.slice cursor r.label.start)] else []
      let own := match r.kind with
        | .escapeSequence => [Part.escape r.text]
        | .templateSubstitution => [Part.substitution r.items.head?]
        | .comment | .htmlComment => []
        | _ => [Part.raw r.text]
      gap ++ own ++ parts source start stop r.label.stop rs

/-- The stretches of a whole literal, its delimiters of one byte left out. -/
def literal (source : Source) (label : Label) (rs : List Reading) : List Part :=
  parts source (label.start + 1) (label.stop - 1) (label.start + 1) rs

def readBinary (location : Location) (rs : List Reading) : Expr :=
  match child? "operator" rs with
  | none => .incomplete
  | some op =>
    let left := exprAt "left" rs
    let right := exprAt "right" rs
    match LogicalOp.ofSymbol? op.text, BinaryOp.ofSymbol? op.text with
    | some op, _ => .logical op left right
    | none, some op => .binary op left right
    | none, none => .unsupportedBinary op.text left right location

def readUnary (location : Location) (rs : List Reading) : Expr :=
  match child? "operator" rs with
  | none => .incomplete
  | some op =>
    match UnaryOp.ofSymbol? op.text with
    | some op => .unary op (exprAt "argument" rs)
    | none => .unsupportedUnary op.text (exprAt "argument" rs) location

/-- The operator stands first where the new value is wanted. -/
def readUpdate (rs : List Reading) : Expr :=
  match child? "argument" rs, child? "operator" rs, rs with
  | some argument, some op, front :: _ =>
    .update (op.text == "++") (front.kind = .other "++" || front.kind = .other "--") argument.place
  | _, _, _ => .incomplete

def readAssignment (rs : List Reading) : Expr :=
  match child? "left" rs with
  | none => .incomplete
  | some left =>
    if left.kind = .arrayPattern then .assignSlots left.slots (exprAt "right" rs)
    else .assign left.place (exprAt "right" rs)

def readCall (location : Location) (rs : List Reading) : Expr :=
  .call (exprAt "function" rs) (((child? "arguments" rs).map Reading.items).getD []) location

def paramsOf (rs : List Reading) : List Param :=
  (((child? "parameters" rs).or (child? "parameter" rs)).map Reading.params).getD []

def bodyOf (rs : List Reading) : Body := ((child? "body" rs).map Reading.body).getD .incomplete

def readExpr (source : Source) (label : Label) (text : String) (location : Location)
    (rs : List Reading) : Expr :=
  match label.kind with
  | .identifier => .identifier text
  | .number => .number text
  | .string | .templateString => .string (literal source label rs)
  | .trueLiteral => .boolean true
  | .falseLiteral => .boolean false
  | .nullLiteral => .null
  | .undefinedLiteral => .undefined
  | .binaryExpression => readBinary location rs
  | .unaryExpression => readUnary location rs
  | .updateExpression => readUpdate rs
  | .assignmentExpression => readAssignment rs
  | .ternaryExpression =>
    .conditional (exprAt "condition" rs) (exprAt "consequence" rs) (exprAt "alternative" rs)
  | .parenthesizedExpression => .parenthesized ((first? rs).map Reading.expr)
  | .callExpression => readCall location rs
  | .memberExpression =>
    match child? "property" rs with
    | some property => .member (exprAt "object" rs) property.text
    | none => .incomplete
  | .subscriptExpression => .subscript (exprAt "object" rs) (exprAt "index" rs)
  | .array => .array (slotted Reading.expr 0 rs)
  | .object => .object ((significant rs).map Reading.member)
  | .arrowFunction | .functionExpression | .function =>
    .function ((child? "name" rs).map Reading.text) (paramsOf rs) (bodyOf rs) location.startLine
  | kind => .unsupported kind.name location

/-- A place, parentheses around it left out. -/
def readPlace (kind : Kind) (text : String) (location : Location) (expr : Expr)
    (rs : List Reading) : Place :=
  match kind with
  | .identifier => .name text
  | .memberExpression | .subscriptExpression =>
    match expr with
    | .member object property => .member object property
    | .subscript object index => .subscript object index
    | _ => .incomplete
  | .parenthesizedExpression => ((first? rs).map Reading.place).getD .incomplete
  | kind => .unsupported expr kind.name location

def readSlot (kind : Kind) (text : String) (location : Location) (place : Place) : Slot :=
  match kind with
  | .identifier | .memberExpression | .subscriptExpression => .target text place
  | kind => .unsupported kind.name location

def readKey (kind : Kind) (text : String) (literal : List Part) (rs : List Reading) : Key :=
  match kind with
  | .string => .string literal
  | .number => .number text
  | .computedPropertyName => .computed (((first? rs).map Reading.expr).getD .incomplete)
  | _ => .name text

def readMember (kind : Kind) (text : String) (location : Location) (rs : List Reading) : Member :=
  match kind with
  | .pair => .pair (((child? "key" rs).map Reading.key).getD (.computed .incomplete)) (exprAt "value" rs)
  | .shorthandPropertyIdentifier => .shorthand text
  | kind => .unsupported kind.name location

def readParam (kind : Kind) (text : String) (location : Location) (rs : List Reading) : Param :=
  match kind with
  | .identifier => .name text
  | .assignmentPattern => .name (((child? "left" rs).map Reading.text).getD "")
  | kind => .unsupported kind.name location

def readDeclarator (rs : List Reading) : Declarator :=
  let binder : Binder := match child? "name" rs with
    | none => .incomplete
    | some target =>
      match target.kind with
      | .identifier => .name target.text
      | .arrayPattern => .slots target.slots
      | kind => .unsupported kind.name target.location
  .mk binder ((child? "value" rs).map Reading.expr)

def readDeclaration (location : Location) (rs : List Reading) : Stmt :=
  match rs with
  | [] => .incomplete
  | word :: _ =>
    let declarators := (significant rs).filter (·.kind = .variableDeclarator)
    .declaration (.ofWord word.text) (declarators.map Reading.declarator) location

def readLoop (rs : List Reading) : Stmt :=
  .loop (((child? "initializer" rs).map Reading.initializer).getD .none)
    ((child? "condition" rs).bind Reading.clause)
    (((child? "increment" rs).or (child? "update" rs)).map Reading.expr)
    (stmtAt "body" rs)

def readStmt (kind : Kind) (location : Location) (rs : List Reading) : Stmt :=
  match kind with
  | .comment | .htmlComment => .comment
  | .expressionStatement => .expression ((first? rs).map Reading.expr) location
  | .lexicalDeclaration | .variableDeclaration => readDeclaration location rs
  | .functionDeclaration =>
    match child? "name" rs with
    | some name => .function name.text (paramsOf rs) (bodyOf rs) location
    | none => .incomplete
  | .returnStatement => .returns ((first? rs).map Reading.expr) location
  | .ifStatement =>
    .conditional (exprAt "condition" rs) (stmtAt "consequence" rs)
      ((child? "alternative" rs).map Reading.branch) location
  | .forStatement => readLoop rs
  | .statementBlock => .block ((significant rs).map Reading.stmt)
  | .emptyStatement => .empty
  | kind => .unsupported kind.name location

/-- An empty clause is a mere semicolon; a clause may be wrapped up as a statement. -/
def readClause (kind : Kind) (expr : Expr) (rs : List Reading) : Option Expr :=
  match kind with
  | .emptyStatement => none
  | .expressionStatement => (first? rs).map Reading.expr
  | kind => if kind = .other ";" then none else some expr

def readInitializer (kind : Kind) (stmt : Stmt) (clause : Option Expr) : Initializer :=
  match kind, clause with
  | .lexicalDeclaration, _ => .declaration true stmt
  | .variableDeclaration, _ => .declaration false stmt
  | _, some expr => .expression expr
  | _, none => .none

def hoistedBy (rs : List Reading) : List String := (significant rs).flatMap Reading.declared

def readBody (kind : Kind) (expr : Expr) (rs : List Reading) : Body :=
  match kind with
  | .statementBlock => .block (hoistedBy rs) ((significant rs).map Reading.stmt)
  | _ => .expression expr

def readNames (kind : Kind) (text : String) (rs : List Reading) : List String :=
  match kind with
  | .identifier => [text]
  | .arrayPattern => (significant rs).flatMap Reading.names
  | _ => []

def readDeclared (kind : Kind) (rs : List Reading) : List String :=
  if kind.confinesVariables then []
  else if kind = .variableDeclaration then (significant rs).flatMap Reading.bound
  else hoistedBy rs

/-- The reading of a node from the readings of its children. -/
def ofChildren (source : Source) (label : Label) (rs : List Reading) : Reading :=
  let kind := label.kind
  let text := source.slice label.start label.stop
  let location := source.location label.start label.stop
  let expr := readExpr source label text location rs
  let stmt := readStmt kind location rs
  let place := readPlace kind text location expr rs
  let clause := readClause kind expr rs
  { label, text, location, expr, stmt, place, clause
    slot := readSlot kind text location place
    slots := slotted Reading.slot 0 rs
    items := (significant rs).map Reading.expr
    key := readKey kind text (if kind = .string then literal source label rs else []) rs
    member := readMember kind text location rs
    param := readParam kind text location rs
    params := if kind = .identifier then [.name text] else (significant rs).map Reading.param
    body := readBody kind expr rs
    declarator := readDeclarator rs
    initializer := readInitializer kind stmt clause
    branch := if kind = .elseClause then (first? rs).map Reading.stmt else some stmt
    names := readNames kind text rs
    bound := ((child? "name" rs).map Reading.names).getD []
    declared := readDeclared kind rs }

end Reading

mutual

def Node.read (source : Source) : Node → Reading
  | .mk label children => .ofChildren source label (readAll source children)

def Node.readAll (source : Source) : List Node → List Reading
  | [] => []
  | n :: ns => n.read source :: readAll source ns

end

/-- The program of a tree. -/
def Program.ofTree (source : Source) (root : Node) : Program :=
  let rs := Node.readAll source root.children
  ⟨Reading.hoistedBy rs, (Reading.significant rs).map Reading.stmt⟩

end Stepwise
