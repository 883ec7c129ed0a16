import Stepwise.Value.Operator
import Stepwise.Text.Escape
import Stepwise.State.Reachability
import Stepwise.Run.Promise
import Stepwise.Trace
/-!
Evaluation. Each form is evaluated by means of an evaluator for the forms inside it; the evaluator
of depth `n + 1` uses the one of depth `n`, and the one of depth zero is exhausted. So a depth
bounds the nesting of evaluations, loop iterations and calls included, and nothing else.
-/

namespace Stepwise

abbrev Eval := Activity Journal

/-- The operations on names that evaluation makes use of. -/
structure Names where
  resolve : String → Eval Value
  isDeclared : String → Eval Bool
  /-- the scope of the variables that belong to a whole function -/
  functionScope : Eval Nat
  declare : String → Value → BindingKind → Option Nat → Eval Unit
  assign : String → Value → Eval Unit
  /-- the visible scopes, kept for a new function -/
  capture : Eval (List Nat)

namespace Names

/-- Names as the visible scopes of the state bind them. -/
def ofScopes : Names where
  resolve name := Engine.resolve name
  isDeclared name := Engine.isDeclared name
  functionScope := do (← get).state.functionScope
  declare name value kind scope := Engine.declare name value kind scope
  assign name value := Engine.assign name value
  capture := Engine.capture

end Names

/-- How a run is carried out: the ceiling of the event loop, whether captured scopes are
forgotten when nothing needs them any more, and how names are found. -/
structure Settings where
  ceiling : Int := 100
  prunes : Bool := true
  names : Names := .ofScopes

/-- Evaluation of the forms that nest. -/
structure Evaluator where
  names : Names
  expr : Expr → Eval Value
  stmt : Stmt → Eval Unit
  /-- the iterations of a loop, with a fresh scope for each or without -/
  loop : (perIteration : Bool) → (condition update : Option Expr) → (body : Stmt) → Eval Unit
  /-- a call with arguments, from a line, under a name that a function without one takes -/
  call : Function → List Value → Int → String → Eval Value

namespace Eval

/-- Notes down a step, with a snapshot of the state. -/
def record (line column : Int) (description : Text) : Eval Unit :=
  modify fun m =>
    { m with journal := { m.journal with
        steps := m.journal.steps ++ [Step.behind m.journal.steps line column description m.state] } }

def recordAt (location : Location) (description : Text) : Eval Unit :=
  record location.startLine location.startColumn description

/-- Notes down that control reached something unsupported. -/
def reportUnsupported (kind : String) (location : Location) : Eval Unit :=
  modify fun m =>
    { m with journal := { m.journal with
        diagnostics := m.journal.diagnostics ++ [.unsupported kind location] } }

/-- Something unsupported is undefined. -/
def unsupported (kind : String) (location : Location) : Eval Value := do
  reportUnsupported kind location
  return .undefined

def getState : Eval State := return (← get).state

def getHeap : Eval Heap := return (← getState).heap

def incomplete {α : Type} : Eval α := throw (.fault .incompleteTree)

/-- Ends at a return, with the value returned. -/
def catchReturn (activity : Eval Value) : Eval Value := fun m =>
  match activity m with
  | .error (.returned value) m => .ok value m
  | result => result

/-- Forgets captured scopes that are not needed, where the settings ask for it. -/
def prune (settings : Settings) : Eval Unit := do
  if settings.prunes then
    let _ ← Engine.prune

/-- Undeclared names that have a value. -/
def constant? (name : String) : Option Value :=
  if name = "undefined" then some .undefined
  else if name = "NaN" then some (.number (.float .nan))
  else if name = "Infinity" then some (.number (.float (.infinite false)))
  else none

def identifier (names : Names) (name : String) : Eval Value := do
  match constant? name with
  | some value => if ← names.isDeclared name then names.resolve name else return value
  | none => names.resolve name

def getProperty (receiver : Value) (key : Text) : Eval Value := do
  (← getHeap).getProperty receiver key

def setProperty (receiver : Value) (key : Text) (value : Value) : Eval Unit :=
  Engine.setProperty receiver key value

/-- Declares every name that the innermost scope does not bind yet, as undefined. -/
def hoist (names : Names) (hoisted : List String) : Eval Unit := do
  let scope ← (← getState).headId
  hoisted.forM fun name => do
    let bound := ((← getState).scope? scope).any (·.bindings.contains name)
    if !bound then names.declare name .undefined .functionScoped none

def declareAs (names : Names) (kind : BindingKind) (name : String) (value : Value) :
    Eval Unit := do
  let scope ← if kind = .functionScoped then some <$> names.functionScope else pure none
  names.declare name value kind scope

/-- The names of a parameter list; what stands at another place than a name is reported. -/
def paramNames : List Param → Eval (List String)
  | [] => return []
  | .name name :: params => return name :: (← paramNames params)
  | .unsupported kind location :: params => do
    reportUnsupported kind location
    paramNames params

/-- A new function that captures the visible scopes. -/
def makeFunction (names : Names) (name : String) (params : List Param) (body : Body) (line : Int) :
    Eval Function := do
  let params ← paramNames params
  let closure ← names.capture
  return ⟨← Engine.freshIdentity, name, params, body, closure, line⟩

/-- A function without a name takes the one that it is declared under, as a new function. -/
def named (name : String) (value : Value) : Eval Value := do
  match value with
  | .function f =>
    if f.isAnonymous then
      return .function { f with name, identity := ← Engine.freshIdentity }
    else return value
  | _ => return value

end Eval

/-- Calls that a run carries out by itself. -/
inductive Builtin where
  | timer
  | fetch
  | console (level : Level)
  | all
  | race
  /-- waiting for whatever promise an expression gives -/
  | chain (object : Expr)

/-- Built-in calls are known by how the callee is written. -/
def Builtin.ofCallee? : Expr → Option Builtin
  | .identifier name =>
    if name = "setTimeout" then some .timer else if name = "fetch" then some .fetch else none
  | .member object property =>
    let owner := match object with
      | .identifier name => name
      | _ => ""
    match if owner = "console" then Level.ofName? property else none with
    | some level => some (.console level)
    | none =>
      if owner = "Promise" && property = "all" then some .all
      else if owner = "Promise" && property = "race" then some .race
      else if property = "then" then some (.chain object)
      else none
  | _ => none

namespace Evaluator

variable (self : Evaluator)

def optional (e : Option Expr) : Eval Value :=
  match e with
  | some e => self.expr e
  | none => return .undefined

def condition (e : Expr) : Eval Bool := do (← self.expr e).truthy

/-- Values of expressions, from left to right. -/
def exprs : List Expr → Eval (List Value)
  | [] => return []
  | e :: es => do
    let v ← self.expr e
    return v :: (← exprs es)

def stmts : List Stmt → Eval Unit
  | [] => return ()
  | s :: ss => do
    self.stmt s
    stmts ss

def part : Part → Eval Text
  | .raw text => return text
  | .escape sequence => Text.decodeEscape sequence
  | .substitution value => do
    let v ← self.optional value
    v.toText (← Eval.getHeap)

/-- The stretches of a literal, one behind the other. -/
def parts : List Part → Eval Text
  | [] => return []
  | p :: ps => do
    let text ← self.part p
    return text ++ (← parts ps)

def logical (op : LogicalOp) (left right : Expr) : Eval Value := do
  let value ← self.expr left
  match op with
  | .and => if ← value.truthy then self.expr right else return value
  | .or => if ← value.truthy then return value else self.expr right
  | .nullish => if value.isNullish then self.expr right else return value

def binary (op : BinaryOp) (left right : Expr) : Eval Value := do
  let a ← self.expr left
  let b ← self.expr right
  op.apply (← Eval.getHeap) a b

/-- Only `typeof` may be asked of a name that nothing declares. -/
def unary (op : UnaryOp) (argument : Expr) : Eval Value := do
  match op, argument with
  | .typeof, .identifier name =>
    if (Eval.constant? name).isNone && !(← self.names.isDeclared name) then
      return .ofString Value.TypeName.undefined.toString
  | _, _ => pure ()
  let value ← self.expr argument
  op.apply (← Eval.getHeap) value

/-- The receiver and the key of a property, each evaluated once. -/
def property (object : Expr) (index : Expr) : Eval (Value × Text) := do
  let receiver ← self.expr object
  return (receiver, (← self.expr index).toKey)

def assignTo (place : Place) (value : Value) : Eval Unit := do
  match place with
  | .name name => self.names.assign name value
  | .member object key => Eval.setProperty (← self.expr object) key value
  | .subscript object index =>
    let (receiver, key) ← self.property object index
    Eval.setProperty receiver key value
  | .unsupported _ kind location => Eval.reportUnsupported kind location
  | .incomplete => Eval.incomplete

/-- The number one above or below. -/
def stepped (increments : Bool) (old : Num) : Except Fault Num :=
  if increments then old.add (.int 1) else old.sub (.int 1)

/-- Changes what is read by `old` and written by `write` by one. -/
def updateBy (increments givesNew : Bool) (old : Value) (write : Value → Eval Unit) :
    Eval Value := do
  let old ← old.toNumber (← Eval.getHeap)
  let new ← stepped increments old
  write (.number new)
  return .number (if givesNew then new else old)

def update (increments givesNew : Bool) (place : Place) : Eval Value := do
  match place with
  | .member object key =>
    let receiver ← self.expr object
    updateBy increments givesNew (← Eval.getProperty receiver key) (Eval.setProperty receiver key)
  | .subscript object index =>
    let (receiver, key) ← self.property object index
    updateBy increments givesNew (← Eval.getProperty receiver key) (Eval.setProperty receiver key)
  | .name name =>
    updateBy increments givesNew (← self.expr (.identifier name)) (self.assignTo place)
  | .unsupported value _ _ =>
    updateBy increments givesNew (← self.expr value) (self.assignTo place)
  | .incomplete => Eval.incomplete

/-- Binds each slot of a pattern to the element at its place. -/
def bindSlots (elements : List Value) (bind : String → Place → Value → Eval Unit) :
    List (Nat × Slot) → Eval Unit
  | [] => return ()
  | (index, slot) :: slots => do
    match slot with
    | .target text place => bind text place (elements.getD index .undefined)
    | .unsupported kind location => Eval.reportUnsupported kind location
    bindSlots elements bind slots

def assignSlots (slots : List (Nat × Slot)) (value : Expr) : Eval Value := do
  let value ← self.expr value
  match (← Eval.getHeap).elements? value with
  | some elements =>
    bindSlots elements (fun _ place item => self.assignTo place item) slots
    return value
  | none => return .undefined

def key : Key → Eval Text
  | .name name => return name
  | .number literal => return literal
  | .string parts => self.parts parts
  | .computed value => return (← self.expr value).toKey

/-- The fields of an object literal; a later property of the same key replaces the value. -/
def members (fields : Dict Text Value) : List Member → Eval (Dict Text Value)
  | [] => return fields
  | .pair key value :: rest => do
    let key ← self.key key
    let value ← self.expr value
    members (fields.set key value) rest
  | .shorthand name :: rest => do
    let value ← self.names.resolve name
    members (fields.set (Text.ofString name) value) rest
  | .unsupported kind location :: rest => do
    Eval.reportUnsupported kind location
    members fields rest

/-- A timer runs its callback later, with the arguments behind the delay. -/
def startTimer (arguments : List Expr) (location : Location) : Eval Value := do
  let values ← self.exprs arguments
  match values with
  | .function f :: rest =>
    let _ ← Engine.schedule .macrotask "setTimeout callback" (.call f (rest.drop 1)) f.line
  | _ => pure ()
  Eval.recordAt location "Scheduled setTimeout"
  return .undefined

def startFetch (arguments : List Expr) (location : Location) : Eval Value := do
  let url ← match ← self.exprs arguments with
    | url :: _ => url.toText (← Eval.getHeap)
    | [] => pure (Text.ofString "undefined")
  return .promise (← Engine.fetch url location.startLine)

/-- A combination of the promises in an array; anything else counts as an empty one. -/
def combine (combination : List Value → Engine Address) (arguments : List Expr) : Eval Value := do
  let values ← self.exprs arguments
  let elements := (values.head?.bind (← Eval.getHeap).elements?).getD []
  return .promise (← combination elements)

/-- Waits for a promise with the handler given; what is no promise is not waited for. -/
def chain (object : Expr) (arguments : List Expr) : Eval Value := do
  match ← self.expr object with
  | .promise address =>
    let values ← self.exprs arguments
    return .promise (← Engine.chain address (values.head?.bind Value.asFunction?))
  | _ => return .undefined

def builtin (b : Builtin) (arguments : List Expr) (location : Location) : Eval Value :=
  match b with
  | .timer => self.startTimer arguments location
  | .fetch => self.startFetch arguments location
  | .console level => do
    let _ ← Engine.say level (← self.exprs arguments)
    return .undefined
  | .all => self.combine Engine.all arguments
  | .race => self.combine Engine.race arguments
  | .chain object => self.chain object arguments

/-- The function called, and the name it is called by. -/
def callee (e : Expr) : Eval (Value × String) := do
  match e with
  | .identifier name => return (← self.names.resolve name, name)
  | e => return (← self.expr e, Function.anonymous)

/-- A call of what is no function is undefined, and its arguments are not evaluated. -/
def callExpr (callee : Expr) (arguments : List Expr) (location : Location) : Eval Value := do
  Eval.recordAt location "Function call"
  match Builtin.ofCallee? callee with
  | some b => self.builtin b arguments location
  | none =>
    match ← self.callee callee with
    | (.function f, name) =>
      let values ← self.exprs arguments
      self.call f values location.startLine name
    | _ => return .undefined

def evalExpr (e : Expr) : Eval Value :=
  match e with
  | .identifier name => Eval.identifier self.names name
  | .number literal => return .number (← Num.ofLiteral literal)
  | .string parts => return .string (← self.parts parts)
  | .boolean value => return .boolean value
  | .null => return .null
  | .undefined => return .undefined
  | .logical op left right => self.logical op left right
  | .binary op left right => self.binary op left right
  | .unsupportedBinary symbol left right location => do
    let _ ← self.expr left
    let _ ← self.expr right
    Eval.unsupported s!"operator {symbol}" location
  | .unary op argument => self.unary op argument
  | .unsupportedUnary symbol argument location => do
    let _ ← self.expr argument
    Eval.unsupported s!"operator {symbol}" location
  | .update increments givesNew place => self.update increments givesNew place
  | .assign place value => do
    let value ← self.expr value
    self.assignTo place value
    return value
  | .assignSlots slots value => self.assignSlots slots value
  | .conditional condition consequence alternative => do
    if ← self.condition condition then self.expr consequence else self.expr alternative
  | .parenthesized inner => self.optional inner
  | .call callee arguments location => self.callExpr callee arguments location
  | .member object key => do Eval.getProperty (← self.expr object) key
  | .subscript object index => do
    let (receiver, key) ← self.property object index
    Eval.getProperty receiver key
  | .array elements => do Engine.newArray (← self.exprs (elements.map Prod.snd))
  | .object members => do Engine.newObject (← self.members Dict.empty members)
  | .function name params body line =>
    return .function (← Eval.makeFunction self.names (name.getD Function.anonymous) params body line)
  | .unsupported kind location => Eval.unsupported kind location
  | .incomplete => Eval.incomplete

def declarator (kind : BindingKind) : Declarator → Eval Unit
  | .mk target initial => do
    let value ← self.optional initial
    match target with
    | .name name => Eval.declareAs self.names kind name (← Eval.named name value)
    | .slots slots =>
      let elements := ((← Eval.getHeap).elements? value).getD []
      bindSlots elements (fun text _ item => Eval.declareAs self.names kind text item) slots
    | .unsupported form location => Eval.reportUnsupported form location
    | .incomplete => Eval.incomplete

def declarators (kind : BindingKind) : List Declarator → Eval Unit
  | [] => return ()
  | d :: ds => do
    self.declarator kind d
    declarators kind ds

/-- An activity in a scope of its own. -/
def inScope (name : String) (activity : Eval Unit) : Eval Unit := do
  let _ ← Engine.pushScope .block name none
  Activity.closing activity do
    let _ ← Engine.popScope

def startLoop (initializer : Initializer) : Eval Unit :=
  match initializer with
  | .none => return ()
  | .expression e => do
    let _ ← self.expr e
  | .declaration _ statement => self.stmt statement

/-- Whether each iteration gets a fresh scope. -/
def isFresh : Initializer → Bool
  | .declaration perIteration _ => perIteration
  | _ => false

/-- Runs the iterations of a loop behind its initializer, in a scope of its own where each
iteration gets a fresh one. -/
def forLoop (initializer : Initializer) (condition update : Option Expr) (body : Stmt) :
    Eval Unit :=
  let activity : Eval Unit := do
    self.startLoop initializer
    self.loop (isFresh initializer) condition update body
  if isFresh initializer then inScope "for" activity else activity

/-- Whether a loop goes on, as it does without a condition. -/
def goesOn (condition : Option Expr) : Eval Bool :=
  match condition with
  | some e => self.condition e
  | none => return true

/-- One iteration of a loop and those after it. -/
def evalLoop (perIteration : Bool) (condition update : Option Expr) (body : Stmt) : Eval Unit := do
  if ← self.goesOn condition then
    self.stmt body
    if perIteration then
      let _ ← Engine.renewScope
    let _ ← self.optional update
    self.loop perIteration condition update body

def conditional (condition : Expr) (consequence : Stmt) (alternative : Option (Option Stmt))
    (location : Location) : Eval Unit := do
  if ← self.condition condition then
    Eval.recordAt location "If condition true"
    self.stmt consequence
  else
    match alternative with
    | none => return ()
    | some branch =>
      Eval.recordAt location "If condition false"
      match branch with
      | some s => self.stmt s
      | none => return ()

/-- Does what the form of a statement asks for. -/
def execute (s : Stmt) : Eval Unit :=
  match s with
  | .expression value location => do
    Eval.recordAt location "Executing expression"
    let _ ← self.optional value
  | .declaration kind ds location => do
    Eval.recordAt location "Declaring variable"
    self.declarators kind ds
  | .function name params body location => do
    Eval.recordAt location s!"Declaring function {name}"
    let f ← Eval.makeFunction self.names name params body location.startLine
    self.names.declare name (.function f) .functionScoped none
  | .returns value location => do
    Eval.recordAt location "Returning value"
    throw (.returned (← self.optional value))
  | .conditional condition consequence alternative location =>
    self.conditional condition consequence alternative location
  | .loop initializer condition update body => self.forLoop initializer condition update body
  | .block statements => inScope "block" (self.stmts statements)
  | .empty | .comment => return ()
  | .unsupported kind location => Eval.reportUnsupported kind location
  | .incomplete => Eval.incomplete

/-- Runs a statement. Outside of calls, captured scopes that are not needed are forgotten
before. -/
def evalStmt (settings : Settings) (s : Stmt) : Eval Unit :=
  match s with
  | .comment => return ()
  | s => do
    if (← Eval.getState).frames.isEmpty then Eval.prune settings
    self.execute s

/-- Binds parameters to arguments by position; a parameter without one is undefined. -/
def bindParams : List String → List Value → Eval Unit
  | [], _ => return ()
  | name :: names, values => do
    self.names.declare name (values.head?.getD .undefined) .blockScoped none
    bindParams names values.tail

def body (b : Body) : Eval Value :=
  match b with
  | .expression value => self.expr value
  | .block hoisted statements => do
    Eval.hoist self.names hoisted
    self.stmts statements
    return .undefined
  | .incomplete => Eval.incomplete

/-- Enters a call: a frame, and a scope whose parent is the innermost captured one. -/
def enter (f : Function) (arguments : List Value) (line : Int) (name : String) : Engine Nat := do
  let depth := (← get).chain.length
  let id ← Engine.freshId
  let frame : Frame := { id, name, line, arguments, depth, closure := f.closure }
  modify fun s => { s with frames := frame :: s.frames }
  let scope ← Engine.pushScope .function name f.closure.head?
  modify fun s => { s with frames := { frame with scope := some scope } :: s.frames.tail }
  return scope

def leave : Engine Unit := do
  let _ ← Engine.popScope
  modify fun s => { s with frames := s.frames.tail }

/-- Keeps the bindings of a scope as the local variables of the innermost call. -/
def keepLocals (scope : Nat) : Engine Unit :=
  modify fun s =>
    { s with frames := match s.frames, s.scope? scope with
      | frame :: frames, some scope => { frame with locals := scope.bindings } :: frames
      | frames, _ => frames }

/-- An activity in a call of its own, which ends when it ends, returns or faults. -/
def inCall (f : Function) (arguments : List Value) (line : Int) (name : String)
    (activity : Nat → Eval Value) : Eval Value := do
  let scope ← enter f arguments line name
  Activity.closing (Eval.catchReturn (activity scope)) leave

/-- Calls a function: its parameters are bound in the scope of the call, and its body runs there. -/
def evalCall (f : Function) (arguments : List Value) (line : Int) (name : String) : Eval Value :=
  inCall f arguments line (if f.isAnonymous && !name.isEmpty then name else f.name) fun scope => do
    self.bindParams f.params arguments
    keepLocals scope
    self.body f.body

/-- The evaluator that takes nested forms to another one. -/
def next (settings : Settings) : Evaluator where
  names := self.names
  expr := self.evalExpr
  stmt := self.evalStmt settings
  loop := self.evalLoop
  call := self.evalCall

/-- The evaluator that does not evaluate anything. -/
def exhausted (names : Names) : Evaluator where
  names := names
  expr _ := throw .exhausted
  stmt _ := throw .exhausted
  loop _ _ _ _ := throw .exhausted
  call _ _ _ _ := throw .exhausted

/-- The evaluator of a depth. Its parts are functions of their machine, so that the evaluator
below is only built when it is needed. -/
def ofDepth (settings : Settings) : Nat → Evaluator
  | 0 => exhausted settings.names
  | n + 1 =>
    { names := settings.names
      expr := fun e m => (ofDepth settings n).evalExpr e m
      stmt := fun s m => (ofDepth settings n).evalStmt settings s m
      loop := fun p c u b m => (ofDepth settings n).evalLoop p c u b m
      call := fun f vs l name m => (ofDepth settings n).evalCall f vs l name m }

end Evaluator

end Stepwise
