import Stepwise.Display
/-!
The state of a run: everything that a step's snapshot keeps. Identifiers of frames, scopes, tasks
and messages and the numbers in addresses come from one counter.
-/

namespace Stepwise

inductive ScopeKind where
  | global | function | block | module
  deriving DecidableEq, Repr

namespace ScopeKind

def name : ScopeKind → String
  | global => "global" | function => "function" | block => "block" | module => "module"

def ofName? (s : String) : Option ScopeKind := [global, function, block, module].find? (·.name == s)

end ScopeKind

structure Scope where
  id : Nat
  kind : ScopeKind
  name : String
  bindings : Dict String Value := ∅
  parent : Option Nat

/-- A call in progress. -/
structure Frame where
  id : Nat
  name : String
  line : Int
  arguments : List Value
  /-- the bindings of the parameters at entry -/
  locals : Dict String Value := ∅
  scope : Option Nat := none
  /-- how many scopes were open when the call was entered -/
  depth : Nat
  /-- the scopes captured by the function, innermost first -/
  closure : List Nat

/-- What waits for a promise. -/
inductive Reaction where
  /-- calls a handler and settles a derived promise with its result -/
  | handle (handler : Option Function) (derived : Address)
  /-- fills one slot of an aggregate of all -/
  | collect (aggregate : Address) (index : Nat)
  /-- settles an aggregate that takes the first value -/
  | race (aggregate : Address)
  /-- settles a promise with the value of another one that a handler returned -/
  | adopt (target : Address)

/-- A promise, pending until it has a value. -/
structure Promise where
  value? : Option Value := none
  reactions : List Reaction := []
  /-- the values gathered so far by an aggregate of all, and how many are still to come -/
  slots : List Value := []
  remaining : Nat := 0

inductive TaskKind where
  | microtask | macrotask
  deriving DecidableEq, Repr

def TaskKind.name : TaskKind → String
  | microtask => "micro" | macrotask => "macro"

/-- What a task does when its turn comes. -/
inductive Job where
  | call (function : Function) (arguments : List Value)
  | fetched (promise : Address) (url : Text)
  | react (reaction : Reaction) (value : Value)

structure Task where
  id : Nat
  kind : TaskKind
  description : Text
  job : Job
  /-- its place among all tasks ever scheduled -/
  order : Nat
  line : Int

/-- The queues of deferred work, oldest task first, and the counts of a drain. -/
structure EventLoop where
  microtasks : List Task := []
  macrotasks : List Task := []
  current : Option Task := none
  scheduled : Nat := 0
  executed : Nat := 0
  truncated : Bool := false

def EventLoop.isIdle (loop : EventLoop) : Bool := loop.microtasks.isEmpty && loop.macrotasks.isEmpty

/-- One declaration, as it was when it happened. -/
structure VariableRecord where
  name : String
  value : Value
  scope : Nat
  isConstant : Bool
  isBlockScoped : Bool

structure State where
  /-- calls in progress, innermost first -/
  frames : List Frame := []
  /-- open scopes, innermost first -/
  chain : List Nat := []
  /-- every scope ever opened, newest first -/
  scopes : List Scope := []
  /-- scopes kept for functions, in the order of their first capture -/
  captured : List Nat := []
  heap : Heap := Dict.empty
  promises : Dict Address Promise := Dict.empty
  declared : List VariableRecord := []
  loop : EventLoop := {}
  console : List Message := []
  step : Nat := 0
  lastId : Nat := 0
  /-- the last identity given to a function; no part of what is shown -/
  lastIdentity : Nat := 0

/-- Operations on the state that may fail; what was done before a failure stays done. -/
abbrev Engine := EStateM Fault State

namespace State

def scope? (s : State) (id : Nat) : Option Scope := s.scopes.find? (·.id == id)

/-- The open scopes, innermost first. -/
def openScopes (s : State) : List Scope := s.chain.filterMap s.scope?

def capturedScopes (s : State) : List Scope := s.captured.filterMap s.scope?

def updateScope (s : State) (id : Nat) (f : Scope → Scope) : State :=
  { s with scopes := s.scopes.map fun scope => if scope.id = id then f scope else scope }

def retain (s : State) (v : Value) : State := { s with heap := s.heap.retain v }

def release (s : State) (v : Value) : State := { s with heap := s.heap.release v }

end State

namespace Engine

def freshId : Engine Nat :=
  modifyGet fun s => (s.lastId + 1, { s with lastId := s.lastId + 1 })

def freshIdentity : Engine Nat :=
  modifyGet fun s => (s.lastIdentity + 1, { s with lastIdentity := s.lastIdentity + 1 })

/-- Stores a new array and counts its elements as bound. -/
def newArray (elements : List Value) : Engine Value := do
  let address := Address.array (← freshId)
  modify fun s => { s with heap := s.heap.store address { isArray := true, elements } elements }
  return .object address

/-- Stores a new object and counts its field values as bound. -/
def newObject (fields : Dict Text Value) : Engine Value := do
  let address := Address.object (← freshId)
  modify fun s => { s with heap := s.heap.store address { isArray := false, fields } fields.values }
  return .object address

/-- Writes a message to the console. -/
def say (level : Level) (content : List Value) : Engine Message := do
  let message : Message := ⟨← freshId, level, content⟩
  modify fun s => { s with console := s.console ++ [message] }
  return message

end Engine

end Stepwise
