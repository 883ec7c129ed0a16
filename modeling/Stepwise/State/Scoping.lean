import Stepwise.State
/-!
Names and scopes. Inside a call the scopes opened since its entry are visible and then the scopes
that the function captured; outside of calls all open scopes are.
-/

namespace Stepwise

namespace State

/-- The outermost open scope. -/
def globalId? (s : State) : Option Nat := s.chain.getLast?

/-- The scopes opened since a call was entered. Should more have been open then than are now, as
many scopes at the outer end do not count as there are missing. -/
def ownIds (s : State) (frame : Frame) : List Nat :=
  let open_ := s.chain.length
  s.chain.take (if frame.depth ≤ open_ then open_ - frame.depth else open_ - (frame.depth - open_))

/-- The scopes in which a name is looked up, innermost first. -/
def visibleIds (s : State) : Except Fault (List Nat) :=
  match s.frames with
  | [] => .ok s.chain
  | frame :: _ =>
    match s.globalId? with
    | some globalId =>
      .ok (s.ownIds frame ++ frame.closure.filter fun id => id = globalId || id ∈ s.captured)
    | none => if frame.closure.isEmpty then .ok [] else .error .emptyChain

def visible (s : State) : Except Fault (List Scope) :=
  return (← s.visibleIds).filterMap s.scope?

/-- The innermost visible scope that binds a name. -/
def binder? (s : State) (name : String) : Except Fault (Option Scope) :=
  return (← s.visible).find? (·.bindings.contains name)

def isDeclared (s : State) (name : String) : Except Fault Bool := return (← s.binder? name).isSome

def resolve (s : State) (name : String) : Except Fault Value := do
  match (← s.binder? name).bind (·.bindings.get? name) with
  | some v => return v
  | none => throw (.unresolved name)

def headId (s : State) : Except Fault Nat :=
  match s.chain with
  | id :: _ => .ok id
  | [] => .error .emptyChain

/-- The innermost visible scope of a function, or the global one. -/
def functionScope (s : State) : Except Fault Nat := do
  match (← s.visible).find? fun scope => scope.kind = .function || scope.kind = .global with
  | some scope => return scope.id
  | none => throw .noFunctionScope

/-- Binds a name in a scope: the value bound before is released, the new one retained. -/
def bind (s : State) (scope : Scope) (name : String) (value : Value) : State :=
  let released := match scope.bindings.get? name with
    | some old => s.release old
    | none => s
  (released.updateScope scope.id fun scope =>
    { scope with bindings := scope.bindings.set name value }).retain value

def recordVariable (s : State) (name : String) (value : Value) (kind : BindingKind) (scope : Nat) :
    State :=
  let record : VariableRecord :=
    ⟨name, value, scope, kind = .constant, kind = .blockScoped⟩
  { s with declared := s.declared ++ [record] }

end State

namespace Engine

instance : MonadLift (Except Fault) Engine where
  monadLift
    | .ok a => pure a
    | .error f => throw f

def setProperty (receiver : Value) (key : Text) (value : Value) : Engine Unit := do
  let heap ← (← get).heap.setProperty receiver key value
  modify fun s => { s with heap }

def resolve (name : String) : Engine Value := do (← get).resolve name

def isDeclared (name : String) : Engine Bool := do (← get).isDeclared name

/-- Opens a scope. Without a parent of its own its parent is the innermost open scope. -/
def pushScope (kind : ScopeKind) (name : String) (parent : Option Nat) : Engine Nat := do
  let parent := parent.or (← get).chain.head?
  let id ← freshId
  modify fun s =>
    { s with chain := id :: s.chain, scopes := { id, kind, name, parent } :: s.scopes }
  return id

/-- Closes the innermost scope; the global one stays open. -/
def popScope : Engine Nat := do
  match (← get).chain with
  | id :: outer :: rest =>
    modify fun s => { s with chain := outer :: rest }
    return id
  | _ => throw .popOfGlobalScope

/-- Replaces the innermost scope by a fresh one with the same bindings. What captured the old scope
keeps it. -/
def renewScope : Engine Nat := do
  let id ← popScope
  match (← get).scope? id with
  | some old =>
    let fresh ← pushScope old.kind old.name old.parent
    modify fun s => s.updateScope fresh fun scope => { scope with bindings := old.bindings }
    return fresh
  | none => throw .emptyChain

def globalScopeName : String := "Global"

/-- The global scope, opened now if no scope is open. -/
def ensureGlobal : Engine Nat := do
  match (← get).globalId? with
  | some id => return id
  | none => pushScope .global globalScopeName none

/-- Declares a name in a scope, or in the innermost one. -/
def declare (name : String) (value : Value) (kind : BindingKind) (scope : Option Nat) :
    Engine Unit := do
  let s ← get
  let id ← match scope with
    | some id => pure id
    | none => s.headId
  match s.scope? id with
  | some scope => set ((s.bind scope name value).recordVariable name value kind id)
  | none => throw .emptyChain

/-- Assigns to the innermost visible binding of a name; without one the name is declared in the
innermost scope. -/
def assign (name : String) (value : Value) : Engine Unit := do
  let s ← get
  match ← s.binder? name with
  | some scope => set (s.bind scope name value)
  | none => declare name value .blockScoped none

/-- The visible scopes, kept from now on for the function that captures them. -/
def capture : Engine (List Nat) := do
  let s ← get
  match s.globalId? with
  | none => throw .emptyChain
  | some globalId =>
    let ids ← s.visibleIds
    let captured := ids.foldl
      (fun captured id => if id = globalId || id ∈ captured then captured else captured ++ [id])
      s.captured
    set { s with captured }
    return ids

end Engine

end Stepwise
