import Stepwise.State
/-!
Which captured scopes are still needed. A scope is needed if it is open, if a call in progress
captured it, or if a function captured it that is stored somewhere or bound in a needed scope.
-/

namespace Stepwise

/-- The scopes that the functions among some values captured. -/
def Value.closures (vs : List Value) : List Nat :=
  vs.flatMap fun
    | .function f => f.closure
    | _ => []

namespace Reaction

/-- The handler that a reaction is to call. -/
def handler? : Reaction → Option Function
  | handle handler _ => handler
  | _ => none

def values (r : Reaction) : List Value := (r.handler?.map Value.function).toList

end Reaction

/-- The values that a job holds on to. -/
def Job.values : Job → List Value
  | call f arguments => .function f :: arguments
  | fetched _ _ => []
  | react reaction value => value :: reaction.values

namespace State

def tasks (s : State) : List Task := s.loop.microtasks ++ s.loop.macrotasks ++ s.loop.current.toList

/-- The values that are held outside of captured scopes. -/
def roots (s : State) : List Value :=
  s.openScopes.flatMap (·.bindings.values) ++
  s.frames.flatMap (fun frame => frame.arguments ++ frame.locals.values) ++
  s.heap.values.flatMap (fun cell => cell.fields.values ++ cell.elements) ++
  s.promises.values.flatMap (fun p => p.value?.toList ++ p.slots ++ p.reactions.flatMap Reaction.values) ++
  s.tasks.flatMap (·.job.values)

/-- The scopes captured by functions that are bound in captured scopes among the given ones. -/
def closuresIn (s : State) (live : List Nat) : List Nat :=
  Value.closures ((s.capturedScopes.filter (·.id ∈ live)).flatMap (·.bindings.values))

/-- Adds what the scopes found so far lead to, a bounded number of times. -/
def reach (s : State) : Nat → List Nat → List Nat
  | 0, live => live
  | n + 1, live =>
    match (s.closuresIn live).filter (· ∉ live) with
    | [] => live
    | found => reach s n (live ++ found)

/-- The scopes that are needed. Every round but the last adds a captured scope that leads
further. -/
def needed (s : State) : List Nat :=
  s.reach (s.captured.length + 1)
    (s.chain ++ s.frames.flatMap (·.closure) ++ Value.closures s.roots)

/-- Forgets the captured scopes that are not needed. -/
def prune (s : State) : State :=
  let needed := s.needed
  { s with captured := s.captured.filter (· ∈ needed) }

end State

/-- Forgets the captured scopes that are not needed, and counts them. -/
def Engine.prune : Engine Nat :=
  modifyGet fun s => (s.captured.length - s.prune.captured.length, s.prune)

end Stepwise
