import Stepwise.Run.EventLoop
/-!
Promises. A promise is settled once, with a value; settling makes a microtask of each reaction
that waited for it, in the order of registration, and later reactions become microtasks at once.
-/

namespace Stepwise

namespace Reaction

def description : Reaction → Text
  | handle _ _ => "Promise.then callback"
  | collect _ _ => "Promise.all element"
  | race _ => "Promise.race element"
  | adopt _ => "Promise adoption"

end Reaction

namespace Engine

def createPromise : Engine Address := do
  let address := Address.promise (← freshId)
  modify fun s => { s with promises := s.promises.set address {} }
  return address

def promise (address : Address) : Engine Promise := do
  match (← get).promises.get? address with
  | some p => return p
  | none => throw (.unknownPromise address.toText)

def modifyPromise (address : Address) (f : Promise → Promise) : Engine Unit :=
  modify fun s => { s with promises := s.promises.modify address f }

def scheduleReaction (value : Value) (reaction : Reaction) : Engine Unit := do
  let _ ← schedule .microtask reaction.description (.react reaction value) 0

/-- Settles a promise; one that is settled already stays as it is. -/
def settle (address : Address) (value : Value) : Engine Unit := do
  let p ← promise address
  if p.value?.isNone then
    modifyPromise address fun p => { p with value? := some value, reactions := [] }
    modify (·.retain value)
    p.reactions.forM (scheduleReaction value)

/-- Lets a reaction wait for a promise. -/
def subscribe (address : Address) (reaction : Reaction) : Engine Unit := do
  match (← promise address).value? with
  | some value => scheduleReaction value reaction
  | none => modifyPromise address fun p => { p with reactions := p.reactions ++ [reaction] }

/-- The promise of what a handler makes of a promise's value. -/
def chain (address : Address) (handler : Option Function) : Engine Address := do
  let derived ← createPromise
  subscribe address (.handle handler derived)
  return derived

/-- Fills one slot of an aggregate. -/
def fillSlot (aggregate : Address) (index : Nat) (value : Value) : Engine Unit :=
  modifyPromise aggregate fun p =>
    { p with slots := p.slots.set index value, remaining := p.remaining - 1 }

/-- Settles an aggregate whose slots are all filled with a new array of them. -/
def settleIfFull (aggregate : Address) : Engine Unit := do
  let p ← promise aggregate
  if p.remaining = 0 then settle aggregate (← newArray p.slots)

/-- Fills the slots of plain values and settled promises, and waits for the others. -/
def collectFrom (aggregate : Address) : Nat → List Value → Engine Unit
  | _, [] => pure ()
  | index, v :: vs => do
    match v with
    | .promise member =>
      match (← promise member).value? with
      | some value => fillSlot aggregate index value
      | none => modifyPromise member fun p =>
          { p with reactions := p.reactions ++ [.collect aggregate index] }
    | value => fillSlot aggregate index value
    collectFrom aggregate (index + 1) vs

/-- The promise of an array of all values. -/
def all (values : List Value) : Engine Address := do
  let aggregate ← createPromise
  modifyPromise aggregate fun p =>
    { p with slots := List.replicate values.length .null, remaining := values.length }
  collectFrom aggregate 0 values
  settleIfFull aggregate
  return aggregate

def raceFrom (aggregate : Address) : List Value → Engine Unit
  | [] => pure ()
  | v :: vs => do
    match v with
    | .promise member =>
      match (← promise member).value? with
      | some value => settle aggregate value
      | none => modifyPromise member fun p =>
          { p with reactions := p.reactions ++ [.race aggregate] }
    | value => settle aggregate value
    raceFrom aggregate vs

/-- The promise of the first value to arrive. -/
def race (values : List Value) : Engine Address := do
  let aggregate ← createPromise
  raceFrom aggregate values
  return aggregate

/-- The promise of a response, which a macrotask brings. -/
def fetch (url : Text) (line : Int) : Engine Address := do
  let address ← createPromise
  let _ ← schedule .macrotask (Text.ofString "Fetch response from " ++ url) (.fetched address url) line
  return address

/-- The status of every response. -/
def okStatus : Int := 200

def completeFetch (address : Address) (url : Text) : Engine Unit := do
  let response ← newObject
    (Dict.ofList [(Text.ofString "status", .ofInt okStatus), (Text.ofString "url", .string url)])
  settle address response

/-- Fills one slot of an aggregate, and settles it if that was the last one. -/
def gather (aggregate : Address) (index : Nat) (value : Value) : Engine Unit := do
  let _ ← promise aggregate
  fillSlot aggregate index value
  settleIfFull aggregate

/-- Settles a derived promise with a handler's result, after the promise that it may be. -/
def conclude (derived : Address) (result : Value) : Engine Unit :=
  match result with
  | .promise p => subscribe p (.adopt derived)
  | result => settle derived result

end Engine

namespace Activity

variable {ω : Type}

/-- Carries out a reaction to a value. A handler is called with it, and without a handler the value
is passed on. -/
def runReaction (invoke : Function → List Value → Activity ω Value) (reaction : Reaction)
    (value : Value) : Activity ω Unit :=
  match reaction with
  | .handle handler derived => do
    let result ← match handler with
      | some f => invoke f [value]
      | none => pure value
    Engine.conclude derived result
  | .collect aggregate index => Engine.gather aggregate index value
  | .race target | .adopt target => Engine.settle target value

end Activity

end Stepwise
