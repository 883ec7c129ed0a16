import Stepwise.Value.Conversion
/-!
Equality, order and the operators, with the conversions of their operands.
-/

namespace Stepwise

/-- The order of texts, by their first different code points. -/
def Text.order : Text → Text → Ordering
  | [], [] => .eq
  | [], _ :: _ => .lt
  | _ :: _, [] => .gt
  | p :: t, q :: u => (compare p q).then (Text.order t u)

namespace Value

/-- Equality without conversion. Functions are compared by identity, stored values by address. -/
def strictEquals : Value → Value → Bool
  | undefined, undefined => true
  | null, null => true
  | boolean a, boolean b => a == b
  | number a, number b => a.equal b
  | string a, string b => a == b
  | function f, function g => f.identity == g.identity
  | object a, object b => a == b
  | promise a, promise b => a == b
  | _, _ => false

def isBoolean : Value → Bool
  | boolean _ => true
  | _ => false

/-- Equality of values of different types. A boolean makes numbers of both, without a look at what
is stored; otherwise both become primitive, and a number and a text are compared as numbers. -/
def convertedEquals (heap : Heap) (a b : Value) : Except Fault Bool := do
  if a.isBoolean || b.isBoolean then
    return (← a.toNumber ∅).equal (← b.toNumber ∅)
  match ← a.toPrimitive heap, ← b.toPrimitive heap with
  | number x, string t => return x.equal (.ofText t)
  | string t, number y => return (Num.ofText t).equal y
  | a, b => return strictEquals a b

/-- Equality with conversion. Undefined and null equal each other and nothing else. -/
def looseEquals (heap : Heap) (a b : Value) : Except Fault Bool :=
  if a.isNullish || b.isNullish then .ok (a.isNullish && b.isNullish)
  else if a.typeOf = b.typeOf then .ok (strictEquals a b)
  else convertedEquals heap a b

/-- How two values are ordered: texts as texts, all else as numbers. A nan has no order, and an
integer too large to be tested for being one fails. -/
def order? (heap : Heap) (a b : Value) : Except Fault (Option Ordering) :=
  match a, b with
  | string t, string u => .ok (some (t.order u))
  | a, b => do
    let x ← a.toNumber heap
    let y ← b.toNumber heap
    if ← x.checkNaN then return none
    if ← y.checkNaN then return none
    return x.compare? y

/-- Joins texts if one operand is a text or becomes one, and adds numbers otherwise. -/
def add (heap : Heap) (a b : Value) : Except Fault Value := do
  let a ← a.toPrimitive heap
  let b ← b.toPrimitive heap
  match a, b with
  | string t, b => return string (t ++ b.plainText)
  | a, string u => return string (a.plainText ++ u)
  | a, b => return number (← (← a.toNumber heap).add (← b.toNumber heap))

end Value

namespace BinaryOp

open Value

/-- An operation on the numbers of two values. -/
def numeric (f : Num → Num → Except Fault Num) (heap : Heap) (a b : Value) : Except Fault Value :=
  do return number (← f (← a.toNumber heap) (← b.toNumber heap))

/-- A comparison, false of values without an order. -/
def comparison (test : Ordering → Bool) (heap : Heap) (a b : Value) : Except Fault Value := do
  return boolean ((← order? heap a b).any test)

def apply (op : BinaryOp) (heap : Heap) (a b : Value) : Except Fault Value :=
  match op with
  | .add => Value.add heap a b
  | .sub => numeric Num.sub heap a b
  | .mul => numeric Num.mul heap a b
  | .div => numeric Num.div heap a b
  | .rem => numeric Num.rem heap a b
  | .looseEq => do return boolean (← looseEquals heap a b)
  | .looseNe => do return boolean !(← looseEquals heap a b)
  | .strictEq => .ok (boolean (strictEquals a b))
  | .strictNe => .ok (boolean !(strictEquals a b))
  | .lt => comparison Ordering.isLT heap a b
  | .le => comparison Ordering.isLE heap a b
  | .gt => comparison Ordering.isGT heap a b
  | .ge => comparison Ordering.isGE heap a b

end BinaryOp

namespace UnaryOp

open Value

def apply (op : UnaryOp) (heap : Heap) (v : Value) : Except Fault Value :=
  match op with
  | .not => do return boolean !(← v.truthy)
  | .minus => do return number (← v.toNumber heap).neg
  | .plus => do return number (← v.toNumber heap)
  | .typeof => .ok (ofString v.typeOf.toString)
  | .void => .ok undefined

end UnaryOp

end Stepwise
