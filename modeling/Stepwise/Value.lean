import Stepwise.Number
import Stepwise.Program
/-!
Values of a traced program. Arrays and objects live in the heap and promises in their own store;
a value holds only their addresses.
-/

namespace Stepwise

/-- Where something is stored. Addresses that a run hands out are numbered; others are labels
from outside. -/
inductive Address where
  | array (id : Nat)
  | object (id : Nat)
  | promise (id : Nat)
  | label (name : Text)
  deriving DecidableEq, Repr

namespace Address

def toText : Address → Text
  | array id => s!"arr_{id}"
  | object id => s!"obj_{id}"
  | promise id => s!"promise_{id}"
  | label name => name

/-- The number that a text is the numeral of. -/
def number? (t : Text) : Option Nat := do
  let n ← t.foldlM (fun n p => (Numeral.digitValue? (Char.ofNat p.val)).bind fun d =>
    if d < 10 then some (n * 10 + d) else none) 0
  if Text.ofNat n = t then some n else none

def ofText (t : Text) : Address :=
  let behind? (front : String) : Option Nat :=
    let front := Text.ofString front
    if front.isPrefixOf t then number? (t.drop front.length) else none
  match behind? "arr_", behind? "obj_", behind? "promise_" with
  | some id, _, _ => array id
  | none, some id, _ => object id
  | none, none, some id => promise id
  | none, none, none => label t

end Address

/-- A function with the scopes it captured. Two functions with the same identity are one. -/
structure Function where
  identity : Nat
  name : String
  params : List String
  body : Body
  /-- the captured scopes, innermost first -/
  closure : List Nat
  line : Int

namespace Function

/-- The name of a function that has none. -/
def anonymous : String := "anonymous"

def isAnonymous (f : Function) : Bool := f.name == anonymous

end Function

inductive Value where
  | undefined
  | null
  | boolean (b : Bool)
  | number (n : Num)
  | string (t : Text)
  | function (f : Function)
  | object (address : Address)
  | promise (address : Address)

namespace Value

instance : Inhabited Value := ⟨undefined⟩

def ofInt (i : Int) : Value := number (.int i)

def ofString (s : String) : Value := string (Text.ofString s)

def isNumber : Value → Bool
  | number _ => true
  | _ => false

def isNullish : Value → Bool
  | undefined | null => true
  | _ => false

def asFunction? : Value → Option Function
  | function f => some f
  | _ => none

/-- The types that a program can tell apart by name. -/
inductive TypeName where
  | undefined | boolean | number | string | function | object
  deriving DecidableEq, Repr

def TypeName.toString : TypeName → String
  | undefined => "undefined"
  | boolean => "boolean"
  | number => "number"
  | string => "string"
  | function => "function"
  | object => "object"

def typeOf : Value → TypeName
  | undefined => .undefined
  | null => .object
  | boolean _ => .boolean
  | number _ => .number
  | string _ => .string
  | function _ => .function
  | object _ => .object
  | promise _ => .object

/-- Everything is true except the empty values, zero and nan. -/
def truthy : Value → Except Fault Bool
  | undefined | null => .ok false
  | boolean b => .ok b
  | number n => if n.isZero then .ok false else return !(← n.checkNaN)
  | string t => .ok !t.isEmpty
  | function _ | object _ | promise _ => .ok true

end Value

end Stepwise
