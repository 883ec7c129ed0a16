import Stepwise.Heap
/-!
Conversions of values to texts and numbers. An array is the texts of its elements with commas
between them; one that contains itself has no text.
-/

namespace Stepwise

namespace Value

/-- The text of a value by itself, without what is stored behind an address. -/
def plainText : Value → Text
  | undefined => "undefined"
  | null => "null"
  | boolean b => if b then "true" else "false"
  | number n => n.toText
  | string t => t
  | function f =>
    Text.ofString "function " ++ Text.ofString f.name ++ Text.ofString "() \x7b [code] \x7d"
  | object _ => "[object Object]"
  | promise _ => "[object Promise]"

/-- The property that a value names as a subscript. -/
def toKey (v : Value) : Text := v.plainText

/-- The text of a value, arrays inside arrays being entered to a bounded depth. -/
def toTextWithin (heap : Heap) : Nat → Value → Option Text
  | 0, _ => none
  | depth + 1, v =>
    match heap.elements? v with
    | some elements =>
      (elements.mapM fun e : Value => if e.isNullish then some [] else toTextWithin heap depth e).map
        (Text.join ",")
    | none => some v.plainText

end Value

/-- The number of arrays. -/
def Heap.arrayCount (heap : Heap) : Nat := (heap.values.filter (·.isArray)).length

namespace Value

/-- The text of a value, where it has one: a path through more arrays than there are meets one of
them twice. -/
def toText? (heap : Heap) (v : Value) : Option Text := v.toTextWithin heap (heap.arrayCount + 1)

def toText (heap : Heap) (v : Value) : Except Fault Text :=
  match v.toText? heap with
  | some t => .ok t
  | none => .error .endlessText

/-- The number of a value; arrays and objects go through their texts. -/
def toNumber (heap : Heap) : Value → Except Fault Num
  | undefined => .ok (.float .nan)
  | null => .ok (.int 0)
  | boolean b => .ok (.int (if b then 1 else 0))
  | number n => .ok n
  | string t => .ok (.ofText t)
  | function _ | promise _ => .ok (.float .nan)
  | object a => do return .ofText (← (object a).toText heap)

/-- A value without parts: stored values and functions become their texts. -/
def toPrimitive (heap : Heap) (v : Value) : Except Fault Value :=
  match v with
  | function _ | object _ | promise _ => do return string (← v.toText heap)
  | _ => .ok v

end Value

end Stepwise
