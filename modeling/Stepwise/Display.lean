import Stepwise.Json
import Stepwise.Value.Conversion
/-!
How values and console messages are shown to a reader. What is stored is shown as JSON, unless it
reaches itself.
-/

namespace Stepwise

namespace Num

/-- Integral doubles are written as integers; nan and the infinities are left out. -/
def toJson : Num → Json
  | int i => .number (.int i)
  | float x =>
    if x.isFinite then
      match x.toInt? with
      | some i => .number (.int i)
      | none => .number (.float x)
    else .null

end Num

namespace Value

/-- Whether an object shows a field with this value. -/
def isShown : Value → Bool
  | undefined | function _ => false
  | _ => true

/-- The JSON of a value, entered to a bounded depth; none where an address is met again on the way
to itself. -/
def toJsonWithin (heap : Heap) : Nat → List Address → Value → Option Json
  | 0, _, _ => none
  | depth + 1, path, v =>
    match v with
    | undefined | null | function _ | promise _ => some .null
    | boolean b => some (.boolean b)
    | number n => some n.toJson
    | string t => some (.string t)
    | object address =>
      if address ∈ path then none
      else
        match heap.get? address with
        | none => some .null
        | some cell =>
          if cell.isArray then
            (cell.elements.mapM (toJsonWithin heap depth (address :: path))).map Json.array
          else
            ((cell.fields.entries.filter (·.2.isShown)).mapM fun field =>
              (toJsonWithin heap depth (address :: path) field.2).map (field.1, ·)).map Json.object

/-- The JSON of a value. A path without repetition is no longer than the heap. -/
def toJson? (heap : Heap) (v : Value) : Option Json := v.toJsonWithin heap (heap.size + 2) []

/-- What is stored behind a value, as JSON text. -/
def structureText (heap : Heap) (v : Value) : Text :=
  match v.toJson? heap with
  | some json => json.compact false
  | none => "[Circular Object]"

/-- A value as a state panel shows it: strings in quotes, arrays by their length only. -/
def toPanel (heap : Heap) (v : Value) : Text :=
  match v with
  | undefined | null | boolean _ | number _ => v.plainText
  | string t => Text.ofString "\"" ++ t ++ Text.ofString "\""
  | function f => Text.ofString "[Function: " ++ Text.ofString f.name ++ Text.ofString "]"
  | promise _ => "[Promise]"
  | object _ =>
    match heap.elements? v with
    | some elements =>
      Text.ofString "[Array(" ++ Text.ofNat elements.length ++ Text.ofString ")]"
    | none => v.structureText heap

/-- A value as an argument on the console: strings bare, everything stored as JSON. -/
def toConsole (heap : Heap) (v : Value) : Text :=
  match v with
  | string t => t
  | object _ => v.structureText heap
  | _ => v.toPanel heap

end Value

/-- The levels of console output. -/
inductive Level where
  | log | info | warn | error
  deriving DecidableEq, Repr

namespace Level

def name : Level → String
  | log => "log" | info => "info" | warn => "warn" | error => "error"

def ofName? (s : String) : Option Level := [log, info, warn, error].find? (·.name == s)

end Level

structure Message where
  id : Nat
  level : Level
  content : List Value

namespace Message

/-- The arguments with a blank between them, behind the level if that is not the plain one. -/
def toText (heap : Heap) (m : Message) : Text :=
  let body := Text.join " " (m.content.map (·.toConsole heap))
  if m.level = .log then body
  else Text.ofString "[" ++ Text.ofString m.level.name ++ Text.ofString "] " ++ body

end Message

end Stepwise
