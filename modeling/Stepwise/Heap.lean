import Stepwise.Dict
import Stepwise.Value
/-!
The heap: arrays and objects by address. An array has numbered elements and, like an object,
named fields.
-/

namespace Stepwise

/-- A stored array or object, with the number of bindings counted for it. -/
structure Cell where
  isArray : Bool
  elements : List Value := []
  fields : Dict Text Value := ∅
  references : Nat := 0

abbrev Heap := Dict Address Cell

namespace Heap

/-- Changes the cell at an address, if there is one. -/
def update (heap : Heap) (address : Address) (f : Cell → Cell) : Heap := heap.modify address f

/-- Counts one more binding of a value. -/
def retain (heap : Heap) : Value → Heap
  | .object address => heap.update address fun cell => { cell with references := cell.references + 1 }
  | _ => heap

/-- Counts one binding of a value less, down to none. -/
def release (heap : Heap) : Value → Heap
  | .object address => heap.update address fun cell => { cell with references := cell.references - 1 }
  | _ => heap

/-- Puts in a cell and counts its contents as bound. -/
def store (heap : Heap) (address : Address) (cell : Cell) (contents : List Value) : Heap :=
  contents.foldl retain (heap.set address cell)

/-- The elements of an array; other values have none. -/
def elements? (heap : Heap) : Value → Option (List Value)
  | .object address =>
    (heap.get? address).bind fun cell => if cell.isArray then some cell.elements else none
  | _ => none

end Heap

/-- The index that a key of digits denotes; other keys denote none. -/
def arrayIndex? (key : Text) : Except Fault (Option Nat) :=
  if Text.isDigits key then
    match Numeral.integer? key with
    | some i => .ok (some i.toNat)
    | none => .error (.malformedIndex key)
  else .ok none

namespace Cell

def lengthKey : Text := "length"

/-- What is read under a key: an array has a length and elements, and everything has fields. -/
def read (cell : Cell) (key : Text) : Except Fault Value := do
  let field := (cell.fields.get? key).getD .undefined
  if cell.isArray then
    if key = lengthKey then return .ofInt cell.elements.length
    match ← arrayIndex? key with
    | some index => return cell.elements.getD index .undefined
    | none => return field
  else return field

end Cell

/-- What is read from a text: its length, and its code points by index. -/
def Text.read (t : Text) (key : Text) : Except Fault Value := do
  if key = Cell.lengthKey then return .ofInt t.length
  match ← arrayIndex? key with
  | some index => return match t[index]? with
    | some p => .string [p]
    | none => .undefined
  | none => return .undefined

namespace Heap

/-- The text by which a fault names an empty value. -/
def nullishName : Value → Text
  | .null => "null"
  | _ => "undefined"

/-- Reads a property. Only undefined and null refuse; values without properties have undefined
ones. -/
def getProperty (heap : Heap) (receiver : Value) (key : Text) : Except Fault Value :=
  match receiver with
  | .undefined | .null => .error (.unreadable (nullishName receiver) key)
  | .string t => t.read key
  | .object address => match heap.get? address with
    | some cell => cell.read key
    | none => .ok .undefined
  | _ => .ok .undefined

/-- Writes an element, after filling an array up to it. -/
def setElement (heap : Heap) (address : Address) (cell : Cell) (index : Nat) (value : Value) : Heap :=
  let elements := cell.elements ++ List.replicate (index + 1 - cell.elements.length) .undefined
  ((heap.release (elements.getD index .undefined)).update address
    fun cell => { cell with elements := elements.set index value }).retain value

def setField (heap : Heap) (address : Address) (cell : Cell) (key : Text) (value : Value) : Heap :=
  ((heap.release ((cell.fields.get? key).getD .undefined)).update address
    fun cell => { cell with fields := cell.fields.set key value }).retain value

/-- Writes a property. Only undefined and null refuse; values without properties ignore it. -/
def setProperty (heap : Heap) (receiver : Value) (key : Text) (value : Value) : Except Fault Heap :=
  match receiver with
  | .undefined | .null => .error (.unwritable (nullishName receiver) key)
  | .object address => match heap.get? address with
    | some cell => do
      match ← if cell.isArray then arrayIndex? key else .ok none with
      | some index => return heap.setElement address cell index value
      | none => return heap.setField address cell key value
    | none => .ok heap
  | _ => .ok heap

end Heap

end Stepwise
