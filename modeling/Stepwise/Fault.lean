import Stepwise.Text.Quoted
/-!
What can go wrong while a program runs: the causes, and in one place their wording.
-/

namespace Stepwise

inductive Fault where
  /-- a name that no visible scope declares is read -/
  | unresolved (name : String)
  /-- a property of undefined or null is read -/
  | unreadable (receiver key : Text)
  /-- a property of undefined or null is written -/
  | unwritable (receiver key : Text)
  /-- an integer that no double can hold meets one -/
  | integerTooLarge
  | quotientTooLarge
  | malformedNumber (literal : Text)
  | malformedHexadecimal (digits : Text)
  /-- a key made of digits that form no decimal numeral -/
  | malformedIndex (key : Text)
  | noSuchCodePoint
  | codePointTooLarge
  | popOfGlobalScope
  /-- there is no scope to act on -/
  | emptyChain
  | noFunctionScope
  | unknownPromise (label : Text)
  /-- an array that contains itself is to be written out -/
  | endlessText
  /-- a fault that a task brings along -/
  | foreign (category : String) (message : Text)
  /-- a tree lacks a part that its kind promises -/
  | incompleteTree
  deriving DecidableEq, Repr

namespace Fault

/-- The class under which a fault is reported. Faults of the program itself carry their own. -/
def category? : Fault → Option String
  | unresolved _ | unreadable _ _ | unwritable _ _ => none
  | integerTooLarge | quotientTooLarge | codePointTooLarge => some "OverflowError"
  | malformedNumber _ | malformedHexadecimal _ | malformedIndex _ | noSuchCodePoint => some "ValueError"
  | popOfGlobalScope => some "RuntimeError"
  | emptyChain => some "IndexError"
  | noFunctionScope => some "StopIteration"
  | unknownPromise _ => some "KeyError"
  | endlessText => some "RecursionError"
  | foreign category _ => some category
  | incompleteTree => some "AttributeError"

/-- Malformed digits, as they are quoted in a message; a long text is cut off. -/
def excerpt (digits : Text) : Text := digits.quoted.take 200

def message : Fault → Text
  | unresolved name => s!"ReferenceError: {name} is not defined"
  | unreadable receiver key =>
    Text.ofString "TypeError: Cannot read properties of " ++ receiver ++
      Text.ofString " (reading '" ++ key ++ Text.ofString "')"
  | unwritable receiver key =>
    Text.ofString "TypeError: Cannot set properties of " ++ receiver ++
      Text.ofString " (setting '" ++ key ++ Text.ofString "')"
  | integerTooLarge => "int too large to convert to float"
  | quotientTooLarge => "integer division result too large for a float"
  | malformedNumber literal => Text.ofString "could not convert string to float: " ++ literal.quoted
  | malformedHexadecimal digits =>
    Text.ofString "invalid literal for int() with base 16: " ++ excerpt digits
  | malformedIndex key => Text.ofString "invalid literal for int() with base 10: " ++ excerpt key
  | noSuchCodePoint => "chr() arg not in range(0x110000)"
  | codePointTooLarge => "Python int too large to convert to C int"
  | popOfGlobalScope => "Cannot pop the global scope"
  | emptyChain => "list index out of range"
  | noFunctionScope => ""
  | unknownPromise label => label.quoted
  | endlessText => "maximum recursion depth exceeded"
  | foreign _ message => message
  | incompleteTree => "incomplete syntax tree"

/-- The console text of a fault that ends a run. -/
def report (f : Fault) : Text :=
  match f.category? with
  | none => f.message
  | some category => Text.ofString category ++ Text.ofString ": " ++ f.message

end Fault

end Stepwise
