import Stepwise.Number
/-!
Escape sequences of string literals. A hexadecimal escape names a code point, a letter may stand
for a control character, an escaped line break stands for nothing, and any other character for
itself.
-/

namespace Stepwise.Text

/-- The control character that a letter stands for. -/
def controlLetter? (c : Char) : Option Nat :=
  if c = 'n' then some 0x0A
  else if c = 't' then some 0x09
  else if c = 'r' then some 0x0D
  else if c = 'b' then some 0x08
  else if c = 'f' then some 0x0C
  else if c = 'v' then some 0x0B
  else if c = '0' then some 0x00
  else none

/-- The code point of a number. A number beyond 32 bits is too large even to be looked at. -/
def codePoint (n : Int) : Except Fault CodePoint :=
  if n < -2147483648 || 2147483647 < n then .error .codePointTooLarge
  else if h : 0 ≤ n ∧ n < 0x110000 then .ok ⟨n.toNat, by omega⟩
  else .error .noSuchCodePoint

/-- The code point that hexadecimal digits name. -/
def hexadecimalPoint (digits : List Char) : Except Fault Text :=
  match Numeral.hexadecimal? (ofChars digits) with
  | some n => return [← codePoint n]
  | none => .error (.malformedHexadecimal (ofChars digits))

/-- What stands behind the backslash. -/
def decodeEscaped : List Char → Except Fault Text
  | [] => .ok []
  | 'u' :: '\x7b' :: digits => hexadecimalPoint digits.dropLast
  | c :: rest =>
    match rest, controlLetter? c with
    | [], some n => .ok (ofChars [Char.ofNat n])
    | [], none => if c = '\n' || c = '\r' then .ok [] else .ok (ofChars [c])
    | rest, _ =>
      if c = 'u' || c = 'x' then hexadecimalPoint rest
      else if c = '\n' || c = '\r' then .ok []
      else .ok (ofChars (c :: rest))

/-- The text that an escape sequence stands for. -/
def decodeEscape (sequence : String) : Except Fault Text := decodeEscaped (sequence.toList.drop 1)

end Stepwise.Text
