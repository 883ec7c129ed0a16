import Stepwise.Text.Digit
/-!
Texts quoted for error messages: between single quotes, or double quotes where the text holds a
single quote and no double one, with everything unprintable written as an escape.
-/

namespace Stepwise.Text

/-- Code points shown as escapes: controls, format characters, separators other than the blank,
surrogates and private characters. Unassigned ones are not listed. -/
def unprintableRanges : List (Nat × Nat) :=
  [(0x0, 0x1F), (0x7F, 0xA0), (0xAD, 0xAD), (0x600, 0x605), (0x61C, 0x61C), (0x6DD, 0x6DD),
   (0x70F, 0x70F), (0x890, 0x891), (0x8E2, 0x8E2), (0x1680, 0x1680), (0x180E, 0x180E),
   (0x2000, 0x200F), (0x2028, 0x202F), (0x205F, 0x2064), (0x2066, 0x206F), (0x3000, 0x3000),
   (0xD800, 0xF8FF), (0xFEFF, 0xFEFF), (0xFFF9, 0xFFFB), (0x110BD, 0x110BD), (0x110CD, 0x110CD),
   (0x13430, 0x13438), (0x1BCA0, 0x1BCA3), (0x1D173, 0x1D17A), (0xE0001, 0xE0001),
   (0xE0020, 0xE007F), (0xF0000, 0xFFFFD), (0x100000, 0x10FFFD)]

/-- Lower-case hexadecimal digits, with zeros in front up to the given width. -/
def hexadecimal (width n : Nat) : Text :=
  let digits := Nat.toDigits 16 n
  ofChars (List.replicate (width - digits.length) '0' ++ digits)

/-- One code point between the given quotes. -/
def quotedPoint (quote : CodePoint) (p : CodePoint) : Text :=
  if p = quote || p = CodePoint.ofChar '\\' then [CodePoint.ofChar '\\', p]
  else if p = CodePoint.ofChar '\n' then "\\n"
  else if p = CodePoint.ofChar '\r' then "\\r"
  else if p = CodePoint.ofChar '\t' then "\\t"
  else if inRanges unprintableRanges p.val then
    if p.val < 0x100 then ofString "\\x" ++ hexadecimal 2 p.val
    else if p.val < 0x10000 then ofString "\\u" ++ hexadecimal 4 p.val
    else ofString "\\U" ++ hexadecimal 8 p.val
  else [p]

def quoted (t : Text) : Text :=
  let single := CodePoint.ofChar '\x27'
  let double := CodePoint.ofChar '"'
  let quote := if t.contains single && !t.contains double then double else single
  quote :: t.flatMap (quotedPoint quote) ++ [quote]

end Stepwise.Text
