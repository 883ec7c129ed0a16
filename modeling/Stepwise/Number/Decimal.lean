import Stepwise.Text
import Stepwise.Number.Double
/-!
Decimal text of doubles. A double is written with the fewest digits that read back as it; of two
such decimals the nearer is taken, and of two equally near ones the even one.
-/

namespace Stepwise

/-- The value `digits * 10 ^ exponent`. -/
structure Decimal where
  digits : Nat
  exponent : Int
  deriving DecidableEq, Repr

namespace Decimal

def digitCount (n : Nat) : Nat := (Nat.toDigits 10 n).length

/-- The nearest double. Decimals far outside the range of doubles are settled by their size. -/
def toDouble (negative : Bool) (d : Decimal) : Double :=
  let size : Int := digitCount d.digits + d.exponent
  if d.digits = 0 || size < -400 then .zero negative
  else if size > 400 then .infinite negative
  else if d.exponent < 0 then .ofQuotient negative d.digits (Nat.pow 10 d.exponent.natAbs)
  else .ofQuotient negative (d.digits * Nat.pow 10 d.exponent.natAbs) 1

/-- The exponent of the least power of ten above a magnitude given in units. -/
def scale (units : Nat) : Int :=
  digitCount (units * Nat.pow 10 324 / Nat.pow 2 Double.unitExponent) - 324

/-- Whether a decimal reads back as the magnitude of a rank. -/
def readsBack (rank : Nat) (d : Decimal) : Bool :=
  match d.toDouble false with
  | .finite _ r => r.val = rank
  | _ => false

/-- Of two neighbours the one that reads back as the magnitude of a rank, or the nearer one where both do. -/
def neighbour? (rank : Nat) (below above nearer : Decimal) : Option Decimal :=
  match readsBack rank below, readsBack rank above with
  | true, true => some nearer
  | true, false => some below
  | false, true => some above
  | false, false => none

/-- The decimal with `n` digits that reads back as the given magnitude, if there is one. -/
def withDigits? (rank n : Nat) : Option Decimal :=
  let units := Double.unitsOfRank rank
  let exponent := scale units - n
  let num := if exponent < 0 then units * Nat.pow 10 exponent.natAbs else units
  let den := (if exponent < 0 then 1 else Nat.pow 10 exponent.natAbs) * Nat.pow 2 Double.unitExponent
  neighbour? rank ⟨num / den, exponent⟩ ⟨num / den + 1, exponent⟩ ⟨Double.roundQuotient num den, exponent⟩

/-- Moves zeros at the end of the digits into the exponent. -/
def strip : Nat → Decimal → Decimal
  | 0, d => d
  | n + 1, d => if d.digits % 10 = 0 then strip n ⟨d.digits / 10, d.exponent + 1⟩ else d

/-- A magnitude with all its digits; a unit is a power of five over the same power of ten. -/
def exact (rank : Nat) : Decimal :=
  ⟨Double.unitsOfRank rank * Nat.pow 5 Double.unitExponent, -Double.unitExponent⟩

/-- The shortest decimal that reads back as the magnitude of a rank other than zero. -/
def ofRank (rank : Nat) : Decimal :=
  (((List.range 17).findSome? fun n => withDigits? rank (n + 1)).map (strip 17)).getD (exact rank)

/-- Where the decimal point goes: before the digit of this position. -/
def pointPosition (d : Decimal) : Int := digitCount d.digits + d.exponent

/-- Positional for magnitudes from a ten-thousandth up to 10^16, with at least one digit on each
side of the point; otherwise with a signed exponent of two digits or more. -/
def layout (d : Decimal) : Text :=
  let digits := Nat.toDigits 10 d.digits
  let point := d.pointPosition
  let zeros (n : Nat) : List Char := List.replicate n '0'
  if -4 < point && point ≤ 16 then
    if point ≤ 0 then .ofChars ('0' :: '.' :: zeros point.natAbs ++ digits)
    else
      let whole := digits.take point.natAbs
      let fraction := digits.drop point.natAbs
      .ofChars (whole ++ zeros (point.natAbs - whole.length) ++ '.' ::
        (if fraction.isEmpty then ['0'] else fraction))
  else
    let power := point - 1
    let figures := Nat.toDigits 10 power.natAbs
    let mantissa := match digits with
      | first :: second :: rest => first :: '.' :: second :: rest
      | short => short
    .ofChars (mantissa ++ 'e' :: (if power < 0 then '-' else '+') ::
      (zeros (2 - figures.length) ++ figures))

end Decimal

namespace Double

/-- The shortest text that reads back. -/
def toText : Double → Text
  | nan => "nan"
  | infinite negative => if negative then "-inf" else "inf"
  | finite negative rank =>
    let magnitude : Text := if rank.val = 0 then "0.0" else (Decimal.ofRank rank).layout
    if negative then Text.ofString "-" ++ magnitude else magnitude

/-- The text with a fixed number of decimal places, at least one; the exact value is rounded, a half
to the even neighbour. -/
def fixedText (places : Nat) : Double → Text
  | nan => "nan"
  | infinite negative => if negative then "-inf" else "inf"
  | finite negative rank =>
    let figures := Nat.pow 10 places
    let scaled := roundQuotient (unitsOfRank rank * figures) (Nat.pow 2 unitExponent)
    let fraction := Nat.toDigits 10 (scaled % figures)
    let magnitude : Text := Text.ofNat (scaled / figures) ++
      Text.ofChars ('.' :: List.replicate (places - fraction.length) '0' ++ fraction)
    if negative then Text.ofString "-" ++ magnitude else magnitude

end Double

end Stepwise
