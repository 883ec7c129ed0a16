import Stepwise.Text.Digit
import Stepwise.Number.Decimal
/-!
Numerals: which texts are numbers, and which numbers they are. Digits of any script count, an
underscore may stand between two digits, and blanks may surround a numeral.
-/

namespace Stepwise.Numeral

/-- The blanks that may surround a numeral. A text of ASCII characters has fewer of them. -/
def isMargin (ascii : Bool) (p : CodePoint) : Bool :=
  if ascii then (9 ≤ p.val && p.val ≤ 13) || p.val = 32 else Text.isBlank p

/-- The characters of a numeral without its margin, digits of other scripts as ASCII digits; a
character that no numeral holds becomes a question mark. -/
def characters (t : Text) : List Char :=
  let ascii := t.all CodePoint.isAscii
  let core := ((t.dropWhile (isMargin ascii)).reverse.dropWhile (isMargin ascii)).reverse
  core.map fun p =>
    if p.isAscii then Char.ofNat p.val
    else match Text.decimalDigit? p with
      | some d => Char.ofNat (48 + d)
      | none => '?'

def digitValue? (c : Char) : Option Nat :=
  if '0' ≤ c && c ≤ '9' then some (c.toNat - 48)
  else if 'a' ≤ c && c ≤ 'z' then some (c.toNat - 87)
  else if 'A' ≤ c && c ≤ 'Z' then some (c.toNat - 55)
  else none

/-- Reads digits behind a value, an underscore allowed between two of them. -/
def digitsFrom? (base : Nat) (behindDigit : Bool) (value : Nat) : List Char → Option Nat
  | [] => if behindDigit then some value else none
  | '_' :: cs => if behindDigit then digitsFrom? base false value cs else none
  | c :: cs =>
    match (digitValue? c).filter (· < base) with
    | some d => digitsFrom? base true (value * base + d) cs
    | none => none

/-- One or more digits of a base. -/
def digits? (base : Nat) (cs : List Char) : Option Nat := digitsFrom? base false 0 cs

/-- A sign in front of what a reader accepts. -/
def signed? (read : List Char → Option Nat) : List Char → Option Int
  | '-' :: cs => (read cs).map fun n => -(n : Int)
  | '+' :: cs => (read cs).map fun n => (n : Int)
  | cs => (read cs).map fun n => (n : Int)

/-- The base that a letter behind a zero announces. -/
def announcedBase? (c : Char) : Option Nat :=
  if c = 'x' || c = 'X' then some 16
  else if c = 'o' || c = 'O' then some 8
  else if c = 'b' || c = 'B' then some 2
  else none

/-- Digits behind a base's announcement, which one underscore may follow. -/
def announced? (base : Nat) : List Char → Option Nat
  | '_' :: cs => digits? base cs
  | cs => digits? base cs

/-- A decimal integer. -/
def integer? (t : Text) : Option Int := signed? (digits? 10) (characters t)

/-- A hexadecimal integer, its base announced or not. -/
def hexadecimal? (t : Text) : Option Int :=
  signed? (fun
    | '0' :: c :: cs =>
      if announcedBase? c = some 16 then announced? 16 cs else digits? 16 ('0' :: c :: cs)
    | cs => digits? 16 cs) (characters t)

/-- An integer whose base is announced, or else a decimal one without a leading zero. -/
def literal? (t : Text) : Option Int :=
  signed? (fun
    | '0' :: c :: cs =>
      match announcedBase? c with
      | some base => announced? base cs
      | none => (digits? 10 ('0' :: c :: cs)).filter (· = 0)
    | cs => digits? 10 cs) (characters t)

/-- Removes the underscores, each of which must stand between two digits. -/
def withoutUnderscores? (previous : Char) : List Char → Option (List Char)
  | [] => if previous = '_' then none else some []
  | '_' :: cs => if previous.isDigit then withoutUnderscores? '_' cs else none
  | c :: cs =>
    if previous = '_' && !c.isDigit then none else (withoutUnderscores? c cs).map (c :: ·)

/-- A decimal fraction with an optional exponent, and at least one digit in front of it. -/
def decimal? (cs : List Char) : Option Decimal :=
  let whole := cs.takeWhile Char.isDigit
  let afterWhole := cs.dropWhile Char.isDigit
  let (fraction, rest) := match afterWhole with
    | '.' :: r => (r.takeWhile Char.isDigit, r.dropWhile Char.isDigit)
    | r => ([], r)
  let value := (whole ++ fraction).foldl (fun n c => n * 10 + (c.toNat - 48)) 0
  if whole.isEmpty && fraction.isEmpty then none
  else
    match rest with
    | [] => some ⟨value, -fraction.length⟩
    | e :: power =>
      if e = 'e' || e = 'E' then
        let figures := match power with
          | '+' :: r | '-' :: r => r
          | r => r
        if figures.isEmpty || !figures.all Char.isDigit then none
        else (signed? (digits? 10) power).map fun p => ⟨value, p - fraction.length⟩
      else none

/-- A number with a fraction or an exponent, an infinity or a nan. -/
def real? (t : Text) : Option Double := do
  let cs ← withoutUnderscores? ' ' (characters t)
  let (negative, body) := match cs with
    | '-' :: r => (true, r)
    | '+' :: r => (false, r)
    | r => (false, r)
  let word := body.map Char.toLower
  if word = "inf".toList || word = "infinity".toList then some (.infinite negative)
  else if word = "nan".toList then some .nan
  else (decimal? body).map (Decimal.toDouble negative)

end Stepwise.Numeral
