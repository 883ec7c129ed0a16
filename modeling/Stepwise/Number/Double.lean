/-!
Binary floating-point numbers of 64 bits, computed exactly: every operation takes the exact
result and rounds it once, to nearest, ties to even. The meaning of a finite double is a whole
number of units, where a unit is the least positive double.
-/

namespace Stepwise

/-- A finite double is its sign and its rank, the number of doubles between zero and its
magnitude. Ranks order magnitudes, and an even rank is an even significand. -/
inductive Double where
  | nan
  | infinite (negative : Bool)
  | finite (negative : Bool) (rank : Fin (2047 * Nat.pow 2 52))
  deriving DecidableEq, Repr

namespace Double

/-- A unit is this power of two below one. -/
def unitExponent : Nat := 1074

/-- Ranks below this are finite. -/
def rankBound : Nat := 2047 * Nat.pow 2 52

/-- The magnitude of a rank, in units: below 2^53 every unit is a double, and above the spacing
doubles every 2^52 ranks. -/
def unitsOfRank (rank : Nat) : Nat :=
  let row := Nat.pow 2 52
  if rank < row then rank else (row + rank % row) * Nat.pow 2 (rank / row - 1)

/-- A quotient rounded to a whole number, a half going to the even neighbour. -/
def roundQuotient (num den : Nat) : Nat :=
  let q := num / den
  let r := num % den
  if 2 * r < den then q else if den < 2 * r then q + 1 else q + q % 2

/-- The rank whose magnitude is nearest to a quotient; it may lie past the finite ranks. -/
def nearestRank (num den : Nat) : Nat :=
  let units := num * Nat.pow 2 unitExponent
  let spacing := (units / den).log2 - 52
  spacing * Nat.pow 2 52 + roundQuotient units (den * Nat.pow 2 spacing)

/-- The double nearest to a signed quotient. -/
def ofQuotient (negative : Bool) (num den : Nat) : Double :=
  let rank := nearestRank num den
  if h : rank < 2047 * Nat.pow 2 52 then finite negative ⟨rank, h⟩ else infinite negative

def zero (negative : Bool) : Double := finite negative ⟨0, by decide⟩

/-- The value in units; nan and the infinities have none. -/
def units? : Double → Option Int
  | finite negative rank =>
    let magnitude : Int := unitsOfRank rank
    some (if negative then -magnitude else magnitude)
  | _ => none

def isNaN : Double → Bool
  | nan => true
  | _ => false

def isFinite : Double → Bool
  | finite _ _ => true
  | _ => false

/-- The sign; nan counts as positive. -/
def isNegative : Double → Bool
  | nan => false
  | infinite negative => negative
  | finite negative _ => negative

/-- Whether the value is zero, of either sign. -/
def isZero : Double → Bool
  | finite _ rank => rank.val = 0
  | _ => false

def neg : Double → Double
  | nan => nan
  | infinite negative => infinite !negative
  | finite negative rank => finite (!negative) rank

/-- The double nearest to an exact number of units over a denominator, with the sign that a zero
takes. -/
def ofUnits (zeroNegative : Bool) (units : Int) (den : Nat) : Double :=
  if units = 0 then zero zeroNegative else ofQuotient (units < 0) units.natAbs den

def add : Double → Double → Double
  | nan, _ | _, nan => nan
  | infinite a, infinite b => if a = b then infinite a else nan
  | infinite a, finite _ _ => infinite a
  | finite _ _, infinite b => infinite b
  | finite a x, finite b y =>
    let signed (negative : Bool) (rank : Nat) : Int :=
      if negative then -(unitsOfRank rank : Int) else unitsOfRank rank
    ofUnits (a && b) (signed a x + signed b y) (Nat.pow 2 unitExponent)

def sub (x y : Double) : Double := x.add y.neg

def mul : Double → Double → Double
  | nan, _ | _, nan => nan
  | infinite a, y => if y.isZero then nan else infinite (a != y.isNegative)
  | x, infinite b => if x.isZero then nan else infinite (x.isNegative != b)
  | finite a x, finite b y =>
    ofQuotient (a != b) (unitsOfRank x * unitsOfRank y) (Nat.pow 2 (2 * unitExponent))

/-- The quotient; a zero divisor gives nan for zero and an infinity otherwise. -/
def div : Double → Double → Double
  | nan, _ | _, nan => nan
  | infinite _, infinite _ => nan
  | infinite a, finite b _ => infinite (a != b)
  | finite a _, infinite b => zero (a != b)
  | finite a x, finite b y =>
    if y.val = 0 then if x.val = 0 then nan else infinite (a != b)
    else ofQuotient (a != b) (unitsOfRank x) (unitsOfRank y)

/-- The remainder with the sign of the dividend; it is always exact. -/
def rem : Double → Double → Double
  | nan, _ | _, nan => nan
  | infinite _, _ => nan
  | x, infinite _ => x
  | finite a x, finite _ y =>
    if y.val = 0 then nan
    else ofQuotient a (unitsOfRank x % unitsOfRank y) (Nat.pow 2 unitExponent)

/-- The integer that a double is, if it is one. -/
def toInt? (x : Double) : Option Int :=
  let one : Int := Nat.pow 2 unitExponent
  x.units?.bind fun units => if units % one = 0 then some (units / one) else none

/-- The nearest double to an integer; `none` where that is past the finite ones. -/
def ofInt? (i : Int) : Option Double :=
  let x := ofUnits false i 1
  if x.isFinite then some x else none

end Double

end Stepwise
