import Stepwise.Fault
import Stepwise.Number.Numeral
/-!
Numbers of a traced program: integers of any size, and doubles. Sums, differences and products of
integers are exact; a double in an operation makes the result a double; quotients and remainders
are always doubles. Order and equality compare exact values.
-/

namespace Stepwise

inductive Num where
  | int (i : Int)
  | float (x : Double)
  deriving DecidableEq, Repr

namespace Num

instance : Coe Int Num := ⟨int⟩
instance : Coe Double Num := ⟨float⟩

/-- The nearest double, where there is one. -/
def toDouble : Num → Except Fault Double
  | int i => match Double.ofInt? i with
    | some x => .ok x
    | none => .error .integerTooLarge
  | float x => .ok x

def isNaN : Num → Bool
  | int _ => false
  | float x => x.isNaN

def isZero : Num → Bool
  | int i => i = 0
  | float x => x.isZero

/-- Where a number stands on the extended line: below, on or above the finite values, and for the
finite ones the exact value in units. A nan stands nowhere. -/
def position? : Num → Option (Int × Int)
  | int i => some (0, i * Nat.pow 2 Double.unitExponent)
  | float x =>
    match x with
    | .nan => none
    | .infinite negative => some (if negative then -1 else 1, 0)
    | .finite _ _ => x.units?.map (0, ·)

/-- The exact order; a nan compares with nothing. -/
def compare? (a b : Num) : Option Ordering := do
  let p ← a.position?
  let q ← b.position?
  return (compare p.1 q.1).then (compare p.2 q.2)

def equal (a b : Num) : Bool := compare? a b == some .eq

/-- An exact operation on integers, one on doubles otherwise. -/
def arith (exact : Int → Int → Int) (rounded : Double → Double → Double) (a b : Num) :
    Except Fault Num :=
  match a, b with
  | int i, int j => .ok (int (exact i j))
  | a, b => do return float (rounded (← a.toDouble) (← b.toDouble))

def add : Num → Num → Except Fault Num := arith (· + ·) Double.add
def sub : Num → Num → Except Fault Num := arith (· - ·) Double.sub
def mul : Num → Num → Except Fault Num := arith (· * ·) Double.mul

def neg : Num → Num
  | int i => int (-i)
  | float x => float x.neg

/-- The quotient of integers, rounded once; an integer divisor zero is left to the caller. -/
def divInt (i j : Int) : Except Fault Num :=
  let negative := (i < 0) != (j < 0)
  match if i = 0 then Double.zero negative else Double.ofQuotient negative i.natAbs j.natAbs with
  | .infinite _ => .error .quotientTooLarge
  | x => .ok (float x)

/-- Fails where an integer has no double, and otherwise says whether the number is a nan. -/
def checkNaN (a : Num) : Except Fault Bool := return (← a.toDouble).isNaN

/-- The quotient. A zero divisor gives nan for zero or nan, and otherwise the infinity whose sign
is the product of the signs. -/
def div (a b : Num) : Except Fault Num :=
  if b.isZero then do
    let x ← a.toDouble
    let negativeZero := match b with
      | int _ => false
      | float y => y.isNegative
    if x.isZero || x.isNaN then return float .nan
    else return float (.infinite (x.isNegative != negativeZero))
  else
    match a, b with
    | int i, int j => divInt i j
    | a, b => do return float ((← a.toDouble).div (← b.toDouble))

/-- The remainder with the sign of the dividend; nan where there is none. -/
def rem (a b : Num) : Except Fault Num :=
  if b.isZero then .ok (float .nan)
  else do
    let x ← a.toDouble
    if x.isFinite then return float (x.rem (← b.toDouble)) else return float .nan

/-- Integral values below 10^21 are written without point or exponent. -/
def toText : Num → Text
  | int i => .ofInt i
  | float x =>
    match x with
    | .nan => "NaN"
    | .infinite negative => if negative then "-Infinity" else "Infinity"
    | .finite _ _ =>
      match x.toInt? with
      | some i => if i.natAbs < Nat.pow 10 21 then .ofInt i else x.toText
      | none => x.toText

/-- The number a text stands for: nothing is zero, and what is no numeral is nan. -/
def ofText (t : Text) : Num :=
  let body := t.trim
  if body.isEmpty then int 0
  else match Numeral.integer? body with
    | some i => int i
    | none => match Numeral.real? body with
      | some x => float x
      | none => float .nan

/-- The number a literal in a program stands for; underscores do not matter. -/
def ofLiteral (text : Text) : Except Fault Num :=
  let plain := text.filter (· ≠ CodePoint.ofChar '_')
  match Numeral.literal? plain with
  | some i => .ok (int i)
  | none => match Numeral.real? plain with
    | some x => .ok (float x)
    | none => .error (.malformedNumber plain)

end Num

end Stepwise
