import Stepwise.Proofs.Number.Range
/-!
Division and remainder by operations that refuse what they are not made for: zero divisors, infinite dividends of a remainder
and integers without a double. The tests in front of these operations leave only the last of the refusals.
-/

namespace Stepwise

/-- Why an operation on numbers refuses its operands. -/
inductive Refusal where
  | fault (f : Fault)
  | zeroDivisor
  | outsideDomain

namespace Double

theorem nearestRank_pos {num : Nat} (h : 0 < num) : 0 < nearestRank num 1 := by
  rw [nearestRank_eq]
  have hunits : 0 < num * 2 ^ unitExponent := Nat.mul_pos h (Nat.two_pow_pos unitExponent)
  generalize num * 2 ^ unitExponent = units at hunits ⊢
  rcases Nat.eq_zero_or_pos (spacing units 1) with hzero | hpos
  · have hround := div_le_roundQuotient units 1
    rw [Nat.div_one] at hround
    rw [hzero, Nat.pow_zero, Nat.mul_one]
    omega
  · omega

theorem isZero_of_ofInt? {i : Int} {x : Double} (h : ofInt? i = some x) : x.isZero = decide (i = 0) := by
  unfold ofInt? at h
  dsimp only at h
  split at h
  next hfinite =>
    cases h
    unfold ofUnits at hfinite ⊢
    by_cases hzero : i = 0
    · rw [if_pos hzero, decide_eq_true hzero]
      rfl
    · have hrank := nearestRank_pos (Int.natAbs_pos.mpr hzero)
      rw [if_neg hzero] at hfinite ⊢
      rw [decide_eq_false hzero]
      unfold ofQuotient at hfinite ⊢
      dsimp only at hfinite ⊢
      split
      next => exact decide_eq_false (Nat.ne_of_gt hrank)
      next => rfl
  next => cases h

/-- The magnitude of a number with the sign of another one. -/
def withSign (x y : Double) : Double := if x.isNegative = y.isNegative then x else x.neg

def one : Double := finite false ⟨1023 * Nat.pow 2 52, by decide⟩

/-- The remainder, refused where a nan would come of other operands than nans. -/
def checkedRem (x y : Double) : Except Refusal Double :=
  if (x.rem y).isNaN && !x.isNaN && !y.isNaN then .error .outsideDomain else .ok (x.rem y)

theorem mul_withSign (x y : Double) :
    ((infinite false).withSign x).mul (one.withSign y) = infinite (x.isNegative != y.isNegative) := by
  have hinfinite : (infinite false).withSign x = infinite x.isNegative := by
    unfold withSign
    cases x.isNegative <;> rfl
  rw [hinfinite]
  unfold withSign
  cases y.isNegative with
  | true => rfl
  | false => rfl

theorem isNaN_ofQuotient (negative : Bool) (num den : Nat) : (ofQuotient negative num den).isNaN = false := by
  unfold ofQuotient
  dsimp only
  split <;> rfl

theorem rem_of_isNaN {x y : Double} (h : y.isNaN = true) : x.rem y = nan := by
  cases y with
  | nan => cases x <;> rfl
  | _ => cases h

theorem checkedRem_eq {x y : Double} (hx : x.isFinite = true) (hy : y.isZero = false) : x.checkedRem y = .ok (x.rem y) := by
  have hnan : ((x.rem y).isNaN && !x.isNaN && !y.isNaN) = false := by
    cases x with
    | nan | infinite => cases hx
    | finite negative rank =>
      cases y with
      | nan | infinite => rfl
      | finite negative' rank' =>
        have hrank : rank'.val ≠ 0 := of_decide_eq_false hy
        rw [rem, if_neg hrank, isNaN_ofQuotient]
        rfl
  rw [checkedRem, hnan, if_neg Bool.false_ne_true]

end Double

namespace Num

def checkedDouble (a : Num) : Except Refusal Double := a.toDouble.mapError .fault

/-- The quotient, refused where the divisor is zero. -/
def checkedDiv (a b : Num) : Except Refusal Num :=
  match a, b with
  | int i, int j => if j = 0 then .error .zeroDivisor else (divInt i j).mapError .fault
  | a, b => do
    let x ← a.checkedDouble
    let y ← b.checkedDouble
    if y.isZero then .error .zeroDivisor else return float (x.div y)

/-- Division as the tests on its operands make it up. -/
def guardedDiv (a b : Num) : Except Refusal Num :=
  if b.isZero then
    if a.isZero then .ok (float .nan)
    else do
      if (← a.checkedDouble).isNaN then return float .nan
      let x := (Double.infinite false).withSign (← a.checkedDouble)
      return float (x.mul (Double.one.withSign (← b.checkedDouble)))
  else a.checkedDiv b

/-- The remainder as the tests on its operands make it up. -/
def guardedRem (a b : Num) : Except Refusal Num :=
  if b.isZero then .ok (float .nan)
  else do
    let x ← a.checkedDouble
    if !x.isFinite then return float .nan
    let y ← b.checkedDouble
    if y.isNaN then return float .nan
    return float (← x.checkedRem y)

variable {a b : Num}

theorem isZero_of_toDouble {x : Double} (h : a.toDouble = .ok x) : x.isZero = a.isZero := by
  cases a with
  | int i => exact Double.isZero_of_ofInt? (ofInt?_of_toDouble h)
  | float y =>
    cases h
    rfl

theorem exists_toDouble_of_isZero (h : a.isZero = true) : ∃ x, a.toDouble = .ok x := by
  cases a with
  | int i =>
    obtain rfl : i = 0 := of_decide_eq_true h
    exact ⟨_, rfl⟩
  | float y => exact ⟨y, rfl⟩

theorem div_of_isZero {y : Double} (hb : b.isZero = true) (hy : b.toDouble = .ok y) : a.div b = (do
    let x ← a.toDouble
    if x.isZero || x.isNaN then return float .nan else return float (.infinite (x.isNegative != y.isNegative))) := by
  unfold div
  rw [if_pos hb]
  refine bind_congr fun x ↦ ?_
  cases b with
  | int j =>
    obtain rfl : j = 0 := of_decide_eq_true hb
    obtain rfl : Double.zero false = y := Except.ok.inj hy
    have hsign : (Double.zero false).isNegative = false := rfl
    rw [hsign]
  | float z =>
    obtain rfl : z = y := Except.ok.inj hy
    rfl

/-- Rounded operands are divided unless the divisor is zero, and an integer is rounded to zero only from zero. -/
theorem checkedDiv_rounded (hb : b.isZero = false) : (do
    let x ← a.checkedDouble
    let y ← b.checkedDouble
    if y.isZero then .error .zeroDivisor else return float (x.div y)) =
      (do return float ((← a.toDouble).div (← b.toDouble)) : Except Fault Num).mapError Refusal.fault := by
  rw [checkedDouble, checkedDouble]
  cases a.toDouble with
  | error f => rfl
  | ok x =>
    cases hy : b.toDouble with
    | error f => rfl
    | ok y =>
      have hzero : y.isZero = false := (isZero_of_toDouble hy).trans hb
      simp only [Except.mapError, bind, Except.bind, hzero, Bool.false_eq_true, if_false]
      rfl

theorem checkedDiv_eq (hb : b.isZero = false) : a.checkedDiv b = (a.div b).mapError .fault := by
  unfold div
  rw [hb, if_neg Bool.false_ne_true]
  cases a with
  | int i =>
    cases b with
    | int j => exact if_neg (of_decide_eq_false hb)
    | float y => exact checkedDiv_rounded hb
  | float x => exact checkedDiv_rounded hb

/-- The tests in front of a division leave no zero divisor. -/
theorem guardedDiv_eq (a b : Num) : a.guardedDiv b = (a.div b).mapError .fault := by
  unfold guardedDiv
  cases hb : b.isZero with
  | false => rw [if_neg Bool.false_ne_true, checkedDiv_eq hb]
  | true =>
    obtain ⟨y, hy⟩ := exists_toDouble_of_isZero hb
    rw [if_pos rfl, div_of_isZero hb hy]
    cases ha : a.isZero with
    | true =>
      obtain ⟨x, hx⟩ := exists_toDouble_of_isZero ha
      have hzero := (isZero_of_toDouble hx).trans ha
      rw [if_pos rfl, hx]
      simp only [bind, Except.bind, hzero, Bool.true_or, if_true]
      rfl
    | false =>
      rw [if_neg Bool.false_ne_true, checkedDouble, checkedDouble, hy]
      cases hx : a.toDouble with
      | error f => rfl
      | ok x =>
        have hzero : x.isZero = false := (isZero_of_toDouble hx).trans ha
        cases hnan : x.isNaN with
        | true =>
          simp only [Except.mapError, bind, Except.bind, hzero, hnan, Bool.false_or, if_true]
          rfl
        | false =>
          simp only [Except.mapError, bind, Except.bind, hzero, hnan, Bool.or_false, Bool.false_eq_true, if_false,
            Double.mul_withSign]
          rfl

/-- The tests in front of a remainder leave nothing outside of its domain. -/
theorem guardedRem_eq (a b : Num) : a.guardedRem b = (a.rem b).mapError .fault := by
  unfold guardedRem rem
  cases hb : b.isZero with
  | true => rfl
  | false =>
    rw [if_neg Bool.false_ne_true, if_neg Bool.false_ne_true, checkedDouble, checkedDouble]
    cases a.toDouble with
    | error f => rfl
    | ok x =>
      cases hx : x.isFinite with
      | false =>
        simp only [Except.mapError, bind, Except.bind, hx, Bool.not_false, Bool.false_eq_true, if_true, if_false]
        rfl
      | true =>
        cases hy : b.toDouble with
        | error f =>
          simp only [Except.mapError, bind, Except.bind, hx, Bool.not_true, Bool.false_eq_true, if_true, if_false]
        | ok y =>
          have hzero : y.isZero = false := (isZero_of_toDouble hy).trans hb
          simp only [Except.mapError, bind, Except.bind, hx, Bool.not_true, Bool.false_eq_true, if_true, if_false,
            Double.checkedRem_eq hx hzero]
          cases hnan : y.isNaN with
          | true =>
            rw [if_pos rfl, Double.rem_of_isNaN hnan]
            rfl
          | false => rfl

end Num

end Stepwise
