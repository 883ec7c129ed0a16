import Stepwise.Number
import Mathlib.Algebra.Order.Field.Rat
import Mathlib.Algebra.Order.Field.Power
import Mathlib.Order.WithBot
import Mathlib.Order.Compare
import Mathlib.Tactic.FieldSimp
import Mathlib.Tactic.Ring
/-!
Exact values. An integer is itself, a double is read off its fields, and the infinities are the ends of the line. Numbers
are ordered and equal as their exact values are, integers and doubles of any size against each other.
-/

namespace Stepwise

/-- The rationals and the two ends. -/
abbrev Line := WithBot (WithTop ℚ)

theorem compare_congr {α β : Type} [LinearOrder α] [LinearOrder β] {x y : α} {x' y' : β} (hlt : x < y ↔ x' < y')
    (hgt : y < x ↔ y' < x') : compare x y = compare x' y' := by
  rcases lt_trichotomy x y with hless | rfl | hmore
  · rw [compare_lt_iff_lt.mpr hless, compare_lt_iff_lt.mpr (hlt.mp hless)]
  · have heq : x' = y' := le_antisymm (not_lt.mp (mt hgt.mpr (lt_irrefl x))) (not_lt.mp (mt hlt.mpr (lt_irrefl x)))
    rw [compare_eq_iff_eq.mpr rfl, compare_eq_iff_eq.mpr heq]
  · rw [compare_gt_iff_gt.mpr hmore, compare_gt_iff_gt.mpr (hgt.mp hmore)]

namespace Double

/-- What the two fields of a rank stand for. In front of the fraction of 52 bits there is a one, except where the exponent
is the least. -/
def magnitude (rank : Nat) : ℚ :=
  let exponent : ℕ := rank / 2 ^ 52
  let fraction : ℕ := rank % 2 ^ 52
  if exponent = 0 then fraction * 2 ^ (-1074 : ℤ) else (2 ^ 52 + fraction) * 2 ^ (exponent - 1075 : ℤ)

def value? : Double → Option Line
  | nan => none
  | infinite negative => some (if negative then ⊥ else ⊤)
  | finite negative rank => some ((if negative then -magnitude rank else magnitude rank : ℚ) : WithTop ℚ)

theorem unitsOfRank_eq (rank : Nat) : (unitsOfRank rank : ℚ) = magnitude rank * 2 ^ unitExponent := by
  have hshift (e : ℤ) : (2 : ℚ) ^ e * 2 ^ unitExponent = 2 ^ (e + 1074) := by
    rw [← zpow_natCast, ← zpow_add₀ two_ne_zero]
    rfl
  have hrow : Nat.pow 2 52 = 2 ^ 52 := rfl
  unfold unitsOfRank magnitude
  dsimp only
  rw [hrow]
  by_cases hlow : rank < 2 ^ 52
  · rw [if_pos hlow, if_pos (Nat.div_eq_of_lt hlow), Nat.mod_eq_of_lt hlow, mul_assoc, hshift, neg_add_cancel,
      zpow_zero, mul_one]
  · have hexponent : rank / 2 ^ 52 ≠ 0 := by omega
    have hpower : ((rank / 2 ^ 52 : ℕ) : ℤ) - 1075 + 1074 = (rank / 2 ^ 52 - 1 : ℕ) := by omega
    rw [if_neg hlow, if_neg hexponent, mul_assoc, hshift, hpower, zpow_natCast, Nat.pow_eq]
    push_cast
    rfl

end Double

namespace Num

def value? : Num → Option Line
  | int i => some ((i : ℚ) : WithTop ℚ)
  | float x => x.value?

/-- A place among the numbers and the exact value there. -/
inductive Stands : Int × Int → Line → Prop
  | below : Stands (-1, 0) ⊥
  | above : Stands (1, 0) ⊤
  | within {m : Int} {q : ℚ} (h : (m : ℚ) = q * 2 ^ Double.unitExponent) : Stands (0, m) (q : WithTop ℚ)

theorem Stands.compare_eq {p q : Int × Int} {v w : Line} (hp : Stands p v) (hq : Stands q w) :
    (compare p.1 q.1).then (compare p.2 q.2) = compare v w := by
  have hunit : (0 : ℚ) < 2 ^ Double.unitExponent := pow_pos two_pos _
  cases hp with
  | below =>
    cases hq with
    | below => exact (compare_eq_iff_eq.mpr rfl).symm
    | above => exact (compare_lt_iff_lt.mpr bot_lt_top).symm
    | within => exact (compare_lt_iff_lt.mpr (WithBot.bot_lt_coe _)).symm
  | above =>
    cases hq with
    | below => exact (compare_gt_iff_gt.mpr bot_lt_top).symm
    | above => exact (compare_eq_iff_eq.mpr rfl).symm
    | within => exact (compare_gt_iff_gt.mpr (WithBot.coe_lt_coe.mpr (WithTop.coe_lt_top _))).symm
  | within hm =>
    cases hq with
    | below => exact (compare_gt_iff_gt.mpr (WithBot.bot_lt_coe _)).symm
    | above => exact (compare_lt_iff_lt.mpr (WithBot.coe_lt_coe.mpr (WithTop.coe_lt_top _))).symm
    | within hn =>
      have hlt {m n : Int} {x y : ℚ} (hm : (m : ℚ) = x * 2 ^ Double.unitExponent)
          (hn : (n : ℚ) = y * 2 ^ Double.unitExponent) : m < n ↔ ((x : WithTop ℚ) : Line) < (y : WithTop ℚ) := by
        rw [WithBot.coe_lt_coe, WithTop.coe_lt_coe, ← Int.cast_lt (R := ℚ), hm, hn]
        exact mul_lt_mul_iff_left₀ hunit
      exact compare_congr (hlt hm hn) (hlt hn hm)

theorem stands (a : Num) : (a.position? = none ∧ a.value? = none) ∨
    ∃ p v, a.position? = some p ∧ a.value? = some v ∧ Stands p v := by
  cases a with
  | int i =>
    refine .inr ⟨_, _, rfl, rfl, .within ?_⟩
    rw [Nat.pow_eq]
    push_cast
    rfl
  | float x =>
    cases x with
    | nan => exact .inl ⟨rfl, rfl⟩
    | infinite negative =>
      cases negative with
      | true => exact .inr ⟨_, _, rfl, rfl, .below⟩
      | false => exact .inr ⟨_, _, rfl, rfl, .above⟩
    | finite negative rank =>
      refine .inr ⟨_, _, rfl, rfl, .within ?_⟩
      cases negative with
      | true =>
        rw [if_pos rfl, if_pos rfl, neg_mul, ← Double.unitsOfRank_eq]
        push_cast
        rfl
      | false =>
        rw [if_neg Bool.false_ne_true, if_neg Bool.false_ne_true, ← Double.unitsOfRank_eq]
        rfl

theorem compare?_eq (a b : Num) : a.compare? b = (do return compare (← a.value?) (← b.value?)) := by
  unfold compare?
  obtain ⟨ha, hv⟩ | ⟨p, v, ha, hv, hp⟩ := a.stands
  · rw [ha, hv]
    rfl
  obtain ⟨hb, hw⟩ | ⟨q, w, hb, hw, hq⟩ := b.stands
  · rw [ha, hb, hv, hw]
    rfl
  · rw [ha, hb, hv, hw]
    exact congrArg some (hp.compare_eq hq)

theorem value?_eq_none_iff {a : Num} : a.value? = none ↔ a = .float .nan := by
  constructor
  · intro h
    cases a with
    | int i => cases h
    | float x =>
      cases x with
      | nan => rfl
      | infinite negative => cases h
      | finite negative rank => cases h
  · rintro rfl
    rfl

theorem compare?_eq_some_iff {a b : Num} {o : Ordering} :
    a.compare? b = some o ↔ ∃ v w, a.value? = some v ∧ b.value? = some w ∧ compare v w = o := by
  rw [compare?_eq]
  cases a.value? with
  | none => exact iff_of_false (Option.some_ne_none o).symm fun ⟨_, _, hnone, _⟩ ↦ Option.some_ne_none _ hnone.symm
  | some v =>
    cases b.value? with
    | none => exact iff_of_false (Option.some_ne_none o).symm fun ⟨_, _, _, hnone, _⟩ ↦ Option.some_ne_none _ hnone.symm
    | some w =>
      simp only [Option.bind_eq_bind, Option.bind_some, Option.pure_def, Option.some_inj]
      exact ⟨fun h ↦ ⟨v, w, rfl, rfl, h⟩, fun ⟨_, _, hv, hw, h⟩ ↦ hv ▸ hw ▸ h⟩

theorem equal_iff_value? {a b : Num} : a.equal b = true ↔ ∃ v, a.value? = some v ∧ b.value? = some v := by
  rw [equal, beq_iff_eq, compare?_eq_some_iff]
  constructor
  · rintro ⟨v, w, hv, hw, horder⟩
    rw [compare_eq_iff_eq] at horder
    exact ⟨v, hv, horder ▸ hw⟩
  · rintro ⟨v, hv, hw⟩
    exact ⟨v, v, hv, hw, compare_eq_iff_eq.mpr rfl⟩

end Num

end Stepwise
