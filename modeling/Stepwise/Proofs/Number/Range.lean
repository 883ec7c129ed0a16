import Stepwise.Number
import Mathlib.Tactic.Ring
/-!
The range of doubles. A quotient is past it from half a spacing below the next power of two on; so are the integers of this
magnitude, and no other integer is without a double.
-/

namespace Stepwise

namespace Double

variable {num den : Nat}

theorem roundQuotient_cases (num den : Nat) :
    roundQuotient num den = num / den ∨ roundQuotient num den = num / den + 1 := by
  unfold roundQuotient
  dsimp only
  split
  · exact .inl rfl
  · split <;> omega

theorem div_le_roundQuotient (num den : Nat) : num / den ≤ roundQuotient num den := by
  have := roundQuotient_cases num den
  omega

theorem roundQuotient_le (num den : Nat) : roundQuotient num den ≤ num / den + 1 := by
  have := roundQuotient_cases num den
  omega

/-- What is rounded up to an even number is at most half a unit below it. -/
theorem le_roundQuotient_iff {m : Nat} (hden : 0 < den) (hm : m % 2 = 0) :
    m ≤ roundQuotient num den ↔ (2 * m - 1) * den ≤ 2 * num := by
  have hmod := Nat.mod_lt num hden
  have hnum : num = num / den * den + num % den := (Nat.div_add_mod' num den).symm
  have hle := div_le_roundQuotient num den
  have hge := roundQuotient_le num den
  rcases Nat.lt_trichotomy m (num / den + 1) with hlow | heven | hhigh
  · have hproduct : m * den ≤ num / den * den := Nat.mul_le_mul_right den (Nat.le_of_lt_succ hlow)
    refine iff_of_true (by omega) ?_
    rw [Nat.sub_mul, Nat.mul_assoc]
    omega
  · -- the number above an odd one is reached from the half on
    have hround : m ≤ roundQuotient num den ↔ den ≤ 2 * (num % den) := by
      unfold roundQuotient
      dsimp only
      split
      · omega
      · split <;> omega
    have hproduct : (2 * m - 1) * den = 2 * (num / den * den) + den := by
      rw [heven]
      have : 2 * (num / den + 1) - 1 = 2 * (num / den) + 1 := by omega
      rw [this]
      ring
    omega
  · have hproduct : (num / den + 1) * den + den ≤ m * den := by
      rw [← Nat.succ_mul]
      exact Nat.mul_le_mul_right den hhigh
    refine iff_of_false (by omega) ?_
    rw [Nat.sub_mul, Nat.mul_assoc]
    rw [Nat.add_mul] at hproduct
    omega

/-- The exponent of the spacing that a quotient is rounded to, in units. -/
def spacing (units den : Nat) : Nat := (units / den).log2 - 52

theorem lt_spacing (units : Nat) (hden : 0 < den) : units < den * 2 ^ (spacing units den + 53) := by
  have hlog := Nat.lt_log2_self (n := units / den)
  have hpower : 2 ^ ((units / den).log2 + 1) ≤ 2 ^ (spacing units den + 53) :=
    Nat.pow_le_pow_right Nat.two_pos (by unfold spacing; omega)
  rw [Nat.mul_comm]
  exact (Nat.div_lt_iff_lt_mul hden).mp (Nat.lt_of_lt_of_le hlog hpower)

theorem spacing_le {units : Nat} (hden : 0 < den) (h : 0 < spacing units den) : den * 2 ^ (spacing units den + 52) ≤ units := by
  have hexponent : spacing units den + 52 = (units / den).log2 := by
    unfold spacing at h ⊢
    omega
  have hne : units / den ≠ 0 := by
    intro hzero
    rw [hzero, Nat.log2_zero] at hexponent
    omega
  rw [hexponent, Nat.mul_comm]
  exact (Nat.le_div_iff_mul_le hden).mp (Nat.log2_self_le hne)

theorem nearestRank_eq (num den : Nat) : nearestRank num den =
    spacing (num * 2 ^ unitExponent) den * 2 ^ 52 +
      roundQuotient (num * 2 ^ unitExponent) (den * 2 ^ spacing (num * 2 ^ unitExponent) den) := by
  simp only [nearestRank, spacing, Nat.pow_eq]

/-- A quotient reaches the end of a row of ranks from half a spacing below it on. -/
theorem row_le_nearestRank_iff (row : Nat) (hden : 0 < den) : row * 2 ^ 52 + 2 ^ 53 ≤ nearestRank num den ↔
    (2 ^ 54 - 1) * (den * 2 ^ row) ≤ 2 * (num * 2 ^ unitExponent) := by
  rw [nearestRank_eq]
  generalize num * 2 ^ unitExponent = units
  have hhigh := lt_spacing units hden
  have hlow : 0 < spacing units den → den * 2 ^ (spacing units den + 52) ≤ units := spacing_le hden
  generalize spacing units den = s at hhigh hlow ⊢
  have hstep : 0 < den * 2 ^ s := Nat.mul_pos hden (Nat.two_pow_pos s)
  have hround : roundQuotient units (den * 2 ^ s) ≤ 2 ^ 53 := by
    have hquotient : units / (den * 2 ^ s) < 2 ^ 53 := by
      rw [Nat.div_lt_iff_lt_mul hstep]
      calc units < den * 2 ^ (s + 53) := hhigh
        _ = 2 ^ 53 * (den * 2 ^ s) := by rw [Nat.pow_add]; ring
    have := roundQuotient_le units (den * 2 ^ s)
    omega
  rcases Nat.lt_trichotomy s row with hbelow | rfl | habove
  · have hpower : den * 2 ^ (s + 53) ≤ den * 2 ^ (row + 52) :=
      Nat.mul_le_mul_left den (Nat.pow_le_pow_right Nat.two_pos (by omega))
    rw [Nat.pow_add 2 row, ← Nat.mul_assoc] at hpower
    omega
  · have hpower : 2 * 2 ^ 53 - 1 = 2 ^ 54 - 1 := rfl
    rw [Nat.add_le_add_iff_left, le_roundQuotient_iff hstep rfl, hpower]
  · have hquotient : 2 ^ 52 ≤ roundQuotient units (den * 2 ^ s) := by
      refine Nat.le_trans ?_ (div_le_roundQuotient units (den * 2 ^ s))
      rw [Nat.le_div_iff_mul_le hstep]
      calc 2 ^ 52 * (den * 2 ^ s) = den * 2 ^ (s + 52) := by rw [Nat.pow_add]; ring
        _ ≤ units := hlow (by omega)
    have hpower : den * 2 ^ (row + 53) ≤ den * 2 ^ (s + 52) :=
      Nat.mul_le_mul_left den (Nat.pow_le_pow_right Nat.two_pos (by omega))
    have hunits := Nat.le_trans hpower (hlow (by omega))
    rw [Nat.pow_add 2 row, ← Nat.mul_assoc] at hunits
    omega

/-- The least whole number that is past the doubles, half a spacing below the next power of two. -/
def limit : Nat := 2 ^ 1024 - 2 ^ 970

theorem exists_limit_eq : ∃ half, limit = (2 ^ 54 - 1) * 2 ^ half ∧ 2045 = half + (unitExponent + 1) := by
  obtain ⟨half, hhalf⟩ : ∃ half, half = 970 := ⟨_, rfl⟩
  have htop : 1024 = 54 + half := by omega
  refine ⟨half, ?_, by rw [hhalf]; rfl⟩
  rw [limit, htop, ← hhalf, Nat.pow_add, Nat.sub_mul, Nat.one_mul]

theorem lt_limit {n : Nat} (h : n ≤ 2 ^ 53) : n < limit := by
  obtain ⟨half, hlimit, -⟩ := exists_limit_eq
  rw [hlimit]
  calc n < 2 ^ 54 - 1 := by omega
    _ ≤ (2 ^ 54 - 1) * 2 ^ half := Nat.le_mul_of_pos_right _ (Nat.two_pow_pos half)

theorem rankBound_le_nearestRank_iff (hden : 0 < den) : rankBound ≤ nearestRank num den ↔ limit * den ≤ num := by
  obtain ⟨half, hlimit, hexponent⟩ := exists_limit_eq
  have hrows : rankBound = 2045 * 2 ^ 52 + 2 ^ 53 := rfl
  have hunits : (2 ^ 54 - 1) * (den * 2 ^ 2045) = limit * den * (2 * 2 ^ unitExponent) := by
    rw [hlimit, hexponent, Nat.pow_add 2 half, Nat.pow_succ']
    ring
  have hnum : 2 * (num * 2 ^ unitExponent) = num * (2 * 2 ^ unitExponent) := by ring
  rw [hrows, row_le_nearestRank_iff 2045 hden, hunits, hnum]
  exact Nat.mul_le_mul_right_iff (Nat.mul_pos Nat.two_pos (Nat.two_pow_pos unitExponent))

theorem isFinite_ofQuotient_iff (negative : Bool) (hden : 0 < den) :
    (ofQuotient negative num den).isFinite = true ↔ num < limit * den := by
  rw [← Nat.not_le, ← rankBound_le_nearestRank_iff hden, Nat.not_le]
  unfold ofQuotient
  dsimp only
  split
  next hrank => exact iff_of_true rfl hrank
  next hrank => exact iff_of_false Bool.false_ne_true hrank

theorem ofInt?_eq_none_iff (i : Int) : ofInt? i = none ↔ limit ≤ i.natAbs := by
  have hfinite : (ofUnits false i 1).isFinite = true ↔ i.natAbs < limit := by
    unfold ofUnits
    split
    next hzero =>
      rw [hzero]
      exact iff_of_true rfl (lt_limit (Nat.zero_le _))
    next => rw [isFinite_ofQuotient_iff _ Nat.one_pos, Nat.mul_one]
  rw [← Nat.not_lt, ← hfinite]
  unfold ofInt?
  dsimp only
  split
  next h => simp [h]
  next h => simp [h]

end Double

theorem Num.ofInt?_of_toDouble {i : Int} {x : Double} (h : (int i).toDouble = .ok x) : Double.ofInt? i = some x := by
  unfold toDouble at h
  dsimp only at h
  split at h
  next hx =>
    cases h
    exact hx
  next => cases h

end Stepwise
