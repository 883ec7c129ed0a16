import Stepwise.Proofs.Number.Range
import Stepwise.Proofs.Number.Numeral
/-!
The decimal that a double is written as. Among the first seventeen numbers of digits one may do; all the digits always do,
and whatever is chosen reads back as the double.
-/

namespace Stepwise

namespace Double

variable {num den : Nat}

/-- Rounding sees a fraction and not the terms it is written in. -/
theorem roundQuotient_mul_left {k : Nat} (hk : 0 < k) (num den : Nat) :
    roundQuotient (k * num) (k * den) = roundQuotient num den := by
  have hless : 2 * (k * (num % den)) < k * den ↔ 2 * (num % den) < den := by
    rw [Nat.mul_left_comm]
    exact Nat.mul_lt_mul_left hk
  have hmore : k * den < 2 * (k * (num % den)) ↔ den < 2 * (num % den) := by
    rw [Nat.mul_left_comm 2]
    exact Nat.mul_lt_mul_left hk
  unfold roundQuotient
  simp only [Nat.mul_div_mul_left num den hk, Nat.mul_mod_mul_left, hless, hmore]

theorem nearestRank_mul_left {k : Nat} (hk : 0 < k) (num den : Nat) :
    nearestRank (k * num) (k * den) = nearestRank num den := by
  simp only [nearestRank_eq, spacing, Nat.mul_assoc, Nat.mul_div_mul_left _ _ hk, roundQuotient_mul_left hk]

theorem ofQuotient_mul_left {k : Nat} (hk : 0 < k) (negative : Bool) (num den : Nat) :
    ofQuotient negative (k * num) (k * den) = ofQuotient negative num den := by
  unfold ofQuotient
  simp only [nearestRank_mul_left hk]

theorem nearestRank_unitsOfRank (rank : Nat) : nearestRank (unitsOfRank rank) (2 ^ unitExponent) = rank := by
  have hrow : Nat.pow 2 52 = 2 ^ 52 := rfl
  have hexact (n d : Nat) (hd : 0 < d) : roundQuotient (n * d) d = n := by
    unfold roundQuotient
    simp only [Nat.mul_div_cancel _ hd, Nat.mul_mod_left, Nat.mul_zero, if_pos hd]
  rw [nearestRank_eq, spacing, Nat.mul_div_cancel _ (Nat.two_pow_pos unitExponent)]
  unfold unitsOfRank
  dsimp only
  rw [hrow]
  split
  next hlow =>
    have hlog : rank.log2 - 52 = 0 := by
      rcases Nat.eq_zero_or_pos rank with rfl | hpos
      · rfl
      · have := (Nat.log2_lt (Nat.ne_of_gt hpos)).mpr hlow
        omega
    rw [hlog, Nat.pow_zero, Nat.mul_one, Nat.zero_mul, Nat.zero_add, hexact _ _ (Nat.two_pow_pos unitExponent)]
  next hhigh =>
    obtain ⟨e, he⟩ : ∃ e, rank / 2 ^ 52 - 1 = e := ⟨_, rfl⟩
    have hlog : ((2 ^ 52 + rank % 2 ^ 52) * 2 ^ e).log2 = 52 + e := by
      have hmod := Nat.mod_lt rank (Nat.two_pow_pos 52)
      apply (Nat.log2_eq_iff (Nat.ne_of_gt (Nat.mul_pos (Nat.add_pos_left (Nat.two_pow_pos 52) _) (Nat.two_pow_pos e)))).mpr
      have hlow : 2 ^ (52 + e) = 2 ^ 52 * 2 ^ e := Nat.pow_add 2 52 e
      have hhigh : 2 ^ (52 + e + 1) = 2 ^ 53 * 2 ^ e := by rw [Nat.add_right_comm, Nat.pow_add]
      rw [hlow, hhigh]
      constructor
      · exact Nat.mul_le_mul_right _ (Nat.le_add_right _ _)
      · exact Nat.mul_lt_mul_of_pos_right (by omega) (Nat.two_pow_pos e)
    rw [he, Nat.pow_eq, hlog, Nat.add_sub_cancel_left, Nat.mul_assoc, Nat.mul_comm (2 ^ e),
      hexact _ _ (Nat.mul_pos (Nat.two_pow_pos unitExponent) (Nat.two_pow_pos e))]
    omega

end Double

namespace Decimal

variable {d : Decimal} {n rank : Nat} {r : Fin (2047 * Nat.pow 2 52)}

theorem digitCount_mul_ten (h : 0 < n) : digitCount (n * 10) = digitCount n + 1 := by
  unfold digitCount
  rw [Nat.toDigits_eq_if (by omega : 1 < 10)]
  rw [if_neg (by omega), List.length_append, Nat.mul_div_cancel _ (by omega : 0 < 10)]
  rfl

theorem toDouble_zero (negative : Bool) (e : Int) : toDouble negative ⟨0, e⟩ = .zero negative := by
  simp only [toDouble, decide_true, Bool.true_or, if_true]

/-- A zero at the end of the digits is as good as one in the exponent. -/
theorem toDouble_mul_ten (negative : Bool) (n : Nat) (e : Int) :
    toDouble negative ⟨n * 10, e⟩ = toDouble negative ⟨n, e + 1⟩ := by
  rcases Nat.eq_zero_or_pos n with rfl | hpos
  · rw [Nat.zero_mul, toDouble_zero, toDouble_zero]
  have hsize : (digitCount (n * 10) : Int) + e = digitCount n + (e + 1) := by
    rw [digitCount_mul_ten hpos]
    omega
  have hzero : n * 10 ≠ 0 := by omega
  have hquotient : (if e < 0 then Double.ofQuotient negative (n * 10) (Nat.pow 10 e.natAbs)
      else Double.ofQuotient negative (n * 10 * Nat.pow 10 e.natAbs) 1) =
      if e + 1 < 0 then Double.ofQuotient negative n (Nat.pow 10 (e + 1).natAbs)
      else Double.ofQuotient negative (n * Nat.pow 10 (e + 1).natAbs) 1 := by
    -- the ten cancels one below the line or joins the power above it; at -1 it cancels the last one
    rcases Int.lt_trichotomy e (-1) with hlow | rfl | hhigh
    · have hpower : e.natAbs = (e + 1).natAbs + 1 := by omega
      rw [if_pos (by omega), if_pos (by omega), hpower, Nat.pow_eq, Nat.pow_eq, Nat.pow_succ, Nat.mul_comm n,
        Nat.mul_comm (10 ^ _), Double.ofQuotient_mul_left (by omega)]
    · have hbelow : Nat.pow 10 (-1 : Int).natAbs = 10 * 1 := rfl
      have habove : Nat.pow 10 (-1 + 1 : Int).natAbs = 1 := rfl
      rw [if_pos (by omega), if_neg (by omega), hbelow, habove, Nat.mul_comm n, Double.ofQuotient_mul_left (by omega),
        Nat.mul_one]
    · have hpower : (e + 1).natAbs = e.natAbs + 1 := by omega
      rw [if_neg (by omega), if_neg (by omega), hpower, Nat.pow_eq, Nat.pow_eq, Nat.pow_succ, Nat.mul_comm (10 ^ _),
        Nat.mul_assoc]
  unfold toDouble
  dsimp only
  rw [hsize, hquotient]
  simp only [hzero, Nat.ne_of_gt hpos]

theorem toDouble_strip (negative : Bool) (k : Nat) (d : Decimal) : (strip k d).toDouble negative = d.toDouble negative := by
  induction k generalizing d with
  | zero => rfl
  | succ k ih =>
    rw [strip]
    split
    next hten =>
      have hdigits : d.digits = d.digits / 10 * 10 := by omega
      rw [ih, ← toDouble_mul_ten, ← hdigits]
    next => rfl

/-- The sign of a numeral is the sign of its double. -/
theorem toDouble_of_toDouble {a : Bool} (h : d.toDouble false = .finite a r) (negative : Bool) :
    d.toDouble negative = .finite negative r := by
  have hquotient {num den : Nat} (h : Double.ofQuotient false num den = .finite a r) :
      Double.ofQuotient negative num den = .finite negative r := by
    unfold Double.ofQuotient at h ⊢
    dsimp only at h ⊢
    split at h
    next hrank =>
      rw [dif_pos hrank]
      cases h
      rfl
    next => cases h
  unfold toDouble at h ⊢
  dsimp only at h ⊢
  split at h
  next hzero =>
    rw [if_pos hzero]
    cases h
    rfl
  next hzero =>
    rw [if_neg hzero]
    split at h
    next => cases h
    next hlarge =>
      rw [if_neg hlarge]
      split at h
      next hexponent =>
        rw [if_pos hexponent]
        exact hquotient h
      next hexponent =>
        rw [if_neg hexponent]
        exact hquotient h

theorem exists_of_readsBack (h : readsBack rank d = true) : ∃ a r, d.toDouble false = .finite a r ∧ r.val = rank := by
  unfold readsBack at h
  split at h
  next a r hread => exact ⟨a, r, hread, of_decide_eq_true h⟩
  next => cases h

theorem readsBack_of_neighbour? {below above nearer : Decimal} (hnearer : nearer = below ∨ nearer = above)
    (h : neighbour? rank below above nearer = some d) : readsBack rank d = true := by
  unfold neighbour? at h
  split at h
  next hbelow habove =>
    cases h
    rcases hnearer with rfl | rfl
    · exact hbelow
    · exact habove
  next hbelow _ =>
    cases h
    exact hbelow
  next habove =>
    cases h
    exact habove
  next => cases h

theorem readsBack_of_withDigits? (h : withDigits? rank n = some d) : readsBack rank d = true := by
  unfold withDigits? at h
  refine readsBack_of_neighbour? ?_ h
  rcases Double.roundQuotient_cases _ _ with heq | heq
  · rw [heq]
    exact .inl rfl
  · rw [heq]
    exact .inr rfl

theorem exists_unitsOfRank_lt (h : rank < Double.rankBound) : ∃ e ≤ 2098, Double.unitsOfRank rank < 2 ^ e := by
  have hrow : Nat.pow 2 52 = 2 ^ 52 := rfl
  have hbound : Double.rankBound = 2047 * 2 ^ 52 := rfl
  have hmod := Nat.mod_lt rank (Nat.two_pow_pos 52)
  unfold Double.unitsOfRank
  dsimp only
  rw [hrow]
  rw [hbound] at h
  split
  next hlow => exact ⟨52, by omega, hlow⟩
  next =>
    refine ⟨53 + (rank / 2 ^ 52 - 1), by omega, ?_⟩
    generalize rank / 2 ^ 52 - 1 = e
    rw [Nat.pow_add, Nat.pow_eq]
    exact Nat.mul_lt_mul_of_pos_right (by omega) (Nat.two_pow_pos e)

theorem unitsOfRank_pos (h : 0 < rank) : 0 < Double.unitsOfRank rank := by
  unfold Double.unitsOfRank
  dsimp only
  split
  · exact h
  · exact Nat.mul_pos (Nat.add_pos_left (Nat.two_pow_pos 52) _) (Nat.two_pow_pos _)

/-- Three powers of five are more than a hundred. -/
theorem lt_digitCount {units k u : Nat} (hunits : 0 < units) (hk : 0 < k) (h : 3 * k ≤ u) :
    2 * k < digitCount (units * 5 ^ u) := by
  rw [← Nat.not_le, digitCount, Nat.length_toDigits_le_iff (by omega) (by omega), Nat.not_lt]
  calc 10 ^ (2 * k) = (10 ^ 2) ^ k := Nat.pow_mul 10 2 k
    _ ≤ (5 ^ 3) ^ k := Nat.pow_le_pow_left (by decide) k
    _ = 5 ^ (3 * k) := (Nat.pow_mul 5 3 k).symm
    _ ≤ 5 ^ u := Nat.pow_le_pow_right (by omega) h
    _ ≤ units * 5 ^ u := Nat.le_mul_of_pos_left _ hunits

theorem digitCount_le {units e k u : Nat} (hunits : units < 2 ^ e) (hk : 0 < k) (h : e ≤ 3 * k + u) :
    digitCount (units * 5 ^ u) ≤ k + u := by
  rw [digitCount, Nat.length_toDigits_le_iff (by omega) (by omega)]
  calc units * 5 ^ u < 2 ^ e * 5 ^ u := Nat.mul_lt_mul_of_pos_right hunits (Nat.pow_pos (by omega))
    _ ≤ 2 ^ (3 * k + u) * 5 ^ u := Nat.mul_le_mul_right _ (Nat.pow_le_pow_right Nat.two_pos h)
    _ = (2 ^ 3) ^ k * (2 * 5) ^ u := by rw [Nat.pow_add, Nat.pow_mul, Nat.mul_pow, Nat.mul_assoc]
    _ ≤ 10 ^ k * 10 ^ u := Nat.mul_le_mul_right _ (Nat.pow_le_pow_left (by decide) k)
    _ = 10 ^ (k + u) := (Nat.pow_add 10 k u).symm

/-- A magnitude with all its digits, a power of five in the place of the power of two that it is divided by, reads back. -/
theorem readsBack_exact (hpos : 0 < rank) (h : rank < Double.rankBound) : readsBack rank (exact rank) = true := by
  obtain ⟨e, he, hbound⟩ := exists_unitsOfRank_lt h
  have hunits := unitsOfRank_pos hpos
  have hnearest := Double.nearestRank_unitsOfRank rank
  have hunit : Double.unitExponent = 1074 := rfl
  unfold exact
  generalize Double.unitsOfRank rank = units at hunits hbound hnearest ⊢
  generalize Double.unitExponent = u at hnearest hunit ⊢
  have hfive : 0 < 5 ^ u := Nat.pow_pos (by omega)
  have hlow : 2 * 358 < digitCount (units * 5 ^ u) := lt_digitCount hunits (by omega) (by omega)
  have hhigh : digitCount (units * 5 ^ u) ≤ 342 + u := digitCount_le hbound (by omega) (by omega)
  have hzero : units * 5 ^ u ≠ 0 := Nat.ne_of_gt (Nat.mul_pos hunits hfive)
  have hten : Nat.pow 10 (-(u : Int)).natAbs = 5 ^ u * 2 ^ u := by
    rw [Int.natAbs_neg, Int.natAbs_natCast, ← Nat.mul_pow]
    rfl
  have hquotient : toDouble false ⟨units * Nat.pow 5 u, -u⟩ = Double.ofQuotient false units (2 ^ u) := by
    unfold toDouble
    dsimp only
    rw [Nat.pow_eq, if_neg, if_neg (by omega), if_pos (by omega), hten, Nat.mul_comm units, Double.ofQuotient_mul_left hfive]
    simp only [Bool.or_eq_true, decide_eq_true_eq, not_or]
    exact ⟨hzero, by omega⟩
  have hrank : Double.nearestRank units (2 ^ u) < 2047 * Nat.pow 2 52 := hnearest ▸ h
  rw [readsBack, hquotient, Double.ofQuotient]
  rw [dif_pos hrank]
  exact decide_eq_true hnearest

theorem readsBack_ofRank (hpos : 0 < rank) (h : rank < Double.rankBound) : readsBack rank (ofRank rank) = true := by
  unfold ofRank
  cases hfound : (List.range 17).findSome? (fun n ↦ withDigits? rank (n + 1)) with
  | none =>
    rw [Option.map_none, Option.getD_none]
    exact readsBack_exact hpos h
  | some d =>
    obtain ⟨k, -, hk⟩ := List.exists_of_findSome?_eq_some hfound
    rw [Option.map_some, Option.getD_some, readsBack, toDouble_strip]
    exact readsBack_of_withDigits? hk

end Decimal
end Stepwise
