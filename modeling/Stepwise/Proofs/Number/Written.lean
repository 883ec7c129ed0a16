import Stepwise.Proofs.Number.Shape
/-!
Doubles as they are written. A decimal is laid out in the parts of a numeral, and reading the numeral comes back to the
double; two doubles are never written the same.
-/

namespace Stepwise

namespace Decimal

variable {d : Decimal}

def digitChars (d : Decimal) : List Char := Nat.toDigits 10 d.digits

/-- The parts that a decimal is laid out in. -/
def shape (d : Decimal) : Numeral.Shape :=
  let place := d.pointPosition.natAbs
  let whole := d.digitChars.take place
  let fraction := d.digitChars.drop place
  let power := d.pointPosition - 1
  let figures := Nat.toDigits 10 power.natAbs
  if -4 < d.pointPosition && d.pointPosition ≤ 16 then
    if d.pointPosition ≤ 0 then ⟨['0'], some (List.replicate place '0' ++ d.digitChars), none⟩
    else
      ⟨whole ++ List.replicate (place - whole.length) '0', some (if fraction.isEmpty then ['0'] else fraction), none⟩
  else
    ⟨d.digitChars.take 1, if (d.digitChars.drop 1).isEmpty then none else some (d.digitChars.drop 1),
      some (power < 0, List.replicate (2 - figures.length) '0' ++ figures)⟩

theorem layout_eq (d : Decimal) : d.layout = .ofChars d.shape.chars := by
  unfold layout shape
  dsimp only
  split
  · split
    · simp [Numeral.Shape.chars, Numeral.Shape.pointed, Numeral.Shape.powered, digitChars]
    · simp [Numeral.Shape.chars, Numeral.Shape.pointed, Numeral.Shape.powered, digitChars]
  · unfold digitChars
    cases Nat.toDigits 10 d.digits with
    | nil => simp [Numeral.Shape.chars, Numeral.Shape.pointed, Numeral.Shape.powered]
    | cons c cs =>
      cases cs with
      | nil => simp [Numeral.Shape.chars, Numeral.Shape.pointed, Numeral.Shape.powered]
      | cons c' cs => simp [Numeral.Shape.chars, Numeral.Shape.pointed, Numeral.Shape.powered]

theorem isDigit_of_mem_toDigits (n : Nat) : ∀ c ∈ Nat.toDigits 10 n, c.isDigit = true := fun _ hc ↦
  Nat.isDigit_of_mem_toDigits (by omega) (by omega) hc

theorem isDigit_of_mem_zeros (n : Nat) : ∀ c ∈ List.replicate n '0', c.isDigit = true := by
  intro c hc
  rw [List.eq_of_mem_replicate hc]
  rfl

theorem digitChars_ne_nil (d : Decimal) : d.digitChars ≠ [] := Nat.toDigits_ne_nil

theorem length_digitChars_pos (d : Decimal) : 0 < d.digitChars.length := List.length_pos_iff.mpr d.digitChars_ne_nil

theorem shape_isProper (d : Decimal) : d.shape.IsProper := by
  have hdigits : ∀ c ∈ d.digitChars, c.isDigit = true := isDigit_of_mem_toDigits d.digits
  have htake (n : Nat) : ∀ c ∈ d.digitChars.take n, c.isDigit = true := fun c hc ↦ hdigits c (List.mem_of_mem_take hc)
  have hdrop (n : Nat) : ∀ c ∈ d.digitChars.drop n, c.isDigit = true := fun c hc ↦ hdigits c (List.mem_of_mem_drop hc)
  have hzero : ∀ c ∈ ['0'], c.isDigit = true := List.forall_mem_singleton.mpr rfl
  have hpos := d.length_digitChars_pos
  have hnonempty (n : Nat) (hn : 0 < n) : d.digitChars.take n ≠ [] := by
    rw [← List.length_pos_iff, List.length_take]
    omega
  unfold shape
  dsimp only
  split
  · split
    next => exact ⟨hzero, List.forall_mem_append.mpr ⟨isDigit_of_mem_zeros _, hdigits⟩, nofun, List.cons_ne_nil _ _⟩
    next hpoint =>
      refine ⟨List.forall_mem_append.mpr ⟨htake _, isDigit_of_mem_zeros _⟩, ?_, nofun, ?_⟩
      · unfold Numeral.Shape.fraction
        dsimp only [Option.getD_some]
        split
        · exact hzero
        · exact hdrop _
      · exact List.append_ne_nil_of_left_ne_nil (hnonempty _ (by omega)) _
  · refine ⟨htake 1, ?_, ?_, hnonempty 1 Nat.one_pos⟩
    · unfold Numeral.Shape.fraction
      dsimp only
      split
      · exact List.forall_mem_nil _
      · exact hdrop 1
    · rintro _ ⟨⟩
      exact ⟨List.append_ne_nil_of_right_ne_nil _ Nat.toDigits_ne_nil,
        List.forall_mem_append.mpr ⟨isDigit_of_mem_zeros _, isDigit_of_mem_toDigits _⟩⟩

theorem toDouble_mul_pow (negative : Bool) (k n : Nat) (e : Int) :
    toDouble negative ⟨10 ^ k * n, e⟩ = toDouble negative ⟨n, e + k⟩ := by
  induction k generalizing e with
  | zero => rw [Nat.pow_zero, Nat.one_mul, Int.natCast_zero, Int.add_zero]
  | succ k ih =>
    have he : e + 1 + k = e + (k + 1 : Nat) := by omega
    rw [Nat.pow_succ, Nat.mul_right_comm, toDouble_mul_ten, ih, he]

theorem ofDigitChars_digitChars (d : Decimal) : Nat.ofDigitChars 10 d.digitChars 0 = d.digits := Nat.ofDigitChars_ten_toDigits

theorem ofDigitChars_zeros_append (n : Nat) (cs : List Char) :
    Nat.ofDigitChars 10 (List.replicate n '0' ++ cs) 0 = Nat.ofDigitChars 10 cs 0 := by
  rw [Nat.ofDigitChars_append, Nat.ofDigitChars_replicate_zero, Nat.mul_zero]

theorem pointPosition_eq (d : Decimal) : d.pointPosition = d.digitChars.length + d.exponent := rfl

/-- Zeros stand between the point and the digits. -/
theorem value_padded (h : d.pointPosition ≤ 0) :
    Numeral.Shape.value ⟨['0'], some (List.replicate d.pointPosition.natAbs '0' ++ d.digitChars), none⟩ =
      ⟨d.digits, d.exponent⟩ := by
  have hpoint := d.pointPosition_eq
  have hvalue := ofDigitChars_zeros_append (d.pointPosition.natAbs + 1) d.digitChars
  rw [List.replicate_succ, List.cons_append, d.ofDigitChars_digitChars] at hvalue
  simp only [Numeral.Shape.value, Numeral.Shape.fraction, Numeral.Shape.power, Option.getD_some, Option.elim_none,
    List.singleton_append, hvalue, List.length_append, List.length_replicate, mk.injEq, true_and]
  omega

/-- The point stands between two digits. -/
theorem value_parted (h : 0 < d.pointPosition) (hinside : d.pointPosition.natAbs < d.digitChars.length) : Numeral.Shape.value
    ⟨d.digitChars.take d.pointPosition.natAbs, some (d.digitChars.drop d.pointPosition.natAbs), none⟩ =
      ⟨d.digits, d.exponent⟩ := by
  have hpoint := d.pointPosition_eq
  have hdigits := d.ofDigitChars_digitChars
  simp only [Numeral.Shape.value, Numeral.Shape.fraction, Numeral.Shape.power, Option.getD_some, Option.elim_none,
    List.take_append_drop, hdigits, List.length_drop, mk.injEq, true_and]
  omega

/-- The digits end before the point, and zeros fill the gap. -/
theorem value_filled (h : 0 < d.pointPosition) (hbeyond : d.digitChars.length ≤ d.pointPosition.natAbs) :
    Numeral.Shape.value
      ⟨d.digitChars ++ List.replicate (d.pointPosition.natAbs - d.digitChars.length) '0', some ['0'], none⟩ =
      ⟨10 ^ (d.pointPosition.natAbs - d.digitChars.length + 1) * d.digits,
        d.exponent - (d.pointPosition.natAbs - d.digitChars.length + 1 : Nat)⟩ := by
  have hpoint := d.pointPosition_eq
  have hfill : List.replicate (d.pointPosition.natAbs - d.digitChars.length) '0' ++ ['0'] =
      List.replicate (d.pointPosition.natAbs - d.digitChars.length + 1) '0' := List.replicate_succ'.symm
  simp only [Numeral.Shape.value, Numeral.Shape.fraction, Numeral.Shape.power, Option.getD_some, Option.elim_none,
    List.append_assoc, hfill, Nat.ofDigitChars_append, d.ofDigitChars_digitChars, Nat.ofDigitChars_replicate_zero,
    List.length_singleton, mk.injEq, true_and]
  omega

/-- The point stands behind the first digit, and an exponent puts it right. -/
theorem value_powered (d : Decimal) : Numeral.Shape.value
    ⟨d.digitChars.take 1, if (d.digitChars.drop 1).isEmpty then none else some (d.digitChars.drop 1),
      some (d.pointPosition - 1 < 0, List.replicate (2 - (Nat.toDigits 10 (d.pointPosition - 1).natAbs).length) '0' ++
        Nat.toDigits 10 (d.pointPosition - 1).natAbs)⟩ = ⟨d.digits, d.exponent⟩ := by
  have hpos := d.length_digitChars_pos
  have hpoint := d.pointPosition_eq
  have hdigits := d.ofDigitChars_digitChars
  have hfraction : (if (d.digitChars.drop 1).isEmpty = true then none else some (d.digitChars.drop 1)).getD [] =
      d.digitChars.drop 1 := by
    split
    next hempty => exact (List.isEmpty_iff.mp hempty).symm
    next => rfl
  have hpower := ofDigitChars_zeros_append (2 - (Nat.toDigits 10 (d.pointPosition - 1).natAbs).length)
    (Nat.toDigits 10 (d.pointPosition - 1).natAbs)
  rw [Nat.ofDigitChars_ten_toDigits] at hpower
  simp only [Numeral.Shape.value, Numeral.Shape.fraction, Numeral.Shape.power, Option.elim_some, hfraction, hpower,
    List.take_append_drop, hdigits, List.length_drop, mk.injEq, decide_eq_true_eq, true_and]
  split <;> omega

/-- The parts have the value of the decimal, up to zeros at the end. -/
theorem exists_value_shape (d : Decimal) : ∃ k : Nat, d.shape.value = ⟨10 ^ k * d.digits, d.exponent - k⟩ := by
  have hexact {s : Numeral.Shape} (hs : s.value = d) : ∃ k : Nat, s.value = ⟨10 ^ k * d.digits, d.exponent - k⟩ := by
    refine ⟨0, hs.trans ?_⟩
    rw [Nat.pow_zero, Nat.one_mul, Int.natCast_zero, Int.sub_zero]
  unfold shape
  dsimp only
  split
  next =>
    split
    next hsmall => exact hexact (value_padded hsmall)
    next hlarge =>
      have hpoint := Int.not_le.mp hlarge
      rw [List.length_take]
      rcases Nat.lt_or_ge d.pointPosition.natAbs d.digitChars.length with hinside | hbeyond
      · have hne : (d.digitChars.drop d.pointPosition.natAbs).isEmpty = false := by
          rw [List.isEmpty_eq_false_iff, ← List.length_pos_iff, List.length_drop]
          omega
        rw [hne, if_neg Bool.false_ne_true, Nat.min_eq_left hinside.le, Nat.sub_self, List.replicate_zero, List.append_nil]
        exact hexact (value_parted hpoint hinside)
      · rw [List.take_of_length_le hbeyond, List.drop_eq_nil_of_le hbeyond, Nat.min_eq_right hbeyond, List.isEmpty_nil,
          if_pos rfl]
        exact ⟨_, value_filled hpoint hbeyond⟩
  next => exact hexact d.value_powered

/-- What a decimal is laid out as reads back as its double. -/
theorem toDouble_shape (negative : Bool) (d : Decimal) : d.shape.value.toDouble negative = d.toDouble negative := by
  obtain ⟨k, hk⟩ := d.exists_value_shape
  rw [hk, toDouble_mul_pow, Int.sub_add_cancel]

end Decimal

namespace Double

/-- The parts that a magnitude is written in. -/
def shape (rank : Nat) : Numeral.Shape := if rank = 0 then ⟨['0'], some ['0'], none⟩ else (Decimal.ofRank rank).shape

theorem shape_isProper (rank : Nat) : (shape rank).IsProper := by
  unfold shape
  split
  · exact ⟨List.forall_mem_singleton.mpr rfl, List.forall_mem_singleton.mpr rfl, nofun, List.cons_ne_nil _ _⟩
  · exact Decimal.shape_isProper _

theorem toText_finite (negative : Bool) (rank : Fin (2047 * Nat.pow 2 52)) :
    (finite negative rank).toText = .ofChars ((shape rank).signed negative) := by
  have hmagnitude : (if rank.val = 0 then Text.ofString "0.0" else (Decimal.ofRank rank).layout) =
      .ofChars (shape rank).chars := by
    unfold shape
    split
    · rfl
    · exact Decimal.layout_eq _
  unfold toText
  dsimp only
  rw [hmagnitude]
  cases negative with
  | true => rfl
  | false => rfl

theorem toDouble_shape (negative : Bool) (rank : Fin (2047 * Nat.pow 2 52)) :
    (shape rank).value.toDouble negative = finite negative rank := by
  unfold shape
  split
  next hzero =>
    have hvalue : Numeral.Shape.value ⟨['0'], some ['0'], none⟩ = ⟨0, -1⟩ := rfl
    have hrank : rank = ⟨0, by decide⟩ := Fin.ext hzero
    rw [hvalue, Decimal.toDouble_zero, hrank, zero]
  next hpos =>
    obtain ⟨a, r, hread, hrank⟩ := Decimal.exists_of_readsBack (Decimal.readsBack_ofRank (Nat.pos_of_ne_zero hpos) rank.isLt)
    rw [Decimal.toDouble_shape, Decimal.toDouble_of_toDouble hread, Fin.ext hrank]

theorem real?_toText (x : Double) : Numeral.real? x.toText = some x := by
  cases x with
  | nan => rfl
  | infinite negative => cases negative <;> rfl
  | finite negative rank => rw [toText_finite, Numeral.real?_signed (shape_isProper _), toDouble_shape]

theorem toText_injective {x y : Double} (h : x.toText = y.toText) : x = y := by
  have hread := x.real?_toText
  rw [h, y.real?_toText] at hread
  exact (Option.some.inj hread).symm

end Double

end Stepwise
