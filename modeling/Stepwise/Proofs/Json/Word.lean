import Stepwise.Json
import Stepwise.Proofs.Number.Written
/-!
The words of JSON: null, the booleans and the numbers. They are made of digits, lower-case letters, signs and points, and no two
of them are written the same.
-/

namespace Stepwise

/-- Digits, lower-case letters, signs and points. -/
def CodePoint.IsWordPoint (p : CodePoint) : Prop :=
  p.val = 43 ∨ p.val = 45 ∨ p.val = 46 ∨ (48 ≤ p.val ∧ p.val ≤ 57) ∨ (97 ≤ p.val ∧ p.val ≤ 122)

/-- What an integer is written with: digits, and the sign of the negative ones. -/
def CodePoint.IsIntegerPoint (p : CodePoint) : Prop := p.val = 45 ∨ (48 ≤ p.val ∧ p.val ≤ 57)

namespace Text

variable {p : CodePoint} {i j : Int} {m n : Nat}

theorem val_of_mem_ofNat (h : p ∈ ofNat n) : 48 ≤ p.val ∧ p.val ≤ 57 := by
  obtain ⟨c, hc, rfl⟩ := List.mem_map.mp h
  exact Char.isDigit_iff_toNat.mp (Nat.isDigit_of_mem_toDigits (by omega) (by omega) hc)

theorem isIntegerPoint_of_mem_ofInt (h : p ∈ ofInt i) : p.IsIntegerPoint := by
  unfold ofInt at h
  split at h
  · rcases List.mem_cons.mp h with rfl | h
    · exact .inl rfl
    · exact .inr (val_of_mem_ofNat h)
  · exact .inr (val_of_mem_ofNat h)

theorem ofNat_ne_nil (n : Nat) : ofNat n ≠ [] := fun h ↦ Nat.toDigits_ne_nil (List.map_eq_nil_iff.mp h)

theorem ofInt_ne_nil (i : Int) : ofInt i ≠ [] := by
  unfold ofInt
  split
  · exact List.cons_ne_nil _ _
  · exact ofNat_ne_nil _

theorem ofNat_injective (h : ofNat m = ofNat n) : m = n := by
  have hread := decimal?_ofNat m
  rw [h, decimal?_ofNat n] at hread
  exact (Option.some.inj hread).symm

theorem ofInt_injective (h : ofInt i = ofInt j) : i = j := by
  have hsign (m n : Nat) : CodePoint.ofChar '-' :: ofNat m ≠ ofNat n := by
    intro heq
    have hmem := val_of_mem_ofNat (heq ▸ List.mem_cons_self : CodePoint.ofChar '-' ∈ ofNat n)
    have hval : (CodePoint.ofChar '-').val = 45 := rfl
    omega
  unfold ofInt at h
  split at h
  next =>
    split at h
    next =>
      have := ofNat_injective (List.cons.inj h).2
      omega
    next => exact absurd h (hsign _ _)
  next =>
    split at h
    next => exact absurd h.symm (hsign _ _)
    next =>
      have := ofNat_injective h
      omega

end Text

theorem Decimal.fraction?_or_power? (d : Decimal) : d.shape.fraction? ≠ none ∨ d.shape.power? ≠ none := by
  unfold shape
  dsimp only
  split
  · split
    · exact .inl (Option.some_ne_none _)
    · exact .inl (Option.some_ne_none _)
  · exact .inr (Option.some_ne_none _)

namespace Double

variable {x : Double} {p : CodePoint}

theorem fraction?_or_power? (rank : Nat) : (shape rank).fraction? ≠ none ∨ (shape rank).power? ≠ none := by
  unfold shape
  split
  · exact .inl (Option.some_ne_none _)
  · exact Decimal.fraction?_or_power? _

theorem exists_mem_chars {s : Numeral.Shape} (h : s.fraction? ≠ none ∨ s.power? ≠ none) : ∃ c ∈ s.chars, c = '.' ∨ c = 'e' := by
  obtain ⟨whole, fraction?, power?⟩ := s
  rcases h with h | h
  · obtain ⟨fraction, rfl⟩ := Option.ne_none_iff_exists'.mp h
    exact ⟨'.', List.mem_append_right _ (List.mem_append_left _ List.mem_cons_self), .inl rfl⟩
  · obtain ⟨power, rfl⟩ := Option.ne_none_iff_exists'.mp h
    exact ⟨'e', List.mem_append_right _ (List.mem_append_right _ List.mem_cons_self), .inr rfl⟩

/-- The text of a double has something that no integer is written with: a point, an exponent or a letter. -/
theorem exists_mem_toText (x : Double) : ∃ p ∈ x.toText, ¬ p.IsIntegerPoint := by
  have hletter (c : Char) (hc : c = '.' ∨ c = 'e' ∨ c = 'n') : ¬ (CodePoint.ofChar c).IsIntegerPoint := by
    rcases hc with rfl | rfl | rfl
    · rintro (h | h) <;> revert h <;> decide
    · rintro (h | h) <;> revert h <;> decide
    · rintro (h | h) <;> revert h <;> decide
  cases x with
  | nan => exact ⟨CodePoint.ofChar 'n', List.mem_cons_self, hletter 'n' (.inr (.inr rfl))⟩
  | infinite negative =>
    refine ⟨CodePoint.ofChar 'n', ?_, hletter 'n' (.inr (.inr rfl))⟩
    cases negative with
    | true => exact List.mem_cons_of_mem _ (List.mem_cons_of_mem _ List.mem_cons_self)
    | false => exact List.mem_cons_of_mem _ List.mem_cons_self
  | finite negative rank =>
    obtain ⟨c, hc, hmark⟩ := exists_mem_chars (fraction?_or_power? rank)
    refine ⟨CodePoint.ofChar c, ?_, hletter c (hmark.imp_right .inl)⟩
    rw [toText_finite]
    exact List.mem_map_of_mem (List.mem_append_right _ hc)

theorem toText_cases (x : Double) : x.toText = "nan" ∨ x.toText = "inf" ∨ ∃ p t, x.toText = p :: t ∧ p.IsIntegerPoint := by
  cases x with
  | nan => exact .inl rfl
  | infinite negative =>
    cases negative with
    | true => exact .inr (.inr ⟨_, _, rfl, .inl rfl⟩)
    | false => exact .inr (.inl rfl)
  | finite negative rank =>
    refine .inr (.inr ?_)
    rw [toText_finite]
    cases negative with
    | true => exact ⟨_, _, rfl, .inl rfl⟩
    | false =>
      obtain ⟨c, cs, hchars, hdigit⟩ := Numeral.Shape.exists_chars_eq (shape_isProper rank)
      exact ⟨CodePoint.ofChar c, Text.ofChars cs, congrArg Text.ofChars hchars, .inr (Char.isDigit_iff_toNat.mp hdigit)⟩

end Double

namespace Numeral

theorem isWordPoint_of_isMark {c : Char} (h : isMark c = true) : (CodePoint.ofChar c).IsWordPoint := by
  simp only [isMark, Bool.or_eq_true, decide_eq_true_eq] at h
  rcases h with (((hdigit | rfl) | rfl) | rfl) | rfl
  · exact .inr (.inr (.inr (.inl (Char.isDigit_iff_toNat.mp hdigit))))
  · exact .inr (.inr (.inl rfl))
  · exact .inr (.inr (.inr (.inr (by decide))))
  · exact .inl rfl
  · exact .inr (.inl rfl)

end Numeral

namespace Json

variable {j j' : Json} {n n' : Num} {t : Text} {p : CodePoint}

def booleanText (b : Bool) : Text := if b then "true" else "false"

/-- The text of null, a boolean or a number. -/
def word? : Json → Option Text
  | null => some "null"
  | boolean b => some (booleanText b)
  | number n => some (numberText n)
  | _ => none

theorem word?_cases (h : j.word? = some t) : j = null ∨ (∃ b, j = boolean b) ∨ ∃ n, j = number n := by
  cases j with
  | null => exact .inl rfl
  | boolean b => exact .inr (.inl ⟨b, rfl⟩)
  | number n => exact .inr (.inr ⟨n, rfl⟩)
  | _ => cases h

theorem numberText_cases (n : Num) :
    numberText n = "nan" ∨ numberText n = "inf" ∨ ∃ p t, numberText n = p :: t ∧ p.IsIntegerPoint := by
  cases n with
  | int i =>
    obtain ⟨p, t, htext⟩ := List.exists_cons_of_ne_nil (Text.ofInt_ne_nil i)
    exact .inr (.inr ⟨p, t, htext, Text.isIntegerPoint_of_mem_ofInt (htext ▸ List.mem_cons_self)⟩)
  | float x => exact x.toText_cases

theorem numberText_injective (h : numberText n = numberText n') : n = n' := by
  have hapart {i : Int} {x : Double} : Text.ofInt i ≠ x.toText := by
    intro heq
    obtain ⟨p, hp, hpoint⟩ := x.exists_mem_toText
    exact hpoint (Text.isIntegerPoint_of_mem_ofInt (heq ▸ hp))
  cases n with
  | int i =>
    cases n' with
    | int i' => exact congrArg Num.int (Text.ofInt_injective h)
    | float x' => exact absurd h hapart
  | float x =>
    cases n' with
    | int i' => exact absurd h.symm hapart
    | float x' => exact congrArg Num.float (Double.toText_injective h)

theorem isWordPoint_of_mem_ofChars (cs : List Char) (hcs : (cs.all fun c ↦ c == '-' || c.isLower) = true)
    (h : p ∈ Text.ofChars cs) : p.IsWordPoint := by
  obtain ⟨c, hc, rfl⟩ := List.mem_map.mp h
  rcases Bool.or_eq_true_iff.mp (List.all_eq_true.mp hcs c hc) with hminus | hlower
  · rw [eq_of_beq hminus]
    exact .inr (.inl rfl)
  · obtain ⟨ha, hz⟩ := Bool.and_eq_true_iff.mp hlower
    have hlow := UInt32.le_iff_toNat_le.mp (of_decide_eq_true ha)
    have hhigh := UInt32.le_iff_toNat_le.mp (of_decide_eq_true hz)
    exact .inr (.inr (.inr (.inr ⟨hlow, hhigh⟩)))

theorem isWordPoint_of_mem_numberText (h : p ∈ numberText n) : p.IsWordPoint := by
  cases n with
  | int i =>
    rcases Text.isIntegerPoint_of_mem_ofInt h with h | h
    · exact .inr (.inl h)
    · exact .inr (.inr (.inr (.inl h)))
  | float x =>
    cases x with
    | nan => exact isWordPoint_of_mem_ofChars ['n', 'a', 'n'] rfl h
    | infinite negative =>
      cases negative with
      | true => exact isWordPoint_of_mem_ofChars ['-', 'i', 'n', 'f'] rfl h
      | false => exact isWordPoint_of_mem_ofChars ['i', 'n', 'f'] rfl h
    | finite negative rank =>
      rw [numberText, Double.toText_finite] at h
      obtain ⟨c, hc, rfl⟩ := List.mem_map.mp h
      exact Numeral.isWordPoint_of_isMark (Numeral.Shape.isMark_of_mem_signed (Double.shape_isProper rank) negative c hc)

theorem isWordPoint_of_mem_word? (h : j.word? = some t) (hp : p ∈ t) : p.IsWordPoint := by
  obtain rfl | ⟨b, rfl⟩ | ⟨n, rfl⟩ := word?_cases h
  · cases h
    exact isWordPoint_of_mem_ofChars ['n', 'u', 'l', 'l'] rfl hp
  · cases h
    cases b with
    | true => exact isWordPoint_of_mem_ofChars ['t', 'r', 'u', 'e'] rfl hp
    | false => exact isWordPoint_of_mem_ofChars ['f', 'a', 'l', 's', 'e'] rfl hp
  · cases h
    exact isWordPoint_of_mem_numberText hp

theorem word?_ne_nil (h : j.word? = some t) : t ≠ [] := by
  obtain rfl | ⟨b, rfl⟩ | ⟨n, rfl⟩ := word?_cases h
  · cases h
    exact List.cons_ne_nil _ _
  · cases h
    cases b with
    | true => exact List.cons_ne_nil _ _
    | false => exact List.cons_ne_nil _ _
  · cases h
    rcases numberText_cases n with h | h | ⟨p, t, h, -⟩
    · exact h ▸ List.cons_ne_nil _ _
    · exact h ▸ List.cons_ne_nil _ _
    · exact h ▸ List.cons_ne_nil _ _

theorem numberText_ne {t : Text} (hp : ¬ p.IsIntegerPoint) (hnan : Text.ofString "nan" ≠ p :: t)
    (hinf : Text.ofString "inf" ≠ p :: t) :
    numberText n ≠ p :: t := by
  intro htext
  rcases numberText_cases n with h | h | ⟨q, u, h, hq⟩
  · exact hnan (h.symm.trans htext)
  · exact hinf (h.symm.trans htext)
  · obtain ⟨rfl, -⟩ := List.cons.inj (h.symm.trans htext)
    exact hp hq

theorem numberText_ne_words (n : Num) : numberText n ≠ "null" ∧ ∀ b, numberText n ≠ booleanText b := by
  have hletter (c : Char) (hc : 97 ≤ c.toNat) : ¬ (CodePoint.ofChar c).IsIntegerPoint := by
    have hval : (CodePoint.ofChar c).val = c.toNat := rfl
    unfold CodePoint.IsIntegerPoint
    omega
  refine ⟨numberText_ne (hletter 'n' (by decide)) (by decide) (by decide), fun b ↦ ?_⟩
  cases b with
  | true => exact numberText_ne (hletter 't' (by decide)) (by decide) (by decide)
  | false => exact numberText_ne (hletter 'f' (by decide)) (by decide) (by decide)

theorem word?_injective (h : j.word? = some t) (h' : j'.word? = some t) : j = j' := by
  have hnull : ∀ b, Text.ofString "null" ≠ booleanText b := by decide
  have hboolean : ∀ b b', booleanText b = booleanText b' → b = b' := by decide
  obtain rfl | ⟨b, rfl⟩ | ⟨n, rfl⟩ := word?_cases h
  all_goals obtain rfl | ⟨b', rfl⟩ | ⟨n', rfl⟩ := word?_cases h'
  · rfl
  · exact absurd (Option.some.inj (h.trans h'.symm)) (hnull b')
  · exact absurd (Option.some.inj (h'.trans h.symm)) (numberText_ne_words n').1
  · exact absurd (Option.some.inj (h'.trans h.symm)) (hnull b)
  · exact congrArg boolean (hboolean b b' (Option.some.inj (h.trans h'.symm)))
  · exact absurd (Option.some.inj (h'.trans h.symm)) ((numberText_ne_words n').2 b)
  · exact absurd (Option.some.inj (h.trans h'.symm)) (numberText_ne_words n).1
  · exact absurd (Option.some.inj (h.trans h'.symm)) ((numberText_ne_words n).2 b')
  · exact congrArg number (numberText_injective (Option.some.inj (h.trans h'.symm)))

end Json

end Stepwise
