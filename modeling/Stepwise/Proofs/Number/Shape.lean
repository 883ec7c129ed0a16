import Stepwise.Proofs.Number.Shortest
/-!
Numerals by their parts. Digits, with a point and an exponent or without, are read as the double that is nearest to the value
of their parts.
-/

namespace Stepwise

namespace Numeral

variable {cs : List Char}

theorem figure_ofChar {c : Char} (h : c.isDigit = true) : figure (CodePoint.ofChar c) = c := by
  obtain ⟨hlow, -⟩ := Char.isDigit_iff_toNat.mp h
  have hvalue : 48 + (c.toNat - 48) = c.toNat := Nat.add_sub_cancel' hlow
  rw [figure_of_decimalDigit? (Text.decimalDigit?_ofChar h), hvalue, Char.ofNat_toNat]

theorem isDigit_ofChar {c : Char} (h : c.isDigit = true) : Text.isDigit (CodePoint.ofChar c) = true := by
  rw [Text.isDigit, Text.decimalDigit?_ofChar h]
  rfl

theorem digits?_of_isDigit (h : ∀ c ∈ cs, c.isDigit = true) (hne : cs ≠ []) :
    digits? 10 cs = some (Nat.ofDigitChars 10 cs 0) := by
  have hfigures : (Text.ofChars cs).map figure = cs := by
    rw [Text.ofChars, List.map_map]
    exact (List.map_congr_left fun c hc ↦ figure_ofChar (h c hc)).trans (List.map_id cs)
  have hdigits : ∀ p ∈ Text.ofChars cs, Text.isDigit p = true := List.forall_mem_map.mpr fun c hc ↦ isDigit_ofChar (h c hc)
  have hread := digitsFrom?_map_figure false 0 hdigits fun hnil ↦ absurd (List.map_eq_nil_iff.mp hnil) hne
  rw [hfigures, Text.mapM_decimalDigit?_ofChars h, Option.map_some, List.foldl_map] at hread
  rw [digits?, hread, Nat.ofDigitChars_eq_foldl]
  simp only [Nat.mul_comm]
  rfl

/-- The parts of a numeral: the digits before the point and behind it, and the sign and the digits of an exponent. -/
structure Shape where
  whole : List Char
  fraction? : Option (List Char)
  power? : Option (Bool × List Char)

namespace Shape

variable {s : Shape}

def fraction (s : Shape) : List Char := s.fraction?.getD []

def pointed (s : Shape) : List Char := s.fraction?.elim [] ('.' :: ·)

def powered (s : Shape) : List Char := s.power?.elim [] fun p ↦ 'e' :: (if p.1 then '-' else '+') :: p.2

def chars (s : Shape) : List Char := s.whole ++ (s.pointed ++ s.powered)

def power (s : Shape) : Int :=
  s.power?.elim 0 fun p ↦ if p.1 then -(Nat.ofDigitChars 10 p.2 0 : Int) else Nat.ofDigitChars 10 p.2 0

def value (s : Shape) : Decimal := ⟨Nat.ofDigitChars 10 (s.whole ++ s.fraction) 0, s.power - s.fraction.length⟩

structure IsProper (s : Shape) : Prop where
  whole : ∀ c ∈ s.whole, c.isDigit = true
  fraction : ∀ c ∈ s.fraction, c.isDigit = true
  power : ∀ p, s.power? = some p → p.2 ≠ [] ∧ ∀ c ∈ p.2, c.isDigit = true
  whole_ne_nil : s.whole ≠ []

theorem takeWhile_digits {rest : List Char} (h : ∀ c ∈ cs, c.isDigit = true) (hrest : rest.takeWhile Char.isDigit = []) :
    (cs ++ rest).takeWhile Char.isDigit = cs := by
  rw [List.takeWhile_append_of_pos h, hrest, List.append_nil]

theorem dropWhile_digits {rest : List Char} (h : ∀ c ∈ cs, c.isDigit = true) (hrest : rest.dropWhile Char.isDigit = rest) :
    (cs ++ rest).dropWhile Char.isDigit = rest := by
  rw [List.dropWhile_append_of_pos h, hrest]

theorem foldl_eq (cs : List Char) : cs.foldl (fun n c ↦ n * 10 + (c.toNat - 48)) 0 = Nat.ofDigitChars 10 cs 0 := by
  rw [Nat.ofDigitChars_eq_foldl]
  simp only [Nat.mul_comm]
  rfl

theorem signed?_power (negative : Bool) {figures : List Char} (hne : figures ≠ []) (h : ∀ c ∈ figures, c.isDigit = true) :
    signed? (digits? 10) ((if negative then '-' else '+') :: figures) =
      some (if negative then -(Nat.ofDigitChars 10 figures 0 : Int) else Nat.ofDigitChars 10 figures 0) := by
  have hread := digits?_of_isDigit h hne
  cases negative with
  | true =>
    rw [if_pos rfl, if_pos rfl, signed?, hread]
    rfl
  | false =>
    rw [if_neg Bool.false_ne_true, if_neg Bool.false_ne_true, signed?, hread]
    rfl

theorem takeWhile_powered (s : Shape) : s.powered.takeWhile Char.isDigit = [] := by
  unfold powered
  cases s.power? <;> rfl

theorem dropWhile_powered (s : Shape) : s.powered.dropWhile Char.isDigit = s.powered := by
  unfold powered
  cases s.power? <;> rfl

theorem takeWhile_tail (s : Shape) : (s.pointed ++ s.powered).takeWhile Char.isDigit = [] := by
  unfold pointed
  cases s.fraction? with
  | none => exact s.takeWhile_powered
  | some fraction => rfl

theorem dropWhile_tail (s : Shape) : (s.pointed ++ s.powered).dropWhile Char.isDigit = s.pointed ++ s.powered := by
  unfold pointed
  cases s.fraction? with
  | none => exact s.dropWhile_powered
  | some fraction => rfl

/-- What comes of the digits and the number of places behind the point, with what follows them. -/
def ending? (value places : Nat) : List Char → Option Decimal
  | [] => some ⟨value, -places⟩
  | e :: power =>
    if e = 'e' || e = 'E' then
      let figures := match power with
        | '+' :: r | '-' :: r => r
        | r => r
      if figures.isEmpty || !figures.all Char.isDigit then none
      else (signed? (digits? 10) power).map fun p ↦ ⟨value, p - places⟩
    else none

theorem decimal?_chars_eq (h : s.IsProper) :
    decimal? s.chars = ending? (Nat.ofDigitChars 10 (s.whole ++ s.fraction) 0) s.fraction.length s.powered := by
  have hempty : s.whole.isEmpty = false := List.isEmpty_eq_false_iff.mpr h.whole_ne_nil
  have htake := takeWhile_digits h.fraction s.takeWhile_powered
  have hdrop := dropWhile_digits h.fraction s.dropWhile_powered
  unfold decimal?
  rw [chars, takeWhile_digits h.whole s.takeWhile_tail, dropWhile_digits h.whole s.dropWhile_tail]
  obtain ⟨whole, fraction?, power?⟩ := s
  cases fraction? with
  | none =>
    cases power? with
    | none =>
      simp only [pointed, powered, fraction, foldl_eq, Option.elim_none, Option.getD_none, List.append_nil, hempty,
        Bool.false_and, Bool.false_eq_true, if_false]
      rfl
    | some p =>
      simp only [pointed, powered, fraction, foldl_eq, Option.elim_none, Option.elim_some, List.nil_append, hempty,
        Bool.false_and, Bool.false_eq_true, if_false]
      rfl
  | some digits =>
    simp only [pointed, fraction, foldl_eq, Option.getD_some, Option.elim_some, List.cons_append] at htake hdrop ⊢
    rw [htake, hdrop]
    simp only [hempty, Bool.false_and, Bool.false_eq_true, if_false]
    rfl

theorem ending?_powered (h : s.IsProper) (value places : Nat) :
    ending? value places s.powered = some ⟨value, s.power - places⟩ := by
  obtain ⟨whole, fraction?, power?⟩ := s
  cases power? with
  | none => simp only [ending?, powered, power, Option.elim_none, Int.zero_sub]
  | some p =>
    obtain ⟨negative, figures⟩ := p
    obtain ⟨hne, hdigits⟩ := h.power _ rfl
    have hfigures : (figures.isEmpty || !figures.all Char.isDigit) = false := by
      rw [List.isEmpty_eq_false_iff.mpr hne, List.all_eq_true.mpr hdigits]
      rfl
    have hvalue : (if (figures.isEmpty || !figures.all Char.isDigit) = true then none
        else (signed? (digits? 10) ((if negative then '-' else '+') :: figures)).map fun e ↦ Decimal.mk value (e - places)) =
          some ⟨value, power ⟨whole, fraction?, some (negative, figures)⟩ - places⟩ := by
      rw [signed?_power negative hne hdigits, hfigures]
      rfl
    cases negative with
    | true => exact hvalue
    | false => exact hvalue

theorem decimal?_chars (h : s.IsProper) : decimal? s.chars = some s.value := by
  rw [decimal?_chars_eq h, ending?_powered h, value]

end Shape

/-- The characters that numerals are written with. -/
def isMark (c : Char) : Bool := c.isDigit || c = '.' || c = 'e' || c = '+' || c = '-'

theorem isMark_of_isDigit {c : Char} (h : c.isDigit = true) : isMark c = true := by
  simp only [isMark, h, Bool.true_or]

theorem Shape.isMark_of_mem_chars {s : Shape} (h : s.IsProper) : ∀ c ∈ s.chars, isMark c = true := by
  have hdigits {cs : List Char} (hcs : ∀ c ∈ cs, c.isDigit = true) : ∀ c ∈ cs, isMark c = true :=
    fun c hc ↦ isMark_of_isDigit (hcs c hc)
  obtain ⟨whole, fraction?, power?⟩ := s
  refine List.forall_mem_append.mpr ⟨hdigits h.whole, List.forall_mem_append.mpr ⟨?_, ?_⟩⟩
  · cases fraction? with
    | none => exact List.forall_mem_nil _
    | some fraction => exact List.forall_mem_cons.mpr ⟨rfl, hdigits h.fraction⟩
  · cases power? with
    | none => exact List.forall_mem_nil _
    | some p =>
      refine List.forall_mem_cons.mpr ⟨rfl, List.forall_mem_cons.mpr ⟨?_, hdigits (h.power p rfl).2⟩⟩
      split <;> rfl

/-- Marks are ASCII characters other than blanks and underscores. -/
theorem val_of_isMark {c : Char} (h : isMark c = true) : 43 ≤ c.toNat ∧ c.toNat ≤ 57 ∨ c.toNat = 101 := by
  simp only [isMark, Bool.or_eq_true, decide_eq_true_eq] at h
  rcases h with (((hdigit | rfl) | rfl) | rfl) | rfl
  · have := Char.isDigit_iff_toNat.mp hdigit
    have hzero : '0'.toNat = 48 := rfl
    have hnine : '9'.toNat = 57 := rfl
    omega
  all_goals decide

theorem withoutUnderscores?_of_notMem {previous : Char} (hprevious : previous ≠ '_') (h : ∀ c ∈ cs, c ≠ '_') :
    withoutUnderscores? previous cs = some cs := by
  induction cs generalizing previous with
  | nil => rw [withoutUnderscores?, if_neg hprevious]
  | cons c cs ih =>
    obtain ⟨hc, hcs⟩ := List.forall_mem_cons.mp h
    rw [withoutUnderscores?, ih hc hcs]
    · simp [hprevious]
    · exact hc

/-- A numeral with a sign. -/
def Shape.signed (negative : Bool) (s : Shape) : List Char := (if negative then ['-'] else []) ++ s.chars

theorem Shape.isMark_of_mem_signed {s : Shape} (h : s.IsProper) (negative : Bool) :
    ∀ c ∈ s.signed negative, isMark c = true := by
  refine List.forall_mem_append.mpr ⟨?_, isMark_of_mem_chars h⟩
  cases negative with
  | true => exact List.forall_mem_singleton.mpr rfl
  | false => exact List.forall_mem_nil _

theorem Shape.exists_chars_eq {s : Shape} (h : s.IsProper) : ∃ c cs, s.chars = c :: cs ∧ c.isDigit = true := by
  obtain ⟨whole, fraction?, power?⟩ := s
  obtain ⟨c, cs, rfl⟩ := List.exists_cons_of_ne_nil h.whole_ne_nil
  exact ⟨c, _, rfl, h.whole c List.mem_cons_self⟩

theorem toLower_of_isDigit {c : Char} (h : c.isDigit = true) : c.toLower = c := by
  obtain ⟨-, hhigh⟩ := Char.isDigit_iff_toNat.mp h
  have hnine : '9'.toNat = 57 := rfl
  apply dif_neg
  rintro ⟨hlow, -⟩
  have hletter : 65 ≤ c.toNat := hlow
  omega

/-- What starts with a digit is no word. -/
theorem map_toLower_ne {c : Char} (hdigit : c.isDigit = true) (word : String)
    (hword : (word.toList.head?.any Char.isDigit) = false) : (c :: cs).map Char.toLower ≠ word.toList := by
  intro heq
  rw [← heq, List.map_cons, toLower_of_isDigit hdigit, List.head?_cons, Option.any_some, hdigit] at hword
  cases hword

/-- A numeral is read as the double nearest to the value of its parts. -/
theorem real?_signed {s : Shape} (h : s.IsProper) (negative : Bool) :
    real? (.ofChars (s.signed negative)) = some (s.value.toDouble negative) := by
  have hmarks := Shape.isMark_of_mem_signed h negative
  have hplain : ∀ c ∈ s.signed negative, c ≠ '_' := by
    rintro c hc rfl
    cases hmarks _ hc
  obtain ⟨c, cs, hchars, hdigit⟩ := Shape.exists_chars_eq h
  have hdecimal := Shape.decimal?_chars h
  rw [hchars] at hdecimal
  have hread : (if (decide ((c :: cs).map Char.toLower = "inf".toList) ||
      decide ((c :: cs).map Char.toLower = "infinity".toList)) = true then some (Double.infinite negative)
      else if (c :: cs).map Char.toLower = "nan".toList then some Double.nan
      else (decimal? (c :: cs)).map (Decimal.toDouble negative)) = some (s.value.toDouble negative) := by
    rw [hdecimal, decide_eq_false (map_toLower_ne hdigit "inf" rfl), decide_eq_false (map_toLower_ne hdigit "infinity" rfl),
      if_neg (by decide), if_neg (map_toLower_ne hdigit "nan" rfl)]
    rfl
  have hcharacters : characters (.ofChars (s.signed negative)) = s.signed negative := by
    refine characters_ofChars fun c hc ↦ ?_
    have := val_of_isMark (hmarks c hc)
    omega
  rw [real?, hcharacters, withoutUnderscores?_of_notMem (by decide) hplain, Shape.signed, hchars]
  cases negative with
  | true => exact hread
  | false =>
    simp only [Bool.false_eq_true, if_false, List.nil_append, Option.bind_eq_bind, Option.bind_some]
    split
    next heq =>
      cases heq
      cases hdigit
    next heq =>
      cases heq
      cases hdigit
    next => exact hread

end Numeral

end Stepwise
