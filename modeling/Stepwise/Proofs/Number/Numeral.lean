import Stepwise.Heap
import Mathlib.Data.List.Basic
/-!
Numerals of natural numbers. A text of digits is the numeral of a number exactly if all of its digits are decimal ones, of
whatever scripts; among the numerals of a number is the text that the number is written as.
-/

namespace Stepwise

namespace Text

variable {p : CodePoint} {t : Text} {d : Nat}

/-- The number that has the digits of a text, if all of them are decimal digits. -/
def decimal? (t : Text) : Option Nat := (t.mapM decimalDigit?).map fun ds ↦ ds.foldl (fun n d ↦ n * 10 + d) 0

theorem exists_start_of_decimalDigit? (h : decimalDigit? p = some d) :
    ∃ start ∈ decimalRuns, p.val = start + d ∧ d < 10 := by
  obtain ⟨start, hfind, rfl⟩ := Option.map_eq_some_iff.mp h
  have hrun := List.find?_some hfind
  simp only [Bool.and_eq_true, decide_eq_true_eq] at hrun
  exact ⟨start, List.mem_of_find?_eq_some hfind, by omega, by omega⟩

theorem decimalDigit?_of_ascii (h : 48 ≤ p.val ∧ p.val < 58) : decimalDigit? p = some (p.val - 48) := by
  have hfind : decimalRuns.find? (fun start ↦ start ≤ p.val && p.val < start + 10) = some 48 := by
    apply List.find?_cons_of_pos
    simp only [Bool.and_eq_true, decide_eq_true_eq]
    omega
  rw [decimalDigit?, hfind, Option.map_some]

theorem isBlank_of_isDigit (h : isDigit p = true) : isBlank p = false := by
  have hruns : ∀ start ∈ decimalRuns, ∀ r ∈ blankRanges, start + 9 < r.1 ∨ r.2 < start := by decide
  have hothers : ∀ r ∈ otherDigitRanges, ∀ r' ∈ blankRanges, r.2 < r'.1 ∨ r'.2 < r.1 := by decide
  apply List.any_eq_false.mpr
  intro r hr
  simp only [Bool.and_eq_true, decide_eq_true_eq, not_and, Nat.not_le]
  intro hlow
  rcases Bool.or_eq_true_iff.mp h with hdecimal | hother
  · obtain ⟨d, hd⟩ := Option.isSome_iff_exists.mp hdecimal
    obtain ⟨start, hstart, hp, hlt⟩ := exists_start_of_decimalDigit? hd
    have := hruns start hstart r hr
    omega
  · obtain ⟨r', hr', hp⟩ := List.any_eq_true.mp hother
    simp only [Bool.and_eq_true, decide_eq_true_eq] at hp
    have := hothers r' hr' r hr
    omega

end Text

namespace Numeral

open Text

variable {p : CodePoint} {t : Text} {d : Nat}

/-- The character that a code point is in a numeral. -/
def figure (p : CodePoint) : Char :=
  if p.isAscii then Char.ofNat p.val
  else match decimalDigit? p with
    | some d => Char.ofNat (48 + d)
    | none => '?'

theorem figure_of_decimalDigit? (h : decimalDigit? p = some d) : figure p = Char.ofNat (48 + d) := by
  obtain ⟨start, hstart, hp, -⟩ := exists_start_of_decimalDigit? h
  have hfirst : ∀ start ∈ decimalRuns, start < 128 → start = 48 := by decide
  unfold figure
  split
  next hascii =>
    have hlt : p.val < 128 := of_decide_eq_true hascii
    rw [hp, hfirst start hstart (by omega)]
  next => rw [h]

theorem figure_of_decimalDigit?_eq_none (hdigit : isDigit p = true) (h : decimalDigit? p = none) : figure p = '?' := by
  have hothers : ∀ r ∈ otherDigitRanges, 128 ≤ r.1 := by decide
  have hother : inRanges otherDigitRanges p.val = true := by simpa [isDigit, h] using hdigit
  obtain ⟨r, hr, hp⟩ := List.any_eq_true.mp hother
  simp only [Bool.and_eq_true, decide_eq_true_eq] at hp
  have hascii : ¬ p.isAscii = true := by
    have := hothers r hr
    simp only [CodePoint.isAscii, decide_eq_true_eq]
    omega
  rw [figure, if_neg hascii, h]

theorem dropMargins_cons {margin : CodePoint → Bool} (h : margin p = false) (u : Text) :
    (((p :: u).dropWhile margin).reverse.dropWhile margin).reverse = p :: (u.reverse.dropWhile margin).reverse := by
  have hkeep (ps : Text) : (p :: ps).dropWhile margin = p :: ps := by
    apply List.dropWhile_cons_of_neg
    rw [h]
    exact Bool.false_ne_true
  rw [hkeep, List.reverse_cons, List.dropWhile_append, hkeep]
  cases u.reverse.dropWhile margin with
  | nil => rfl
  | cons q v => rw [if_neg (by simp), List.reverse_append, List.reverse_singleton, List.singleton_append]

theorem isMargin_of_isDigit (ascii : Bool) (h : isDigit p = true) : isMargin ascii p = false := by
  have hblank := isBlank_of_isDigit h
  cases ascii with
  | false => exact hblank
  | true =>
    -- what surrounds a text of ASCII characters is white space
    have hranges : ∀ n, ((9 ≤ n && n ≤ 13) || n == 32) = true → inRanges blankRanges n = true := by
      intro n hn
      simp only [Bool.or_eq_true, Bool.and_eq_true, decide_eq_true_eq, beq_iff_eq] at hn
      apply List.any_eq_true.mpr
      rcases hn with hn | hn
      · exact ⟨(9, 13), by decide, by simpa using hn⟩
      · exact ⟨(28, 32), by decide, by simp [hn]⟩
    by_contra hmargin
    rw [Bool.not_eq_false] at hmargin
    exact Bool.false_ne_true (hblank.symm.trans (hranges p.val hmargin))

/-- Where nothing surrounds a numeral, every code point is one of its characters. -/
theorem characters_of_isMargin (h : ∀ p ∈ t, ∀ ascii, isMargin ascii p = false) : characters t = t.map figure := by
  have hdrop (ascii : Bool) (u : Text) (hu : ∀ p ∈ u, ∀ ascii, isMargin ascii p = false) : u.dropWhile (isMargin ascii) = u := by
    cases u with
    | nil => rfl
    | cons p u =>
      apply List.dropWhile_cons_of_neg
      rw [hu p List.mem_cons_self ascii]
      exact Bool.false_ne_true
  have hreverse : ∀ p ∈ t.reverse, ∀ ascii, isMargin ascii p = false := fun p hp ↦ h p (List.mem_reverse.mp hp)
  unfold characters
  dsimp only
  rw [hdrop _ t h, hdrop _ _ hreverse, List.reverse_reverse]
  rfl

theorem characters_of_isDigit (h : ∀ p ∈ t, isDigit p = true) : characters t = t.map figure :=
  characters_of_isMargin fun p hp ascii ↦ isMargin_of_isDigit ascii (h p hp)

theorem characters_ofChars {cs : List Char} (h : ∀ c ∈ cs, 32 < c.toNat ∧ c.toNat < 128) : characters (ofChars cs) = cs := by
  have hval (c : Char) : (CodePoint.ofChar c).val = c.toNat := rfl
  have hmargin : ∀ p ∈ ofChars cs, ∀ ascii, isMargin ascii p = false := by
    refine List.forall_mem_map.mpr fun c hc ascii ↦ ?_
    obtain ⟨hlow, hhigh⟩ := h c hc
    have hranges : ∀ r ∈ blankRanges, r.2 ≤ 32 ∨ 128 ≤ r.1 := by decide
    cases ascii with
    | true =>
      simp only [isMargin, hval, if_true, Bool.or_eq_false_iff, Bool.and_eq_false_iff, decide_eq_false_iff_not]
      omega
    | false =>
      refine List.any_eq_false.mpr fun r hr ↦ ?_
      have := hranges r hr
      rw [Bool.and_eq_true, decide_eq_true_eq, decide_eq_true_eq, hval]
      omega
  have hfigure : ∀ c ∈ cs, figure (CodePoint.ofChar c) = c := fun c hc ↦
    (if_pos (decide_eq_true (h c hc).2)).trans (Char.ofNat_toNat c)
  rw [characters_of_isMargin hmargin, ofChars, List.map_map]
  exact (List.map_congr_left hfigure).trans (List.map_id cs)

/-- Digits are read one by one, and the first that is no decimal digit spoils the numeral. -/
theorem digitsFrom?_map_figure (behindDigit : Bool) (n : Nat) (h : ∀ p ∈ t, isDigit p = true)
    (hempty : t = [] → behindDigit = true) : digitsFrom? 10 behindDigit n (t.map figure) =
      (t.mapM decimalDigit?).map fun ds ↦ ds.foldl (fun n d ↦ n * 10 + d) n := by
  have hvalue : ∀ d < 10, Char.ofNat (48 + d) ≠ '_' ∧ (digitValue? (Char.ofNat (48 + d))).filter (· < 10) = some d := by
    decide
  induction t generalizing behindDigit n with
  | nil =>
    rw [hempty rfl]
    rfl
  | cons p t ih =>
    rw [List.map_cons, List.mapM_cons]
    have hrest (n : Nat) := ih true n (fun q hq ↦ h q (List.mem_cons_of_mem p hq)) fun _ ↦ rfl
    cases hp : decimalDigit? p with
    | some d =>
      obtain ⟨start, -, -, hlt⟩ := exists_start_of_decimalDigit? hp
      obtain ⟨hmark, hd⟩ := hvalue d hlt
      rw [figure_of_decimalDigit? hp, digitsFrom?, hd]
      · dsimp only
        rw [hrest]
        cases t.mapM decimalDigit? <;> rfl
      · exact hmark
    | none =>
      rw [figure_of_decimalDigit?_eq_none (h p List.mem_cons_self) hp]
      rfl

theorem integer?_of_isDigits (h : isDigits t = true) : integer? t = t.decimal?.map fun n ↦ (n : Int) := by
  have hdigits : ∀ p ∈ t, isDigit p = true := by
    intro p hp
    simp only [isDigits, Bool.and_eq_true, List.all_eq_true] at h
    exact h.2 p hp
  obtain ⟨p, u, rfl⟩ : ∃ p u, t = p :: u := by
    apply List.exists_cons_of_ne_nil
    rintro rfl
    cases h
  have hread := digitsFrom?_map_figure false 0 hdigits fun hnil ↦ absurd hnil (List.cons_ne_nil p u)
  -- what comes first is not a sign
  have hsign : figure p ≠ '-' ∧ figure p ≠ '+' := by
    cases hp : decimalDigit? p with
    | some d =>
      have hvalue : ∀ d < 10, Char.ofNat (48 + d) ≠ '-' ∧ Char.ofNat (48 + d) ≠ '+' := by decide
      obtain ⟨start, -, -, hlt⟩ := exists_start_of_decimalDigit? hp
      rw [figure_of_decimalDigit? hp]
      exact hvalue d hlt
    | none =>
      rw [figure_of_decimalDigit?_eq_none (hdigits p List.mem_cons_self) hp]
      decide
  rw [integer?, characters_of_isDigit hdigits, List.map_cons, signed?]
  · rw [← List.map_cons, digits?, hread]
    rfl
  · intro cs hcs
    exact hsign.1 (List.cons.inj hcs).1
  · intro cs hcs
    exact hsign.2 (List.cons.inj hcs).1

end Numeral

namespace Text

theorem decimalDigit?_ofChar {c : Char} (h : c.isDigit = true) :
    decimalDigit? (CodePoint.ofChar c) = some (c.toNat - 48) := by
  obtain ⟨hlow, hhigh⟩ := Char.isDigit_iff_toNat.mp h
  apply decimalDigit?_of_ascii
  exact ⟨hlow, Nat.lt_succ_of_le hhigh⟩

theorem mapM_decimalDigit?_ofChars {cs : List Char} (h : ∀ c ∈ cs, c.isDigit = true) :
    (ofChars cs).mapM decimalDigit? = some (cs.map fun c ↦ c.toNat - 48) := by
  induction cs with
  | nil => rfl
  | cons c cs ih =>
    obtain ⟨hc, hcs⟩ := List.forall_mem_cons.mp h
    rw [ofChars, List.map_cons, List.mapM_cons, decimalDigit?_ofChar hc]
    simp only [Option.bind_eq_bind, Option.bind_some]
    rw [← ofChars, ih hcs]
    rfl

theorem decimal?_ofNat (n : Nat) : (ofNat n).decimal? = some n := by
  have hdigits : ∀ c ∈ Nat.toDigits 10 n, c.isDigit = true := fun c hc ↦
    Nat.isDigit_of_mem_toDigits (by omega) (by omega) hc
  rw [decimal?, ofNat, mapM_decimalDigit?_ofChars hdigits, Option.map_some, List.foldl_map, Option.some_inj]
  calc
    _ = Nat.ofDigitChars 10 (Nat.toDigits 10 n) 0 := by
      rw [Nat.ofDigitChars_eq_foldl]
      simp only [Nat.mul_comm]
      rfl
    _ = n := Nat.ofDigitChars_ten_toDigits

theorem isDigits_ofNat (n : Nat) : (ofNat n).isDigits = true := by
  simp only [isDigits, ofNat, ofChars, List.isEmpty_map, List.all_map, Bool.and_eq_true, Bool.not_eq_true',
    List.isEmpty_eq_false_iff, List.all_eq_true, Function.comp_apply]
  refine ⟨Nat.toDigits_ne_nil, fun c hc ↦ ?_⟩
  have hdigit := decimalDigit?_ofChar (Nat.isDigit_of_mem_toDigits (by omega) (by omega) hc)
  rw [isDigit, hdigit]
  rfl

end Text

theorem Num.ofText_f (u : Text) : ofText (CodePoint.ofChar 'f' :: u) = .float .nan := by
  have htrim : ∃ v : Text, Text.trim (CodePoint.ofChar 'f' :: u) = CodePoint.ofChar 'f' :: v :=
    ⟨_, Numeral.dropMargins_cons rfl u⟩
  have hcharacters (v : Text) : ∃ cs, Numeral.characters (CodePoint.ofChar 'f' :: v) = 'f' :: cs := by
    unfold Numeral.characters
    dsimp only
    rw [Numeral.dropMargins_cons]
    · exact ⟨_, rfl⟩
    · cases List.all (CodePoint.ofChar 'f' :: v) CodePoint.isAscii <;> rfl
  obtain ⟨v, hv⟩ := htrim
  obtain ⟨cs, hcs⟩ := hcharacters v
  have hinteger : Numeral.integer? (CodePoint.ofChar 'f' :: v) = none := by
    rw [Numeral.integer?, hcs]
    rfl
  have hreal : Numeral.real? (CodePoint.ofChar 'f' :: v) = none := by
    rw [Numeral.real?, hcs]
    change ((Numeral.withoutUnderscores? 'f' cs).map ('f' :: ·)).bind _ = none
    cases Numeral.withoutUnderscores? 'f' cs with
    | none => rfl
    | some ds =>
      rw [Option.map_some, Option.bind_some]
      rfl
  unfold ofText
  dsimp only
  rw [hv, hinteger, hreal]
  rfl

end Stepwise
