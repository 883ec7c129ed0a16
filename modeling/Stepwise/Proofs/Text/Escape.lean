import Stepwise.Text.Escape
import Stepwise.Proofs.Number.Hexadecimal
/-!
Escapes and what they are written for. Every way to write a code point behind a backslash is decoded to this code point, and a
line break behind a backslash to nothing.
-/

namespace Stepwise.Text

open Numeral

/-- The letters that stand for control characters, and the digit that stands for the null character. -/
def letters : List (Char × Char) :=
  [('n', '\n'), ('t', '\t'), ('r', '\r'), ('b', '\x08'), ('f', '\x0c'), ('v', '\x0b'), ('0', '\x00')]

/-- The ways to write a code point behind a backslash. -/
inductive Names : List Char → CodePoint → Prop
  | bracketed {digits : List Char} {p : CodePoint} : Writes digits p.val → Names ('u' :: '\x7b' :: (digits ++ ['\x7d'])) p
  | four {digits : List Char} {p : CodePoint} : Writes digits p.val → digits.length = 4 → Names ('u' :: digits) p
  | two {digits : List Char} {p : CodePoint} : Writes digits p.val → digits.length = 2 → Names ('x' :: digits) p
  | letter {c control : Char} : (c, control) ∈ letters → Names [c] (CodePoint.ofChar control)
  -- the separators of lines and paragraphs beyond ASCII are characters like others
  | itself {c : Char} : c.isDigit = false → c ∉ ['u', 'x', 'n', 't', 'r', 'b', 'f', 'v', '\n', '\r'] →
    Names [c] (CodePoint.ofChar c)

/-- The line breaks that continue a literal on the next line. -/
def lineBreaks : List (List Char) := [['\n'], ['\r'], ['\r', '\n']]

/-- Escapes that write the code points of a text in order, with line breaks between them. -/
inductive Spells : List (List Char) → Text → Prop
  | nil : Spells [] []
  | point {body : List Char} {bodies : List (List Char)} {p : CodePoint} {t : Text} :
    Names body p → Spells bodies t → Spells (body :: bodies) (p :: t)
  | lineBreak {body : List Char} {bodies : List (List Char)} {t : Text} :
    body ∈ lineBreaks → Spells bodies t → Spells (body :: bodies) t

/-- Escapes as they stand in a literal, each behind its backslash. -/
def backslashed : List (List Char) → List Char
  | [] => []
  | body :: bodies => '\\' :: body ++ backslashed bodies

variable {body digits : List Char} {p : CodePoint}

theorem codePoint_val (p : CodePoint) : codePoint p.val = .ok p := by
  have hp := p.isLt
  have hrange : (decide ((p.val : Int) < -2147483648) || decide (2147483647 < (p.val : Int))) = false := by
    rw [decide_eq_false (by omega), decide_eq_false (by omega), Bool.or_false]
  rw [codePoint, hrange, if_neg Bool.false_ne_true, dif_pos (by omega)]
  rfl

theorem hexadecimalPoint_of_writes (h : Writes digits p.val) : hexadecimalPoint digits = .ok [p] := by
  rw [hexadecimalPoint, hexadecimal?_of_writes h]
  dsimp only
  rw [codePoint_val]
  rfl

/-- Digits are no bracket. -/
theorem exists_cons_of_writes {n : Nat} (h : Writes digits n) : ∃ c rest, digits = c :: rest ∧ c ≠ '\x7b' := by
  obtain ⟨c, rest, rfl⟩ := List.exists_cons_of_ne_nil h.1
  obtain ⟨d, hd⟩ := h.exists_digit c List.mem_cons_self
  refine ⟨c, rest, rfl, ?_⟩
  rintro rfl
  cases hd.value

theorem decodeEscaped_of_names (h : Names body p) : decodeEscaped body = .ok [p] := by
  cases h with
  | @bracketed digits p h =>
    have hdigits : (digits ++ ['\x7d']).dropLast = digits := List.dropLast_concat
    rw [decodeEscaped, hdigits, hexadecimalPoint_of_writes h]
  | @four digits p h _ =>
    obtain ⟨c, rest, rfl, hc⟩ := exists_cons_of_writes h
    rw [decodeEscaped]
    · exact hexadecimalPoint_of_writes h
    · intro rest' _ heq
      exact hc (List.cons.inj heq).1
    · intro n hnil
      cases hnil
    · intro hnil
      cases hnil
  | @two digits p h _ =>
    obtain ⟨c, rest, rfl, -⟩ := exists_cons_of_writes h
    exact hexadecimalPoint_of_writes h
  | @letter c control h =>
    have hall : ∀ e ∈ letters, decodeEscaped [e.1] = .ok [CodePoint.ofChar e.2] := by decide
    exact hall (c, control) h
  | @itself c hdigit hplain =>
    simp only [List.mem_cons, List.not_mem_nil, or_false, not_or] at hplain
    have hzero : c ≠ '0' := by
      rintro rfl
      cases hdigit
    have hletter : controlLetter? c = none := by
      unfold controlLetter?
      simp [hplain, hzero]
    simp [decodeEscaped, hletter, hplain, ofChars]

theorem decodeEscaped_of_lineBreak (h : body ∈ lineBreaks) : decodeEscaped body = .ok [] := by
  have hall : ∀ body ∈ lineBreaks, decodeEscaped body = .ok [] := by decide
  exact hall body h

theorem decodeEscape_ofList {t : Text} (h : decodeEscaped body = .ok t) : decodeEscape (.ofList ('\\' :: body)) = .ok t := by
  rw [decodeEscape, String.toList_ofList]
  exact h

theorem exists_spells (t : Text) : ∃ bodies, Spells bodies t := by
  induction t with
  | nil => exact ⟨[], .nil⟩
  | cons p t ih =>
    obtain ⟨digits, hdigits⟩ := exists_writes p.val
    obtain ⟨bodies, hbodies⟩ := ih
    exact ⟨_, .point (.bracketed hdigits) hbodies⟩

end Stepwise.Text
