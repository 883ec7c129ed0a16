import Stepwise.Grammar.Expression
import Stepwise.Proofs.Text.Escape
import Stepwise.Proofs.Tree.Slice
/-!
How literals of escapes are read. An escape in front of another one, or in front of the closing quote, is a lexeme of its own,
and the literal has a node for each of its escapes, one directly behind the other.
-/

namespace Stepwise

namespace Lexeme

open Text Numeral

variable {body digits rest : List Char} {p : CodePoint} {n : Nat}

/-- The marks that a string may stand between. -/
def quotes : List Char := ['\'', '"']

theorem mem_quotes {c : Char} : c ∈ quotes ↔ c = '\'' ∨ c = '"' := by
  rw [quotes, List.mem_cons, List.mem_singleton]

/-- A text in front of which an escape ends: another escape, or a quote. -/
def EndsEscape (rest : List Char) : Prop := ∃ c behind, rest = c :: behind ∧ c ∈ '\\' :: quotes

theorem isHex_of_writes (h : Writes digits n) : ∀ c ∈ digits, isHex c = true := by
  have hall : ∀ e ∈ hexadecimalDigits, isHex e.1 = true := by decide
  intro c hc
  obtain ⟨d, hd⟩ := h.exists_digit c hc
  exact hall _ hd

theorem bracketed_of_writes (h : Writes digits n) (rest : List Char) :
    bracketed (digits ++ '\x7d' :: rest) = digits.length + 1 := by
  have htake : (digits ++ '\x7d' :: rest).takeWhile isHex = digits := by
    rw [List.takeWhile_append_of_pos (isHex_of_writes h), List.takeWhile_cons_of_neg (by decide), List.append_nil]
  have hclose : (digits ++ '\x7d' :: rest)[digits.length]? = some '\x7d' := by
    rw [List.getElem?_append_right (Nat.le_refl _), Nat.sub_self, List.getElem?_cons_zero]
  have hempty : digits.isEmpty = false := List.isEmpty_eq_false_iff.mpr h.1
  unfold bracketed
  dsimp only
  rw [htake, hempty, if_neg Bool.false_ne_true, if_pos hclose]

theorem escape_single {c : Char} (hplain : c ∉ ['u', 'x', '\r']) (hoctal : isOctal c = false) (cs : List Char) :
    escape ('\\' :: c :: cs) = 2 := by
  simp only [List.mem_cons, List.not_mem_nil, or_false, not_or] at hplain
  simp [escape, hplain, hoctal]

theorem escape_of_names (h : Names body p) (hrest : EndsEscape rest) :
    escape ('\\' :: (body ++ rest)) = body.length + 1 := by
  cases h with
  | @bracketed digits p h =>
    have hread := bracketed_of_writes h rest
    rw [List.cons_append, List.cons_append, List.append_assoc, List.singleton_append, escape, unicodeEscape, hread,
      if_neg (Nat.succ_ne_zero _), List.length_cons, List.length_cons, List.length_append, List.length_singleton]
    omega
  | @four digits p h hlength =>
    have hhex := isHex_of_writes h
    obtain ⟨c, behind, rfl, hc⟩ := exists_cons_of_writes h
    obtain ⟨c₁, c₂, c₃, rfl⟩ := List.length_eq_three.mp (Nat.succ.inj hlength)
    have hall : [c, c₁, c₂, c₃].all isHex = true := List.all_eq_true.mpr hhex
    rw [List.cons_append, escape]
    simp only [List.cons_append, List.nil_append]
    rw [unicodeEscape, if_pos hall]
    · rfl
    · exact hc
  | @two digits p h hlength =>
    have hhex := isHex_of_writes h
    obtain ⟨c, c', rfl⟩ := List.length_eq_two.mp hlength
    rw [List.cons_append, List.cons_append, List.cons_append, List.nil_append, escape, hhex c (by simp), hhex c' (by simp)]
    rfl
  | @letter c control h =>
    have hall : ∀ e ∈ letters, e.1 = '0' ∨ e.1 ∉ ['u', 'x', '\r'] ∧ isOctal e.1 = false := by decide
    rcases hall (c, control) h with hzero | ⟨hplain, hoctal⟩
    · obtain rfl : c = '0' := hzero
      -- what follows is no octal digit, so that the zero is all of the escape
      obtain ⟨c, behind, rfl, hc⟩ := hrest
      have hends : isOctal c = false := by
        rw [List.mem_cons, mem_quotes] at hc
        rcases hc with rfl | rfl | rfl <;> rfl
      have htake : (List.take 3 ('0' :: c :: behind)).takeWhile isOctal = ['0'] := by
        rw [List.take_succ_cons, List.take_succ_cons, List.takeWhile_cons_of_pos rfl,
          List.takeWhile_cons_of_neg (by rw [hends]; exact Bool.false_ne_true)]
      have hread : escape ('\\' :: '0' :: c :: behind) =
          1 + ((List.take 3 ('0' :: c :: behind)).takeWhile isOctal).length := rfl
      rw [List.singleton_append, hread, htake]
      rfl
    · exact escape_single hplain hoctal _
  | @itself c hdigit hplain =>
    simp only [List.mem_cons, List.not_mem_nil, or_false, not_or] at hplain
    refine escape_single (by simp [hplain]) ?_ _
    by_contra hoctal
    rw [Bool.not_eq_false, isOctal, Bool.and_eq_true, decide_eq_true_eq, decide_eq_true_eq] at hoctal
    have hseven : '7'.toNat ≤ '9'.toNat := by decide
    rw [Char.isDigit_iff_toNat.mpr ⟨hoctal.1, Nat.le_trans hoctal.2 hseven⟩] at hdigit
    cases hdigit

theorem escape_of_lineBreak (h : body ∈ lineBreaks) (hrest : EndsEscape rest) :
    escape ('\\' :: (body ++ rest)) = body.length + 1 := by
  obtain ⟨c, behind, rfl, hc⟩ := hrest
  simp only [lineBreaks, List.mem_cons, List.not_mem_nil, or_false] at h
  rcases h with rfl | rfl | rfl
  · exact escape_single (by decide) rfl _
  · have hfeed : c ≠ '\n' := by
      rw [List.mem_cons, mem_quotes] at hc
      rcases hc with rfl | rfl | rfl <;> decide
    simp [escape, hfeed, isOctal]
  · rfl

/-- Whether an escape is read up to wherever one can end. -/
def IsEscape (body : List Char) : Prop := ∀ rest, EndsEscape rest → escape ('\\' :: body ++ rest) = body.length + 1

theorem isEscape_of_spells {bodies : List (List Char)} {t : Text} (h : Spells bodies t) :
    ∀ body ∈ bodies, IsEscape body := by
  induction h with
  | nil => exact List.forall_mem_nil _
  | point hnames _ ih => exact List.forall_mem_cons.mpr ⟨fun _ ↦ escape_of_names hnames, ih⟩
  | lineBreak hbreak _ ih => exact List.forall_mem_cons.mpr ⟨fun _ ↦ escape_of_lineBreak hbreak, ih⟩

theorem endsEscape_backslashed {quote : Char} (hquote : quote ∈ quotes) (bodies : List (List Char)) (back : List Char) :
    EndsEscape (backslashed bodies ++ quote :: back) := by
  cases bodies with
  | nil => exact ⟨quote, back, rfl, List.mem_cons_of_mem _ hquote⟩
  | cons body bodies => exact ⟨'\\', _, rfl, List.mem_cons_self⟩

end Lexeme

open Parse

namespace Node

/-- Escape sequences one directly behind the other, from an offset on. -/
def escapes : Nat → List (List Char) → List Node
  | _, [] => []
  | offset, body :: bodies =>
    leaf .escapeSequence true offset (offset + Source.width ('\\' :: body)) ::
      escapes (offset + Source.width ('\\' :: body)) bodies

/-- A string that holds escapes and nothing else. -/
def escaped (quote : Char) (offset : Nat) (bodies : List (List Char)) : Node :=
  let mark := Kind.ofName (.ofList [quote])
  let close := offset + 1 + Source.width (Text.backslashed bodies)
  branch .string (leaf mark false offset (offset + 1) ::
    (escapes (offset + 1) bodies ++ [leaf mark false close (close + 1)]))

end Node

namespace Grammar

variable {fragment : List Char → Nat} {quote : Char} {cs rest back : List Char}

/-- One round of reading the pieces of a literal. -/
def piece (fragment : List Char → Nat) (substitution : Parse Node) (nodes : List Node) : Parse (Option (List Node)) := do
  let rest := (← get).rest
  if fragment rest ≠ 0 then
    return some (nodes ++ [← leaf (.other "string_fragment") true (fragment rest)])
  else if Lexeme.escape rest ≠ 0 then
    return some (nodes ++ [← leaf .escapeSequence true (Lexeme.escape rest)])
  else if "$\x7b".toList.isPrefixOf rest then return some (nodes ++ [← substitution])
  else return none

theorem pieces_eq (fragment : List Char → Nat) (substitution : Parse Node) (c : Cursor) :
    pieces fragment substitution c = repeatWithin (piece fragment substitution) c.rest [] c := rfl

theorem piece_escape (hfragment : fragment (cs ++ rest) = 0) (hescape : Lexeme.escape (cs ++ rest) = cs.length)
    (hne : cs ≠ []) (substitution : Parse Node) (nodes : List Node) (offset : Nat) :
    piece fragment substitution nodes ⟨cs ++ rest, offset⟩ =
      some (some (nodes ++ [.leaf .escapeSequence true offset (offset + Source.width cs)]),
        ⟨rest, offset + Source.width cs⟩) := by
  have hlength : cs.length ≠ 0 := fun h ↦ hne (List.eq_nil_of_length_eq_zero h)
  have hleaf : leaf .escapeSequence true cs.length ⟨cs ++ rest, offset⟩ =
      some (.leaf .escapeSequence true offset (offset + Source.width cs), ⟨rest, offset + Source.width cs⟩) := by
    rw [leaf, if_neg hlength, Cursor.advance, List.drop_left, List.take_left]
    rfl
  change (if fragment (cs ++ rest) ≠ 0 then _ else if Lexeme.escape (cs ++ rest) ≠ 0 then _ else _ : Parse _) _ = _
  rw [if_neg (not_not_intro hfragment), hescape, if_pos hlength]
  change (leaf .escapeSequence true cs.length ⟨cs ++ rest, offset⟩).bind _ = _
  rw [hleaf]
  rfl

theorem piece_quote (hquote : quote ∈ Lexeme.quotes) (hfragment : fragment (quote :: back) = 0) (substitution : Parse Node)
    (nodes : List Node) (offset : Nat) :
    piece fragment substitution nodes ⟨quote :: back, offset⟩ = some (none, ⟨quote :: back, offset⟩) := by
  have hescape : Lexeme.escape (quote :: back) = 0 ∧ ¬ "$\x7b".toList.isPrefixOf (quote :: back) = true := by
    rcases Lexeme.mem_quotes.mp hquote with rfl | rfl <;> exact ⟨rfl, Bool.false_ne_true⟩
  change (if fragment (quote :: back) ≠ 0 then _ else if Lexeme.escape (quote :: back) ≠ 0 then _ else
    if "$\x7b".toList.isPrefixOf (quote :: back) then _ else _ : Parse _) _ = _
  rw [if_neg (not_not_intro hfragment), if_neg (not_not_intro hescape.1), if_neg hescape.2]
  rfl

theorem stringFragment_quote (quote : Char) (back : List Char) : Lexeme.stringFragment quote (quote :: back) = 0 := by
  rw [Lexeme.stringFragment, List.takeWhile_cons_of_neg (by simp), List.length_nil]

theorem stringFragment_backslash (quote : Char) (rest : List Char) : Lexeme.stringFragment quote ('\\' :: rest) = 0 := by
  rw [Lexeme.stringFragment, List.takeWhile_cons_of_neg (by simp), List.length_nil]

/-- Escapes are read one after the other, up to the quote behind them. -/
theorem repeatWithin_piece (hquote : quote ∈ Lexeme.quotes) {bodies : List (List Char)}
    (h : ∀ body ∈ bodies, Lexeme.IsEscape body) {budget : List Char} (hbudget : bodies.length < budget.length)
    (substitution : Parse Node) (nodes : List Node) (offset : Nat) :
    repeatWithin (piece (Lexeme.stringFragment quote) substitution) budget nodes
        ⟨Text.backslashed bodies ++ quote :: back, offset⟩ =
      some (nodes ++ Node.escapes offset bodies, ⟨quote :: back, offset + Source.width (Text.backslashed bodies)⟩) := by
  induction bodies generalizing budget nodes offset with
  | nil =>
    obtain ⟨c, budget, rfl⟩ := List.exists_cons_of_length_pos hbudget
    have hround := piece_quote hquote (stringFragment_quote quote back) substitution nodes offset
    change (piece _ substitution nodes ⟨quote :: back, offset⟩).bind _ = _
    rw [hround, Node.escapes, List.append_nil]
    rfl
  | cons body bodies ih =>
    obtain ⟨hbody, hbodies⟩ := List.forall_mem_cons.mp h
    obtain ⟨c, budget, rfl⟩ := List.exists_cons_of_length_pos (Nat.zero_lt_of_lt hbudget)
    have hround := piece_escape (stringFragment_backslash quote _)
      (hbody _ (Lexeme.endsEscape_backslashed hquote bodies back)) (List.cons_ne_nil _ _) substitution nodes offset
    have hrest := ih hbodies (Nat.lt_of_succ_lt_succ hbudget)
      (nodes ++ [.leaf .escapeSequence true offset (offset + Source.width ('\\' :: body))])
      (offset + Source.width ('\\' :: body))
    have htext : Text.backslashed (body :: bodies) ++ quote :: back =
        '\\' :: body ++ (Text.backslashed bodies ++ quote :: back) := List.append_assoc _ _ _
    have hwidth : Source.width (Text.backslashed (body :: bodies)) =
        Source.width ('\\' :: body) + Source.width (Text.backslashed bodies) := Source.width_append _ _
    rw [List.append_assoc, List.singleton_append] at hrest
    rw [htext, hwidth, ← Nat.add_assoc, Node.escapes]
    change (piece _ substitution nodes _).bind _ = _
    rw [hround]
    exact hrest

theorem tokenHere_quote (hquote : quote ∈ Lexeme.quotes) (back : List Char) (offset : Nat) :
    tokenHere (.ofList [quote]) ⟨quote :: back, offset⟩ =
      some (.leaf (.ofName (.ofList [quote])) false offset (offset + 1), ⟨back, offset + 1⟩) := by
  rcases Lexeme.mem_quotes.mp hquote with rfl | rfl <;> rfl

theorem length_le_backslashed (bodies : List (List Char)) : bodies.length ≤ (Text.backslashed bodies).length := by
  induction bodies with
  | nil => exact Nat.le_refl _
  | cons body bodies ih =>
    rw [Text.backslashed, List.length_append, List.length_cons, List.length_cons]
    omega

theorem string_backslashed (hquote : quote ∈ Lexeme.quotes) {bodies : List (List Char)}
    (h : ∀ body ∈ bodies, Lexeme.IsEscape body) (back : List Char) (offset : Nat) :
    string quote ⟨quote :: (Text.backslashed bodies ++ quote :: back), offset⟩ =
      some (Node.escaped quote offset bodies, ⟨back, offset + 1 + Source.width (Text.backslashed bodies) + 1⟩) := by
  have hbudget : bodies.length < (Text.backslashed bodies ++ quote :: back).length := by
    have := length_le_backslashed bodies
    rw [List.length_append, List.length_cons]
    omega
  unfold string node
  simp only [List.mapM_cons, List.mapM_nil, id, bind_assoc, pure_bind, here]
  change (tokenHere _ _).bind _ = _
  rw [tokenHere_quote hquote]
  change (pieces _ _ _).bind _ = _
  rw [pieces_eq, repeatWithin_piece hquote h hbudget]
  change (tokenHere _ _).bind _ = _
  rw [tokenHere_quote hquote]
  rfl

end Grammar

end Stepwise
