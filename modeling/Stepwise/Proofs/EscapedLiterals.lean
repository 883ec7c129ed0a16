import Stepwise.Proofs.Grammar.Literal
import Stepwise.Proofs.StringLiterals
/-!
Literals of escapes. A literal in which every code point of a text is written as an escape, in whatever way, has this text as its
value, and line breaks behind a backslash add nothing to it.
-/

namespace Stepwise

open Text

namespace Node

variable {source : Source} {literal : Node} {bodies : List (List Char)} {quote : Char} {front back : List Char}

/-- Escape sequences one directly behind the other, from an offset to another one, and what each has behind its backslash. -/
def AreEscapes (source : Source) (stop : Nat) : Nat → List Node → List (List Char) → Prop
  | cursor, [], [] => cursor = stop
  | cursor, c :: cs, body :: bodies => c.kind = .escapeSequence ∧ c.label.start = cursor ∧
    c.text source = .ofList ('\\' :: body) ∧ AreEscapes source stop c.label.stop cs bodies
  | _, _, _ => False

/-- A literal with escapes and nothing else between its delimiters. -/
structure IsEscaped (source : Source) (literal : Node) (bodies : List (List Char)) : Prop where
  kind : literal.kind = .string ∨ literal.kind = .templateString
  inner : AreEscapes source (literal.label.stop - 1) (literal.label.start + 1) literal.inner bodies

theorem AreEscapes.kind {stop cursor : Nat} {cs : List Node} (h : AreEscapes source stop cursor cs bodies) :
    ∀ c ∈ cs, c.kind = .escapeSequence := by
  induction cs generalizing cursor bodies with
  | nil => exact List.forall_mem_nil _
  | cons c cs ih =>
    cases bodies with
    | nil => cases h
    | cons body bodies => exact List.forall_mem_cons.mpr ⟨h.1, ih h.2.2.2⟩

theorem areEscapes_escapes {offset : Nat} (hsource : source.chars = front ++ (backslashed bodies ++ back))
    (hoffset : Source.width front = offset) :
    AreEscapes source (offset + Source.width (backslashed bodies)) offset (escapes offset bodies) bodies := by
  induction bodies generalizing front offset with
  | nil => rfl
  | cons body bodies ih =>
    have hfront : source.chars = (front ++ '\\' :: body) ++ (backslashed bodies ++ back) := by
      rw [hsource, backslashed, List.append_assoc, List.append_assoc]
    have hwidth : Source.width (front ++ '\\' :: body) = offset + Source.width ('\\' :: body) := by
      rw [Source.width_append, hoffset]
    have hrest := ih hfront hwidth
    have htext : source.slice offset (offset + Source.width ('\\' :: body)) = .ofList ('\\' :: body) :=
      Source.slice_eq (hfront.trans (List.append_assoc _ _ _)) hoffset hwidth
    rw [backslashed, Source.width_append, ← Nat.add_assoc]
    exact ⟨rfl, rfl, htext, hrest⟩

theorem bounds_of_mem_escapes {offset : Nat} {c : Node} (hc : c ∈ escapes offset bodies) :
    offset ≤ c.label.start ∧ c.label.stop ≤ offset + Source.width (backslashed bodies) := by
  induction bodies generalizing offset with
  | nil => cases hc
  | cons body bodies ih =>
    rw [backslashed, Source.width_append]
    rcases List.mem_cons.mp hc with rfl | hc
    · exact ⟨Nat.le_refl _, by simp only [label, leaf]; omega⟩
    · have := ih hc
      omega

theorem label_escaped (quote : Char) (offset : Nat) (bodies : List (List Char)) :
    (escaped quote offset bodies).label.start = offset ∧
      (escaped quote offset bodies).label.stop = offset + 1 + Source.width (backslashed bodies) + 1 := by
  refine ⟨rfl, ?_⟩
  have hlast (first last : Node) (cs : List Node) : (first :: (cs ++ [last])).getLast? = some last := by
    rw [← List.cons_append, List.getLast?_concat]
  change (((_ :: (escapes (offset + 1) bodies ++ [_])).getLast?.map (·.label.stop)).getD 0) = _
  rw [hlast]
  rfl

theorem inner_escaped (quote : Char) (offset : Nat) (bodies : List (List Char)) :
    (escaped quote offset bodies).inner = escapes (offset + 1) bodies := by
  obtain ⟨hstart, hstop⟩ := label_escaped quote offset bodies
  rw [inner, hstart, hstop]
  change (_ :: (escapes (offset + 1) bodies ++ [_])).filter _ = _
  rw [List.filter_cons_of_neg, List.filter_append, List.filter_cons_of_neg, List.filter_nil, List.append_nil,
    List.filter_eq_self]
  · intro c hc
    obtain ⟨hfirst, hlast⟩ := bounds_of_mem_escapes hc
    rw [Bool.and_eq_true, decide_eq_true_eq, decide_eq_true_eq]
    omega
  · rw [Bool.and_eq_true, decide_eq_true_eq, decide_eq_true_eq]
    simp only [label, leaf]
    omega
  · rw [Bool.and_eq_true, decide_eq_true_eq, decide_eq_true_eq]
    simp only [label, leaf]
    omega

theorem isEscaped_escaped (quote : Char) (hquote : quote.utf8Size = 1)
    (hsource : source.chars = front ++ quote :: (backslashed bodies ++ back)) :
    (escaped quote (Source.width front) bodies).IsEscaped source bodies := by
  obtain ⟨hstart, hstop⟩ := label_escaped quote (Source.width front) bodies
  have hfront : source.chars = (front ++ [quote]) ++ (backslashed bodies ++ back) := by
    rw [hsource, List.append_assoc, List.singleton_append]
  have hwidth : Source.width (front ++ [quote]) = Source.width front + 1 := by
    rw [Source.width_append, Source.width_cons, hquote]
    rfl
  refine ⟨.inl rfl, ?_⟩
  rw [inner_escaped, hstart, hstop, Nat.add_sub_cancel]
  exact areEscapes_escapes hfront hwidth

end Node

namespace Evaluator

variable (self : Evaluator) {source : Source} {literal : Node} {bodies : List (List Char)} {t : Text}

theorem parts_escape {sequence : String} {u : Text} (h : decodeEscape sequence = .ok u) (ps : List Part) :
    self.parts (.escape sequence :: ps) = (u ++ ·) <$> self.parts ps := by
  rw [parts, part, h]
  rfl

theorem parts_woven_cons_escape {stop cursor : Nat} {c : Node} {cs : List Node} {body : List Char} {u : Text}
    (hkind : c.kind = .escapeSequence) (hstart : c.label.start = cursor) (htext : c.text source = .ofList ('\\' :: body))
    (hbody : decodeEscaped body = .ok u) :
    self.parts ((Node.woven source stop cursor (c :: cs)).map Piece.part) =
      (u ++ ·) <$> self.parts ((Node.woven source stop c.label.stop cs).map Piece.part) := by
  have hpart : (c.piece source).part = .escape (.ofList ('\\' :: body)) := by
    rw [Node.piece, Node.part, hkind, htext]
  rw [Node.woven, List.map_cons, List.map_cons, Source.gap, hstart, Source.slice_of_le (Nat.le_refl _), parts_nil_append, hpart,
    self.parts_escape (decodeEscape_ofList hbody)]

theorem parts_woven_escapes (h : Spells bodies t) {stop cursor : Nat} {cs : List Node}
    (hcs : Node.AreEscapes source stop cursor cs bodies) :
    self.parts ((Node.woven source stop cursor cs).map Piece.part) = pure t := by
  induction h generalizing cursor cs with
  | nil =>
    cases cs with
    | nil =>
      obtain rfl : cursor = stop := hcs
      rw [Node.woven, List.map_singleton, Source.gap, Source.slice_of_le (Nat.le_refl _), parts_nil_append, parts]
    | cons c cs => cases hcs
  | point hnames _ ih =>
    cases cs with
    | nil => cases hcs
    | cons c cs =>
      obtain ⟨hkind, hstart, htext, hrest⟩ := hcs
      rw [self.parts_woven_cons_escape hkind hstart htext (decodeEscaped_of_names hnames), ih hrest]
      rfl
  | lineBreak hbreak _ ih =>
    cases cs with
    | nil => cases hcs
    | cons c cs =>
      obtain ⟨hkind, hstart, htext, hrest⟩ := hcs
      rw [self.parts_woven_cons_escape hkind hstart htext (decodeEscaped_of_lineBreak hbreak), ih hrest]
      rfl

theorem evalExpr_escaped (h : Spells bodies t) (hliteral : literal.IsEscaped source bodies) :
    self.evalExpr (literal.read source).expr = pure (.string t) := by
  have hcomments : ∀ c ∈ literal.children, literal.label.start + 1 ≤ c.label.start →
      c.label.stop ≤ literal.label.stop - 1 → c.kind.isComment = false := by
    intro c hc hstart hstop
    have hinside : (decide (literal.label.start + 1 ≤ c.label.start) && decide (c.label.stop ≤ literal.label.stop - 1)) = true := by
      rw [decide_eq_true hstart, decide_eq_true hstop, Bool.and_true]
    rw [hliteral.inner.kind c (List.mem_filter.mpr ⟨hc, hinside⟩)]
    rfl
  rw [Node.expr_read_of_literal hliteral.kind, evalExpr, bind_pure_comp]
  refine (congrArg _ (self.parts_readAll _ _ hcomments)).trans ?_
  rw [← Node.inner, self.parts_woven_escapes h hliteral.inner]
  rfl

/-- Every text can be written in escapes, and whichever are taken, and whatever line breaks stand between them, a literal of
them has this text as its value. Escapes between quotes are read as such a literal, wherever they stand. -/
theorem escapes_spell_value (t : Text) :
    (∃ bodies, Spells bodies t) ∧ ∀ bodies, Spells bodies t →
      (∀ (self : Evaluator) (source : Source) (literal : Node), literal.IsEscaped source bodies →
        self.evalExpr (literal.read source).expr = pure (.string t)) ∧
      ∀ quote ∈ Lexeme.quotes, ∀ front back : List Char, ∃ literal,
        Grammar.string quote ⟨quote :: (backslashed bodies ++ quote :: back), Source.width front⟩ =
          some (literal, ⟨back, Source.width (front ++ quote :: (backslashed bodies ++ [quote]))⟩) ∧
        literal.IsEscaped ⟨front ++ quote :: (backslashed bodies ++ quote :: back)⟩ bodies := by
  refine ⟨exists_spells t, fun bodies h ↦ ⟨fun self source literal ↦ self.evalExpr_escaped h, fun quote hquote front back ↦ ?_⟩⟩
  have hsize : quote.utf8Size = 1 := by
    rcases Lexeme.mem_quotes.mp hquote with rfl | rfl <;> rfl
  have hwidth : Source.width (front ++ quote :: (backslashed bodies ++ [quote])) =
      Source.width front + 1 + Source.width (backslashed bodies) + 1 := by
    rw [Source.width_append, Source.width_cons, Source.width_append, Source.width_cons, hsize]
    change Source.width front + (1 + (Source.width (backslashed bodies) + (1 + 0))) = _
    omega
  rw [hwidth]
  exact ⟨_, Grammar.string_backslashed hquote (Lexeme.isEscape_of_spells h) back _, Node.isEscaped_escaped quote hsize rfl⟩

/-- A surrogate, a line break that is left out, and a letter, a code and a quote behind it. -/
def mixedEscapes : List (List Char) :=
  ["u\x7b00d83D\x7d".toList, ['\r', '\n'], ['n'], "x4a".toList, ['\'']]

theorem spells_mixedEscapes : Spells mixedEscapes [0xD83D, 0x0A, 0x4A, 0x27] := by
  have hdigit {c : Char} {d : Nat} (hd : (c, d) ∈ Numeral.hexadecimalDigits) : Numeral.IsHexadecimalDigit c d := hd
  have hsurrogate : Numeral.Writes "00d83D".toList 0xD83D := by
    refine ⟨by decide, [0, 0, 13, 8, 3, 13], ?_, rfl⟩
    exact .cons (hdigit (by decide)) <| .cons (hdigit (by decide)) <| .cons (hdigit (by decide)) <|
      .cons (hdigit (by decide)) <| .cons (hdigit (by decide)) <| .cons (hdigit (by decide)) .nil
  have hletter : Numeral.Writes "4a".toList 0x4A :=
    ⟨by decide, [4, 10], .cons (hdigit (by decide)) <| .cons (hdigit (by decide)) .nil, rfl⟩
  have hfeed : ('n', '\n') ∈ letters := by decide
  exact .point (.bracketed (p := 0xD83D) hsurrogate) <| .lineBreak (by decide) <| .point (.letter hfeed) <|
    .point (.two (p := 0x4A) hletter rfl) <| .point (.itself (by decide) (by decide)) .nil

theorem escapes_spell_value_mixed : Spells mixedEscapes [0xD83D, 0x0A, 0x4A, 0x27] ∧
    ∃ literal c, Grammar.string '"' ⟨'"' :: (backslashed mixedEscapes ++ ['"']), 0⟩ = some (literal, c) ∧
      (ofDepth {} 1).evalExpr (literal.read ⟨'"' :: (backslashed mixedEscapes ++ ['"'])⟩).expr Machine.initial =
        .ok (.string [0xD83D, 0x0A, 0x4A, 0x27]) Machine.initial := by
  obtain ⟨hvalue, hread⟩ := (escapes_spell_value _).2 _ spells_mixedEscapes
  obtain ⟨literal, hstring, hliteral⟩ := hread '"' (by decide) [] []
  refine ⟨spells_mixedEscapes, literal, _, hstring, ?_⟩
  exact congrFun (hvalue (ofDepth {} 1) _ literal hliteral) Machine.initial

end Evaluator

end Stepwise
