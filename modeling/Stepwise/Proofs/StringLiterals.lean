import Stepwise.Proofs.Tree.Slice
import Stepwise.Proofs.Layout
/-!
String and template literals. A literal is its children with the text between them, each byte once, and its value is what these
stretches stand for, one behind the other. Only escapes and substitutions matter: it makes no difference which nodes there are
for the rest of the text.
-/

namespace Stepwise

/-- A stretch of a literal, with the offsets that it lies between. -/
structure Piece where
  start : Nat
  stop : Nat
  part : Part

/-- The source text between two offsets. -/
def Source.gap (source : Source) (start stop : Nat) : Piece := ⟨start, stop, .raw (source.slice start stop)⟩

def Part.isSubstitution : Part → Bool
  | .substitution _ => true
  | .raw _ | .escape _ => false

theorem Text.ofString_append (s t : String) : ofString (s ++ t) = ofString s ++ ofString t := by
  rw [ofString, String.toList_append]
  exact List.map_append

namespace Node

variable {source : Source} {literal c : Node} {cs : List Node} {cursor stop : Nat}

/-- What a child stands for: an escape, a substitution, or its own text. -/
def part (source : Source) (c : Node) : Part :=
  match c.kind with
  | .escapeSequence => .escape (c.text source)
  | .templateSubstitution => .substitution (c.read source).items.head?
  | _ => .raw (c.text source)

def piece (source : Source) (c : Node) : Piece := ⟨c.label.start, c.label.stop, c.part source⟩

/-- Children with what is in front of each, between a cursor and an end. -/
def woven (source : Source) (stop : Nat) : Nat → List Node → List Piece
  | cursor, [] => [source.gap cursor stop]
  | cursor, c :: cs => source.gap cursor c.label.start :: c.piece source :: woven source stop c.label.stop cs

/-- Whether a child of a literal stands for something else than its text. -/
def isMarked (c : Node) : Bool := c.kind = .escapeSequence || c.kind = .templateSubstitution

/-- The children between the delimiters. -/
def inner (literal : Node) : List Node :=
  literal.children.filter fun c ↦ literal.label.start + 1 ≤ c.label.start && c.label.stop ≤ literal.label.stop - 1

def marked (literal : Node) : List Node := literal.inner.filter isMarked

def pieces (source : Source) (literal : Node) : List Piece :=
  woven source (literal.label.stop - 1) (literal.label.start + 1) literal.inner

/-- Nodes one behind the other, between a cursor and an end, that start and end between characters. -/
def InOrder (source : Source) (stop : Nat) : Nat → List Node → Prop
  | cursor, [] => cursor ≤ stop
  | cursor, c :: cs => cursor ≤ c.label.start ∧ c.label.start ≤ c.label.stop ∧ source.IsBoundary c.label.start ∧
    source.IsBoundary c.label.stop ∧ InOrder source stop c.label.stop cs

/-- A literal between delimiters of one byte, the children between them in order and no comments. -/
structure IsSegmented (source : Source) (literal : Node) : Prop where
  kind : literal.kind = .string ∨ literal.kind = .templateString
  opening : source.IsBoundary (literal.label.start + 1)
  closing : source.IsBoundary (literal.label.stop - 1)
  inOrder : InOrder source (literal.label.stop - 1) (literal.label.start + 1) literal.inner
  notComments : ∀ c ∈ literal.inner, c.kind.isComment = false

/-- Pieces one behind the other, from one offset to another one. -/
def Tiles (stop : Nat) : Nat → List Piece → Prop
  | cursor, [] => cursor = stop
  | cursor, p :: ps => p.start = cursor ∧ p.start ≤ p.stop ∧ Tiles stop p.stop ps

theorem InOrder.le (h : InOrder source stop cursor cs) : cursor ≤ stop := by
  induction cs generalizing cursor with
  | nil => exact h
  | cons c cs ih =>
    obtain ⟨hstart, hstop, -, -, hrest⟩ := h
    exact Nat.le_trans hstart (Nat.le_trans hstop (ih hrest))

theorem InOrder.of_le (h : InOrder source stop cursor cs) {cursor' : Nat} (hle : cursor' ≤ cursor) :
    InOrder source stop cursor' cs := by
  cases cs with
  | nil => exact Nat.le_trans hle h
  | cons c cs => exact ⟨Nat.le_trans hle h.1, h.2⟩

theorem tiles_woven (h : InOrder source stop cursor cs) : Tiles stop cursor (woven source stop cursor cs) := by
  induction cs generalizing cursor with
  | nil => exact ⟨rfl, h, rfl⟩
  | cons c cs ih =>
    obtain ⟨hstart, hstop, -, -, hrest⟩ := h
    exact ⟨rfl, hstart, rfl, hstop, ih hrest⟩

theorem flatten_woven (h : InOrder source stop cursor cs) (hcursor : source.IsBoundary cursor) (hstop : source.IsBoundary stop) :
    ((woven source stop cursor cs).map fun p ↦ Text.ofString (source.slice p.start p.stop)).flatten =
      Text.ofString (source.slice cursor stop) := by
  induction cs generalizing cursor with
  | nil => exact List.append_nil _
  | cons c cs ih =>
    obtain ⟨hstart, hend, hbegins, hends, hrest⟩ := h
    rw [woven, List.map_cons, List.map_cons, List.flatten_cons, List.flatten_cons, ih hrest hends, ← Text.ofString_append,
      ← Text.ofString_append]
    refine congrArg Text.ofString ?_
    change source.slice cursor c.label.start ++ (source.slice c.label.start c.label.stop ++ source.slice c.label.stop stop) = _
    rw [Source.slice_append hbegins hends hstop hend hrest.le,
      Source.slice_append hcursor hbegins hstop hstart (Nat.le_trans hend hrest.le)]

/-- What comes first is the text up to some offset; nothing else depends on where it starts. -/
theorem exists_woven_eq (h : InOrder source stop cursor cs) (hstop : source.IsBoundary stop) : ∃ first rest,
    cursor ≤ first ∧ source.IsBoundary first ∧ ∀ cursor, woven source stop cursor cs = source.gap cursor first :: rest := by
  cases cs with
  | nil => exact ⟨stop, [], h, hstop, fun _ ↦ rfl⟩
  | cons c cs => exact ⟨c.label.start, _, h.1, h.2.2.1, fun _ ↦ rfl⟩

theorem part_of_not_isMarked (h : c.isMarked = false) : c.part source = .raw (c.text source) := by
  unfold isMarked at h
  unfold part
  cases hkind : c.kind with
  | escapeSequence | templateSubstitution =>
    rw [hkind] at h
    cases h
  | _ => rfl

theorem isSubstitution_part (source : Source) (c : Node) :
    (c.part source).isSubstitution = decide (c.kind = .templateSubstitution) := by
  unfold part
  cases c.kind <;> simp [Part.isSubstitution]

theorem filter_woven (stop cursor : Nat) (cs : List Node) :
    ((woven source stop cursor cs).map Piece.part).filter Part.isSubstitution =
      (cs.filter (·.kind = .templateSubstitution)).map (·.part source) := by
  induction cs generalizing cursor with
  | nil => rfl
  | cons c cs ih =>
    have hpart : (c.piece source).part.isSubstitution = decide (c.kind = .templateSubstitution) := isSubstitution_part source c
    rw [woven, List.map_cons, List.map_cons, List.filter_cons_of_neg, List.filter_cons, List.filter_cons, ih, hpart]
    · split <;> rfl
    · exact Bool.false_ne_true

theorem expr_read_of_literal (h : literal.kind = .string ∨ literal.kind = .templateString) : (literal.read source).expr =
    .string (Reading.literal source literal.label (readAll source literal.children)) := by
  have hkind : literal.label.kind = .string ∨ literal.label.kind = .templateString := h
  rw [expr_read]
  unfold Reading.readExpr
  rcases hkind with hkind | hkind
  · rw [hkind]
  · rw [hkind]

end Node

namespace Evaluator

variable (self : Evaluator) {source : Source} {literal c : Node} {cs : List Node} {cursor stop : Nat}

theorem parts_eq_mapM (ps : List Part) : self.parts ps = List.flatten <$> ps.mapM self.part := by
  induction ps with
  | nil => rfl
  | cons p ps ih =>
    rw [parts, ih, List.mapM_cons, map_bind]
    simp only [bind_pure_comp, Functor.map_map, List.flatten_cons]

theorem parts_raw (t : String) (ps : List Part) : self.parts (.raw t :: ps) = (Text.ofString t ++ ·) <$> self.parts ps := by
  rw [parts, part, pure_bind, bind_pure_comp]

theorem parts_nil_append (ps : List Part) : self.parts (.raw "" :: ps) = self.parts ps := by
  rw [parts_raw]
  exact id_map _

theorem parts_cons_congr {ps qs : List Part} (p : Part) (h : self.parts ps = self.parts qs) :
    self.parts (p :: ps) = self.parts (p :: qs) := by
  rw [parts, parts, h]

theorem parts_gap (source : Source) (cursor start : Nat) (ps : List Part) :
    self.parts ((if cursor < start then [.raw (source.slice cursor start)] else []) ++ ps) =
      self.parts (.raw (source.slice cursor start) :: ps) := by
  split
  next => rfl
  next hle => rw [Source.slice_of_le (Nat.not_lt.mp hle), parts_nil_append, List.nil_append]

/-- The stretches of a literal are its children with what is in front of each, if none of them is a comment. -/
theorem parts_readAll (start cursor : Nat)
    (h : ∀ c ∈ cs, start ≤ c.label.start → c.label.stop ≤ stop → c.kind.isComment = false) :
    self.parts (Reading.parts source start stop cursor (Node.readAll source cs)) =
      self.parts ((Node.woven source stop cursor
        (cs.filter fun c ↦ start ≤ c.label.start && c.label.stop ≤ stop)).map Piece.part) := by
  induction cs generalizing cursor with
  | nil =>
    have hgap := self.parts_gap source cursor stop []
    rw [List.append_nil] at hgap
    exact hgap
  | cons c cs ih =>
    obtain ⟨hc, hcs⟩ := List.forall_mem_cons.mp h
    have ih := fun cursor ↦ ih cursor hcs
    rw [Node.readAll, Reading.parts, Node.label_read, List.filter_cons]
    dsimp only
    by_cases hinside : start ≤ c.label.start ∧ c.label.stop ≤ stop
    · have hcomment := hc hinside.1 hinside.2
      have houtside : (decide (c.label.start < start) || decide (stop < c.label.stop)) = false := by
        rw [decide_eq_false (by omega), decide_eq_false (by omega), Bool.or_false]
      have hfilter : (decide (start ≤ c.label.start) && decide (c.label.stop ≤ stop)) = true := by
        rw [decide_eq_true hinside.1, decide_eq_true hinside.2, Bool.and_true]
      rw [houtside, hfilter, if_neg Bool.false_ne_true, if_pos rfl, Node.woven, List.map_cons, List.map_cons, List.append_assoc,
        parts_gap, parts_raw, Source.gap, parts_raw, Node.kind_read, Node.text_read, Node.piece, Node.part]
      refine congrArg _ ?_
      cases hkind : c.kind with
      | comment | htmlComment =>
        rw [hkind] at hcomment
        cases hcomment
      | _ => exact self.parts_cons_congr _ (ih _)
    · have houtside : (decide (c.label.start < start) || decide (stop < c.label.stop)) = true := by
        rw [Bool.or_eq_true, decide_eq_true_eq, decide_eq_true_eq]
        omega
      have hfilter : ¬ (decide (start ≤ c.label.start) && decide (c.label.stop ≤ stop)) = true := by
        rwa [Bool.and_eq_true, decide_eq_true_eq, decide_eq_true_eq]
      rw [if_pos houtside, if_neg hfilter, ih]

/-- A child that stands for its own text may be there or not. -/
theorem parts_woven_cons (hc : c.isMarked = false) (h : Node.InOrder source stop cursor (c :: cs))
    (hcursor : source.IsBoundary cursor) (hstop : source.IsBoundary stop) :
    self.parts ((Node.woven source stop cursor (c :: cs)).map Piece.part) =
      self.parts ((Node.woven source stop cursor cs).map Piece.part) := by
  obtain ⟨hstart, hend, hbegins, hends, hrest⟩ := h
  obtain ⟨first, rest, hle, hfirst, hwoven⟩ := Node.exists_woven_eq hrest hstop
  have htext : source.slice cursor c.label.start ++ (source.slice c.label.start c.label.stop ++ source.slice c.label.stop first) =
      source.slice cursor first := by
    rw [Source.slice_append hbegins hends hfirst hend hle,
      Source.slice_append hcursor hbegins hfirst hstart (Nat.le_trans hend hle)]
  rw [Node.woven, hwoven, hwoven]
  simp only [List.map_cons, Source.gap, Node.piece, Node.part_of_not_isMarked hc, parts_raw, Functor.map_map, ← htext,
    Text.ofString_append, List.append_assoc]
  rfl

theorem parts_woven_filter (h : Node.InOrder source stop cursor cs) (hcursor : source.IsBoundary cursor)
    (hstop : source.IsBoundary stop) :
    self.parts ((Node.woven source stop cursor cs).map Piece.part) =
      self.parts ((Node.woven source stop cursor (cs.filter Node.isMarked)).map Piece.part) := by
  induction cs generalizing cursor with
  | nil => rfl
  | cons c cs ih =>
    cases hc : c.isMarked with
    | true =>
      rw [List.filter_cons_of_pos hc, Node.woven, Node.woven]
      exact self.parts_cons_congr _ (self.parts_cons_congr _ (ih h.2.2.2.2 h.2.2.2.1))
    | false =>
      rw [List.filter_cons_of_neg (by rw [hc]; exact Bool.false_ne_true), self.parts_woven_cons hc h hcursor hstop]
      exact ih (h.2.2.2.2.of_le (Nat.le_trans h.1 h.2.1)) hcursor

theorem evalExpr_literal (h : literal.IsSegmented source) : self.evalExpr (literal.read source).expr =
    Value.string <$> self.parts ((literal.pieces source).map Piece.part) := by
  have hcomments : ∀ c ∈ literal.children, literal.label.start + 1 ≤ c.label.start → c.label.stop ≤ literal.label.stop - 1 →
      c.kind.isComment = false := by
    intro c hc hstart hstop
    refine h.notComments c (List.mem_filter.mpr ⟨hc, ?_⟩)
    rw [decide_eq_true hstart, decide_eq_true hstop, Bool.and_true]
  rw [Node.expr_read_of_literal h.kind, evalExpr, bind_pure_comp]
  exact congrArg _ (self.parts_readAll _ _ hcomments)

/-- The value of a literal is what its pieces stand for, one behind the other, and the pieces have each byte between the
delimiters once, and each substitution once, in order. Literals with the same escapes and substitutions have the same value,
however the text between these is covered by nodes; without any the value is the text. -/
theorem string_literal_value (h : literal.IsSegmented source) :
    self.evalExpr (literal.read source).expr =
        (fun texts ↦ Value.string texts.flatten) <$> (literal.pieces source).mapM (fun p ↦ self.part p.part) ∧
      Node.Tiles (literal.label.stop - 1) (literal.label.start + 1) (literal.pieces source) ∧
      ((literal.pieces source).map fun p ↦ Text.ofString (source.slice p.start p.stop)).flatten =
        Text.ofString (source.slice (literal.label.start + 1) (literal.label.stop - 1)) ∧
      ((literal.pieces source).map Piece.part).filter Part.isSubstitution =
        (literal.inner.filter (·.kind = .templateSubstitution)).map (·.part source) ∧
      (∀ other : Node, other.IsSegmented source → other.label.start = literal.label.start → other.label.stop = literal.label.stop →
        other.marked = literal.marked → self.evalExpr (other.read source).expr = self.evalExpr (literal.read source).expr) ∧
      (literal.marked = [] → self.evalExpr (literal.read source).expr =
        pure (.string (.ofString (source.slice (literal.label.start + 1) (literal.label.stop - 1))))) := by
  have hmarked {literal : Node} (h : literal.IsSegmented source) : self.evalExpr (literal.read source).expr =
      Value.string <$> self.parts ((Node.woven source (literal.label.stop - 1) (literal.label.start + 1) literal.marked).map
        Piece.part) := by
    rw [self.evalExpr_literal h, Node.pieces, self.parts_woven_filter h.inOrder h.opening h.closing]
    rfl
  refine ⟨?_, Node.tiles_woven h.inOrder, Node.flatten_woven h.inOrder h.opening h.closing, Node.filter_woven _ _ _, ?_, ?_⟩
  · rw [self.evalExpr_literal h, parts_eq_mapM, Functor.map_map, List.mapM_map]
    rfl
  · intro other hother hstart hstop hsame
    rw [hmarked hother, hmarked h, hstart, hstop, hsame]
  · intro hnone
    rw [hmarked h, hnone]
    change Value.string <$> self.parts [.raw _] = _
    rw [parts_raw]
    exact congrArg (fun t ↦ (pure (Value.string t) : Eval Value)) (List.append_nil _)

/-- A text with a letter of two bytes in front of a substitution, and a fragment behind it. -/
def greeting : Source := .ofString "`é$\x7b1\x7d!`"

def greetingNode : Node :=
  .mk ⟨.templateString, 0, 9, none, true, false, false⟩
    [.leaf (.other "`") false 0 1,
      .mk ⟨.templateSubstitution, 3, 7, none, true, false, false⟩
        [.leaf (.other "$\x7b") false 3 5, .leaf .number true 5 6, .leaf (.other "\x7d") false 6 7],
      .leaf (.other "string_fragment") true 7 8,
      .leaf (.other "`") false 8 9]

theorem isSegmented_greeting : greetingNode.IsSegmented greeting := by
  have hboundary (k n : Nat) (h : Source.width (greeting.chars.take k) = n) : greeting.IsBoundary n :=
    ⟨_, _, (List.take_append_drop k greeting.chars).symm, h⟩
  refine ⟨.inr rfl, hboundary 1 1 rfl, hboundary 7 8 rfl, ?_, ?_⟩
  · exact ⟨by decide, by decide, hboundary 2 3 rfl, hboundary 6 7 rfl, by decide, by decide, hboundary 6 7 rfl,
      hboundary 7 8 rfl, Nat.le_refl 8⟩
  · exact List.forall_mem_cons.mpr ⟨rfl, List.forall_mem_singleton.mpr rfl⟩

theorem string_literal_value_greeting : greetingNode.IsSegmented greeting ∧
    (ofDepth {} 1).evalExpr (greetingNode.read greeting).expr Machine.initial = .ok (.string "é1!") Machine.initial := by
  refine ⟨isSegmented_greeting, ?_⟩
  rw [(string_literal_value (ofDepth {} 1) isSegmented_greeting).1]
  rfl

end Evaluator

end Stepwise
