import Stepwise.Trace
/-!
Programs with a gap in them: a statement that no tree is read as stands where another one is to be filled in.
-/

namespace Stepwise

/-- A statement from no place in a text. -/
def Stmt.gap : Stmt := .unsupported "" .unknown

def Stmt.isGap : Stmt → Bool
  | unsupported kind location => kind = "" && location = .unknown
  | _ => false

theorem Stmt.eq_gap_of_isGap {s : Stmt} (h : s.isGap = true) : s = gap := by
  cases s with
  | unsupported kind location =>
    obtain ⟨rfl, rfl⟩ : kind = "" ∧ location = .unknown := by simpa [isGap] using h
    rfl
  | _ => cases h

/-- What may be filled in for a gap: statements without any effect on the state. -/
inductive Filler where
  | unsupported (kind : String) (location : Location)
  | empty

namespace Filler

def stmt : Filler → Stmt
  | unsupported kind location => .unsupported kind location
  | empty => .empty

/-- What is reported each time control reaches it. -/
def reports : Filler → List Diagnostic
  | unsupported kind location => [.unsupported kind location]
  | empty => []

end Filler

theorem sizeOf_snd_lt {α β : Type} [SizeOf α] [SizeOf β] {p : α × β} {l : List (α × β)} (h : p ∈ l) :
    sizeOf p.2 < sizeOf l := by
  have hlt := List.sizeOf_lt_of_mem h
  have hp : sizeOf p = 1 + sizeOf p.1 + sizeOf p.2 := rfl
  omega

mutual

/-- The same expression with something filled in for the gaps in it, and so on for all other forms. -/
def Expr.fill (x : Filler) : Expr → Expr
  | .string parts => .string (parts.map (Part.fill x))
  | .logical op left right => .logical op (left.fill x) (right.fill x)
  | .binary op left right => .binary op (left.fill x) (right.fill x)
  | .unsupportedBinary symbol left right location => .unsupportedBinary symbol (left.fill x) (right.fill x) location
  | .unary op argument => .unary op (argument.fill x)
  | .unsupportedUnary symbol argument location => .unsupportedUnary symbol (argument.fill x) location
  | .update increments givesNew place => .update increments givesNew (place.fill x)
  | .assign place value => .assign (place.fill x) (value.fill x)
  | .assignSlots slots value => .assignSlots (slots.map fun slot ↦ (slot.1, slot.2.fill x)) (value.fill x)
  | .conditional condition consequence alternative =>
    .conditional (condition.fill x) (consequence.fill x) (alternative.fill x)
  | .parenthesized (some inner) => .parenthesized (some (inner.fill x))
  | .call callee arguments location => .call (callee.fill x) (arguments.map (Expr.fill x)) location
  | .member object property => .member (object.fill x) property
  | .subscript object index => .subscript (object.fill x) (index.fill x)
  | .array elements => .array (elements.map fun element ↦ (element.1, element.2.fill x))
  | .object members => .object (members.map (Member.fill x))
  | .function name params body line => .function name params (body.fill x) line
  | e => e
termination_by e => sizeOf e
decreasing_by all_goals first | decreasing_tactic | exact Nat.lt_of_lt_of_le (sizeOf_snd_lt ‹_ ∈ _›) (by simp <;> omega)

def Part.fill (x : Filler) : Part → Part
  | .raw text => .raw text
  | .escape sequence => .escape sequence
  | .substitution none => .substitution none
  | .substitution (some value) => .substitution (some (value.fill x))
termination_by p => sizeOf p

def Place.fill (x : Filler) : Place → Place
  | .name name => .name name
  | .member object property => .member (object.fill x) property
  | .subscript object index => .subscript (object.fill x) (index.fill x)
  | .unsupported value kind location => .unsupported (value.fill x) kind location
  | .incomplete => .incomplete
termination_by p => sizeOf p

def Slot.fill (x : Filler) : Slot → Slot
  | .target text place => .target text (place.fill x)
  | .unsupported kind location => .unsupported kind location
termination_by s => sizeOf s

def Key.fill (x : Filler) : Key → Key
  | .name name => .name name
  | .number literal => .number literal
  | .string parts => .string (parts.map (Part.fill x))
  | .computed value => .computed (value.fill x)
termination_by k => sizeOf k

def Member.fill (x : Filler) : Member → Member
  | .pair key value => .pair (key.fill x) (value.fill x)
  | .shorthand name => .shorthand name
  | .unsupported kind location => .unsupported kind location
termination_by m => sizeOf m

def Body.fill (x : Filler) : Body → Body
  | .expression value => .expression (value.fill x)
  | .block hoisted statements => .block hoisted (statements.map (Stmt.fill x))
  | .incomplete => .incomplete
termination_by b => sizeOf b

def Stmt.fill (x : Filler) : Stmt → Stmt
  | .expression (some value) location => .expression (some (value.fill x)) location
  | .declaration kind declarators location => .declaration kind (declarators.map (Declarator.fill x)) location
  | .function name params body location => .function name params (body.fill x) location
  | .returns (some value) location => .returns (some (value.fill x)) location
  | .conditional condition consequence none location =>
    .conditional (condition.fill x) (consequence.fill x) none location
  | .conditional condition consequence (some none) location =>
    .conditional (condition.fill x) (consequence.fill x) (some none) location
  | .conditional condition consequence (some (some alternative)) location =>
    .conditional (condition.fill x) (consequence.fill x) (some (some (alternative.fill x))) location
  | .loop initializer condition update body =>
    .loop (initializer.fill x) (match condition with | some e => some (e.fill x) | none => none)
      (match update with | some e => some (e.fill x) | none => none) (body.fill x)
  | .block statements => .block (statements.map (Stmt.fill x))
  | .unsupported kind location => if (Stmt.unsupported kind location).isGap then x.stmt else .unsupported kind location
  | s => s
termination_by s => sizeOf s

def Declarator.fill (x : Filler) : Declarator → Declarator
  | .mk target none => .mk (target.fill x) none
  | .mk target (some value) => .mk (target.fill x) (some (value.fill x))
termination_by d => sizeOf d

def Binder.fill (x : Filler) : Binder → Binder
  | .name name => .name name
  | .slots slots => .slots (slots.map fun slot ↦ (slot.1, slot.2.fill x))
  | .unsupported kind location => .unsupported kind location
  | .incomplete => .incomplete
termination_by b => sizeOf b
decreasing_by exact Nat.lt_of_lt_of_le (sizeOf_snd_lt ‹_ ∈ _›) (by simp)

def Initializer.fill (x : Filler) : Initializer → Initializer
  | .none => .none
  | .expression value => .expression (value.fill x)
  | .declaration perIteration statement => .declaration perIteration (statement.fill x)
termination_by i => sizeOf i

end

def Program.fill (x : Filler) (p : Program) : Program := ⟨p.hoisted, p.statements.map (Stmt.fill x)⟩

section Equations

variable (x : Filler)

theorem Expr.fill_identifier (name : String) : (identifier name).fill x = identifier name := by simp only [Expr.fill]

theorem Expr.fill_incomplete : incomplete.fill x = incomplete := by simp only [Expr.fill]

theorem Stmt.fill_incomplete : incomplete.fill x = incomplete := by simp only [Stmt.fill]

theorem Body.fill_incomplete : incomplete.fill x = incomplete := by simp only [Body.fill]

theorem Place.fill_incomplete : incomplete.fill x = incomplete := by simp only [Place.fill]

theorem Initializer.fill_none : none.fill x = none := by simp only [Initializer.fill]

@[simp] theorem Stmt.fill_gap : gap.fill x = x.stmt := by
  rw [gap, Stmt.fill]
  rfl

theorem Stmt.fill_unsupported {kind : String} {location : Location} (h : (unsupported kind location).isGap = false) :
    (unsupported kind location).fill x = unsupported kind location := by
  rw [Stmt.fill, h]
  rfl

theorem Expr.fill_parenthesized (inner : Option Expr) :
    (parenthesized inner).fill x = parenthesized (inner.map (Expr.fill x)) := by
  cases inner <;> simp only [Expr.fill, Option.map]

theorem Part.fill_substitution (value : Option Expr) :
    (substitution value).fill x = substitution (value.map (Expr.fill x)) := by
  cases value <;> simp only [Part.fill, Option.map]

theorem Stmt.fill_expression (value : Option Expr) (location : Location) :
    (expression value location).fill x = expression (value.map (Expr.fill x)) location := by
  cases value <;> simp only [Stmt.fill, Option.map]

theorem Stmt.fill_returns (value : Option Expr) (location : Location) :
    (returns value location).fill x = returns (value.map (Expr.fill x)) location := by
  cases value <;> simp only [Stmt.fill, Option.map]

theorem Stmt.fill_conditional (condition : Expr) (consequence : Stmt) (alternative : Option (Option Stmt))
    (location : Location) : (conditional condition consequence alternative location).fill x =
      conditional (condition.fill x) (consequence.fill x) (alternative.map (Option.map (Stmt.fill x))) location := by
  obtain _ | _ | alternative := alternative <;> simp only [Stmt.fill, Option.map]

theorem Stmt.fill_loop (initializer : Initializer) (condition update : Option Expr) (body : Stmt) :
    (loop initializer condition update body).fill x =
      loop (initializer.fill x) (condition.map (Expr.fill x)) (update.map (Expr.fill x)) (body.fill x) := by
  cases condition <;> cases update <;> simp only [Stmt.fill, Option.map]

theorem Declarator.fill_mk (target : Binder) (value : Option Expr) :
    (mk target value).fill x = mk (target.fill x) (value.map (Expr.fill x)) := by
  cases value <;> simp only [Declarator.fill, Option.map]

theorem Stmt.fill_ne_comment {s : Stmt} (h : s ≠ comment) : s.fill x ≠ comment := by
  cases s with
  | comment => exact absurd rfl h
  | unsupported kind location =>
    rw [Stmt.fill]
    split
    · cases x <;> nofun
    · nofun
  | expression => rw [fill_expression]; nofun
  | returns => rw [fill_returns]; nofun
  | conditional => rw [fill_conditional]; nofun
  | loop => rw [fill_loop]; nofun
  | _ => simp only [Stmt.fill]; nofun

end Equations

end Stepwise
