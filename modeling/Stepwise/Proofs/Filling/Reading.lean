import Stepwise.Program.Reading
import Stepwise.Proofs.Filling.Gap
/-!
Readings with gaps. A node is read from children with a filler in the gaps as what it is read as from the children with
the gaps, the filler put in; and no node is read as a gap.
-/

namespace Stepwise

theorem Source.location_ne_unknown (source : Source) (start stop : Nat) : source.location start stop ≠ .unknown := by
  intro h
  have hline : ((source.point start).1 : Int) + 1 = 0 := congrArg Location.startLine h
  omega

namespace Reading

variable {f : Reading → Reading} (hf : ∀ r, (f r).label = r.label) (rs : List Reading)
include hf

theorem significant_map : significant (rs.map f) = (significant rs).map f := by
  unfold significant
  rw [List.filter_map]
  exact congrArg (fun p ↦ (rs.filter p).map f) (funext fun r ↦ by simp only [Function.comp_apply, kind, hf])

theorem first?_map : first? (rs.map f) = (first? rs).map f := by
  unfold first?
  rw [significant_map hf, List.head?_map]

theorem child?_map (field : String) : child? field (rs.map f) = (child? field rs).map f := by
  unfold child?
  rw [List.find?_map]
  exact congrArg (fun p ↦ (rs.find? p).map f) (funext fun r ↦ by simp only [Function.comp_apply, hf])

theorem slotted_map {α : Type} (g : Reading → α) (n : Nat) : slotted g n (rs.map f) = slotted (g ∘ f) n rs := by
  induction rs generalizing n with
  | nil => rfl
  | cons r rs ih =>
    simp only [List.map_cons, slotted, isComma, kind, hf, ih, Function.comp_apply]
    rfl

end Reading

/-- The same reading with something filled in for the gaps in it. -/
def Reading.fill (x : Filler) (r : Reading) : Reading :=
  { r with
    expr := r.expr.fill x
    stmt := r.stmt.fill x
    place := r.place.fill x
    slot := r.slot.fill x
    slots := r.slots.map fun slot ↦ (slot.1, slot.2.fill x)
    items := r.items.map (Expr.fill x)
    key := r.key.fill x
    member := r.member.fill x
    body := r.body.fill x
    declarator := r.declarator.fill x
    clause := r.clause.map (Expr.fill x)
    initializer := r.initializer.fill x
    branch := r.branch.map (Stmt.fill x) }

namespace Reading

variable (x : Filler) (rs : List Reading)

theorem label_fill (r : Reading) : (r.fill x).label = r.label := rfl

theorem kind_fill (r : Reading) : (r.fill x).kind = r.kind := rfl

theorem text_fill (r : Reading) : (r.fill x).text = r.text := rfl

theorem slotted_fill {α : Type} {g : Reading → α} {h : α → α} (hg : ∀ r, g (fill x r) = h (g r)) (n : Nat) :
    slotted g n (rs.map (fill x)) = (slotted g n rs).map fun slot ↦ (slot.1, h slot.2) := by
  rw [slotted_map (label_fill x)]
  induction rs generalizing n with
  | nil => rfl
  | cons r rs ih =>
    simp only [slotted, Function.comp_apply, hg, ih]
    split
    · rfl
    · split <;> rfl

theorem map_significant_fill {α : Type} {g : Reading → α} {h : α → α} (hg : ∀ r, g (fill x r) = h (g r)) :
    (significant (rs.map (fill x))).map g = ((significant rs).map g).map h := by
  rw [significant_map (label_fill x), List.map_map, List.map_map]
  exact congrArg (fun g ↦ (significant rs).map g) (funext hg)

theorem map_first?_fill {α : Type} {g : Reading → α} {h : α → α} (hg : ∀ r, g (fill x r) = h (g r)) :
    (first? (rs.map (fill x))).map g = ((first? rs).map g).map h := by
  rw [first?_map (label_fill x), Option.map_map, Option.map_map]
  exact congrArg (fun g ↦ (first? rs).map g) (funext hg)

theorem map_child?_fill {α : Type} {g : Reading → α} {h : α → α} (hg : ∀ r, g (fill x r) = h (g r))
    (field : String) : (child? field (rs.map (fill x))).map g = ((child? field rs).map g).map h := by
  rw [child?_map (label_fill x), Option.map_map, Option.map_map]
  exact congrArg (fun g ↦ (child? field rs).map g) (funext hg)

theorem child?_fill {α : Type} {g : Reading → α} (hg : ∀ r, g (fill x r) = g r) (field : String) :
    (child? field (rs.map (fill x))).map g = (child? field rs).map g := by
  rw [map_child?_fill x rs (h := id) hg, Option.map_id, id_eq]

theorem getD_first?_fill {α : Type} {g : Reading → α} {h : α → α} {a : α} (hg : ∀ r, g (fill x r) = h (g r))
    (ha : h a = a) : ((first? (rs.map (fill x))).map g).getD a = h (((first? rs).map g).getD a) := by
  rw [map_first?_fill x rs hg, ← Option.getD_map h, ha]

theorem getD_child?_fill {α : Type} {g : Reading → α} {h : α → α} {a : α} (hg : ∀ r, g (fill x r) = h (g r))
    (ha : h a = a) (field : String) :
    ((child? field (rs.map (fill x))).map g).getD a = h (((child? field rs).map g).getD a) := by
  rw [map_child?_fill x rs hg, ← Option.getD_map h, ha]

theorem exprAt_fill (field : String) : exprAt field (rs.map (fill x)) = (exprAt field rs).fill x :=
  getD_child?_fill x rs (g := expr) (fun _ ↦ rfl) (Expr.fill_incomplete x) field

theorem stmtAt_fill (field : String) : stmtAt field (rs.map (fill x)) = (stmtAt field rs).fill x :=
  getD_child?_fill x rs (g := stmt) (fun _ ↦ rfl) (Stmt.fill_incomplete x) field

theorem bodyOf_fill : bodyOf (rs.map (fill x)) = (bodyOf rs).fill x :=
  getD_child?_fill x rs (g := body) (fun _ ↦ rfl) (Body.fill_incomplete x) "body"

theorem paramsOf_fill : paramsOf (rs.map (fill x)) = paramsOf rs := by
  unfold paramsOf
  rw [child?_map (label_fill x), child?_map (label_fill x)]
  cases child? "parameters" rs with
  | some r => rfl
  | none => cases child? "parameter" rs <;> rfl

theorem parts_fill (source : Source) (start stop cursor : Nat) :
    parts source start stop cursor (rs.map (fill x)) = (parts source start stop cursor rs).map (Part.fill x) := by
  induction rs generalizing cursor with
  | nil =>
    rw [List.map_nil, parts]
    split
    · rw [List.map_singleton, Part.fill]
    · rfl
  | cons r rs ih =>
    have hbetween : (if cursor < r.label.start then [Part.raw (source.slice cursor r.label.start)] else []).map
        (Part.fill x) = if cursor < r.label.start then [Part.raw (source.slice cursor r.label.start)] else [] := by
      split
      · rw [List.map_singleton, Part.fill]
      · rfl
    rw [List.map_cons, parts, parts, label_fill, kind_fill, text_fill]
    dsimp only
    split
    · exact ih cursor
    · rw [List.map_append, List.map_append, hbetween, ih]
      cases r.kind with
      | escapeSequence => rw [List.map_singleton, Part.fill]
      | templateSubstitution =>
        rw [List.map_singleton, Part.fill_substitution, ← List.head?_map]
        rfl
      | comment | htmlComment => rfl
      | _ => rw [List.map_singleton, Part.fill]

theorem literal_fill (source : Source) (label : Label) :
    literal source label (rs.map (fill x)) = (literal source label rs).map (Part.fill x) := parts_fill ..

theorem readBinary_fill (location : Location) :
    readBinary location (rs.map (fill x)) = (readBinary location rs).fill x := by
  unfold readBinary
  rw [child?_map (label_fill x)]
  cases child? "operator" rs with
  | none => exact (Expr.fill_incomplete x).symm
  | some op =>
    simp only [Option.map_some, exprAt_fill, text_fill]
    cases LogicalOp.ofSymbol? op.text with
    | some op => rw [Expr.fill]
    | none => cases BinaryOp.ofSymbol? op.text <;> rw [Expr.fill]

theorem readUnary_fill (location : Location) :
    readUnary location (rs.map (fill x)) = (readUnary location rs).fill x := by
  unfold readUnary
  rw [child?_map (label_fill x)]
  cases child? "operator" rs with
  | none => exact (Expr.fill_incomplete x).symm
  | some op =>
    simp only [Option.map_some, exprAt_fill, text_fill]
    cases UnaryOp.ofSymbol? op.text <;> rw [Expr.fill]

theorem readUpdate_fill : readUpdate (rs.map (fill x)) = (readUpdate rs).fill x := by
  unfold readUpdate
  rw [child?_map (label_fill x), child?_map (label_fill x)]
  cases child? "argument" rs with
  | none => exact (Expr.fill_incomplete x).symm
  | some argument =>
    cases child? "operator" rs with
    | none => exact (Expr.fill_incomplete x).symm
    | some op =>
      cases rs with
      | nil => exact (Expr.fill_incomplete x).symm
      | cons front rs =>
        simp only [Option.map_some, List.map_cons, Expr.fill]
        rfl

theorem readAssignment_fill : readAssignment (rs.map (fill x)) = (readAssignment rs).fill x := by
  unfold readAssignment
  rw [child?_map (label_fill x), exprAt_fill]
  cases child? "left" rs with
  | none => exact (Expr.fill_incomplete x).symm
  | some left =>
    change (if left.kind = .arrayPattern then _ else _) = Expr.fill x (if left.kind = .arrayPattern then _ else _)
    split <;> rw [Expr.fill] <;> rfl

theorem readCall_fill (location : Location) : readCall location (rs.map (fill x)) = (readCall location rs).fill x := by
  unfold readCall
  rw [child?_map (label_fill x), exprAt_fill, Expr.fill]
  cases child? "arguments" rs <;> rfl

theorem readExpr_fill (source : Source) (label : Label) (text : String) (location : Location) :
    readExpr source label text location (rs.map (fill x)) = (readExpr source label text location rs).fill x := by
  have helements := slotted_fill x rs (g := expr) (h := Expr.fill x) (fun _ ↦ rfl) 0
  have hmembers := map_significant_fill x rs (g := member) (h := Member.fill x) fun _ ↦ rfl
  have hinner := map_first?_fill x rs (g := expr) (h := Expr.fill x) fun _ ↦ rfl
  have hname := child?_fill x rs (g := Reading.text) (fun _ ↦ rfl) "name"
  unfold readExpr
  simp only [exprAt_fill, paramsOf_fill, bodyOf_fill, literal_fill, readBinary_fill, readUnary_fill, readUpdate_fill,
    readAssignment_fill, readCall_fill, helements, hmembers, hinner, hname]
  cases label.kind with
  | binaryExpression | unaryExpression | updateExpression | assignmentExpression | callExpression => rfl
  | memberExpression =>
    rw [child?_map (label_fill x)]
    cases child? "property" rs with
    | none => exact (Expr.fill_incomplete x).symm
    | some property =>
      rw [Expr.fill]
      rfl
  | parenthesizedExpression => rw [Expr.fill_parenthesized]
  | _ => simp only [Expr.fill]

theorem readPlace_fill (kind : Kind) (text : String) (location : Location) (e : Expr) :
    readPlace kind text location (e.fill x) (rs.map (fill x)) = (readPlace kind text location e rs).fill x := by
  have hinner := getD_first?_fill x rs (g := place) (fun _ ↦ rfl) (Place.fill_incomplete x)
  unfold readPlace
  cases kind with
  | memberExpression | subscriptExpression =>
    cases e with
    | parenthesized inner => rw [Expr.fill_parenthesized, Place.fill]
    | _ => simp only [Expr.fill, Place.fill]
  | parenthesizedExpression => exact hinner
  | _ => rw [Place.fill]

theorem readSlot_fill (kind : Kind) (text : String) (location : Location) (place : Place) :
    readSlot kind text location (place.fill x) = (readSlot kind text location place).fill x := by
  unfold readSlot
  cases kind <;> rw [Slot.fill]

theorem readKey_fill (kind : Kind) (text : String) (literal : List Part) :
    readKey kind text (literal.map (Part.fill x)) (rs.map (fill x)) = (readKey kind text literal rs).fill x := by
  have hinner := getD_first?_fill x rs (g := expr) (fun _ ↦ rfl) (Expr.fill_incomplete x)
  unfold readKey
  rw [hinner]
  cases kind <;> rw [Key.fill]

theorem readMember_fill (kind : Kind) (text : String) (location : Location) :
    readMember kind text location (rs.map (fill x)) = (readMember kind text location rs).fill x := by
  have hincomplete : (Key.computed .incomplete).fill x = .computed .incomplete := by rw [Key.fill, Expr.fill_incomplete]
  have hkey := getD_child?_fill x rs (g := Reading.key) (fun _ ↦ rfl) hincomplete "key"
  unfold readMember
  rw [hkey, exprAt_fill]
  cases kind <;> rw [Member.fill]

theorem readParam_fill (kind : Kind) (text : String) (location : Location) :
    readParam kind text location (rs.map (fill x)) = readParam kind text location rs := by
  have hleft : (child? "left" (rs.map (fill x))).map Reading.text = (child? "left" rs).map Reading.text :=
    child?_fill x rs (fun _ ↦ rfl) "left"
  unfold readParam
  rw [hleft]

theorem readDeclarator_fill : readDeclarator (rs.map (fill x)) = (readDeclarator rs).fill x := by
  have hvalue := map_child?_fill x rs (g := expr) (h := Expr.fill x) (fun _ ↦ rfl) "value"
  unfold readDeclarator
  rw [hvalue, child?_map (label_fill x), Declarator.fill_mk]
  refine congrArg (Declarator.mk · _) ?_
  cases child? "name" rs with
  | none => simp only [Option.map_none, Binder.fill]
  | some target =>
    simp only [Option.map_some, kind_fill, text_fill]
    cases target.kind <;> rw [Binder.fill] <;> rfl

theorem readDeclaration_fill (location : Location) :
    readDeclaration location (rs.map (fill x)) = (readDeclaration location rs).fill x := by
  cases rs with
  | nil => exact (Stmt.fill_incomplete x).symm
  | cons word rs =>
    have hdeclarators : ((significant ((word :: rs).map (fill x))).filter (·.kind = .variableDeclarator)).map
        declarator = (((significant (word :: rs)).filter (·.kind = .variableDeclarator)).map declarator).map
          (Declarator.fill x) := by
      rw [significant_map (label_fill x), List.filter_map, List.map_map, List.map_map]
      rfl
    unfold readDeclaration
    rw [List.map_cons] at hdeclarators ⊢
    simp only [hdeclarators, Stmt.fill]
    rfl

theorem readLoop_fill : readLoop (rs.map (fill x)) = (readLoop rs).fill x := by
  have hinitializer := getD_child?_fill x rs (g := initializer) (fun _ ↦ rfl) (Initializer.fill_none x) "initializer"
  have hcondition : (child? "condition" (rs.map (fill x))).bind clause =
      ((child? "condition" rs).bind clause).map (Expr.fill x) := by
    rw [child?_map (label_fill x)]
    cases child? "condition" rs <;> rfl
  have hupdate : ((child? "increment" (rs.map (fill x))).or (child? "update" (rs.map (fill x)))).map expr =
      (((child? "increment" rs).or (child? "update" rs)).map expr).map (Expr.fill x) := by
    rw [child?_map (label_fill x), child?_map (label_fill x)]
    cases child? "increment" rs <;> cases child? "update" rs <;> rfl
  unfold readLoop
  rw [hinitializer, hcondition, hupdate, stmtAt_fill, Stmt.fill_loop]

theorem readStmt_fill (kind : Kind) {location : Location} (hlocation : location ≠ .unknown) :
    readStmt kind location (rs.map (fill x)) = (readStmt kind location rs).fill x := by
  have hunsupported (kind : String) : (Stmt.unsupported kind location).isGap = false := by
    simp [Stmt.isGap, hlocation]
  have hinner := map_first?_fill x rs (g := expr) (h := Expr.fill x) fun _ ↦ rfl
  have hbranch := map_child?_fill x rs (g := branch) (h := Option.map (Stmt.fill x)) (fun _ ↦ rfl) "alternative"
  have hblock := map_significant_fill x rs (g := stmt) (h := Stmt.fill x) fun _ ↦ rfl
  unfold readStmt
  simp only [exprAt_fill, stmtAt_fill, paramsOf_fill, bodyOf_fill, readDeclaration_fill, readLoop_fill, hinner, hbranch,
    hblock]
  cases kind with
  | lexicalDeclaration | variableDeclaration | forStatement => rfl
  | functionDeclaration =>
    rw [child?_map (label_fill x)]
    cases child? "name" rs with
    | none => exact (Stmt.fill_incomplete x).symm
    | some name =>
      rw [Stmt.fill]
      rfl
  | expressionStatement => rw [Stmt.fill_expression]
  | returnStatement => rw [Stmt.fill_returns]
  | ifStatement => rw [Stmt.fill_conditional]
  | statementBlock => rw [Stmt.fill]
  | comment | htmlComment | emptyStatement => simp only [Stmt.fill]
  | _ => rw [Stmt.fill_unsupported x (hunsupported _)]

theorem readClause_fill (kind : Kind) (e : Expr) :
    readClause kind (e.fill x) (rs.map (fill x)) = (readClause kind e rs).map (Expr.fill x) := by
  have hinner := map_first?_fill x rs (g := expr) (h := Expr.fill x) fun _ ↦ rfl
  unfold readClause
  rw [hinner]
  cases kind with
  | other name =>
    dsimp only
    rw [apply_ite (Option.map (Expr.fill x))]
    rfl
  | _ => rfl

theorem readInitializer_fill (kind : Kind) (s : Stmt) (clause : Option Expr) :
    readInitializer kind (s.fill x) (clause.map (Expr.fill x)) = (readInitializer kind s clause).fill x := by
  unfold readInitializer
  cases kind <;> cases clause <;> simp only [Initializer.fill, Option.map_none, Option.map_some]

theorem hoistedBy_fill : hoistedBy (rs.map (fill x)) = hoistedBy rs := by
  unfold hoistedBy
  rw [significant_map (label_fill x), List.flatMap_map]
  rfl

theorem readBody_fill (kind : Kind) (e : Expr) :
    readBody kind (e.fill x) (rs.map (fill x)) = (readBody kind e rs).fill x := by
  have hblock := map_significant_fill x rs (g := stmt) (h := Stmt.fill x) fun _ ↦ rfl
  unfold readBody
  rw [hoistedBy_fill, hblock]
  cases kind <;> rw [Body.fill]

theorem readNames_fill (kind : Kind) (text : String) :
    readNames kind text (rs.map (fill x)) = readNames kind text rs := by
  unfold readNames
  rw [significant_map (label_fill x), List.flatMap_map]
  rfl

theorem readDeclared_fill (kind : Kind) : readDeclared kind (rs.map (fill x)) = readDeclared kind rs := by
  unfold readDeclared
  rw [hoistedBy_fill, significant_map (label_fill x), List.flatMap_map]
  rfl

theorem fill_ofChildren (source : Source) (label : Label) :
    (ofChildren source label rs).fill x = ofChildren source label (rs.map (fill x)) := by
  -- what is not supported is read with its place, so that it is no gap
  have hlocation := source.location_ne_unknown label.start label.stop
  have hliteral : (if label.kind = .string then literal source label (rs.map (fill x)) else []) =
      (if label.kind = .string then literal source label rs else []).map (Part.fill x) := by
    rw [literal_fill, apply_ite (List.map (Part.fill x))]
    rfl
  have hslots := slotted_fill x rs (g := slot) (h := Slot.fill x) (fun _ ↦ rfl) 0
  have hitems := map_significant_fill x rs (g := expr) (h := Expr.fill x) fun _ ↦ rfl
  have hparams : (significant (rs.map (fill x))).map param = (significant rs).map param := by
    rw [significant_map (label_fill x), List.map_map]
    rfl
  have hbranch := map_first?_fill x rs (g := stmt) (h := Stmt.fill x) fun _ ↦ rfl
  have hnames := child?_fill x rs (g := names) (fun _ ↦ rfl) "name"
  unfold ofChildren
  simp only [readExpr_fill, readStmt_fill x rs _ hlocation, readPlace_fill, readSlot_fill, hslots, hitems, hliteral,
    readKey_fill, readMember_fill, readParam_fill, hparams, readBody_fill, readDeclarator_fill, readClause_fill,
    readInitializer_fill, hbranch, readNames_fill, hnames, readDeclared_fill, fill,
    apply_ite (Option.map (Stmt.fill x)), Option.map_some]

end Reading

mutual

/-- No node is read as a gap. -/
theorem Node.fill_read (x : Filler) (source : Source) : (n : Node) → (n.read source).fill x = n.read source
  | .mk label children => by
    rw [Node.read, Reading.fill_ofChildren, Node.map_fill_readAll]

theorem Node.map_fill_readAll (x : Filler) (source : Source) :
    (ns : List Node) → (readAll source ns).map (Reading.fill x) = readAll source ns
  | [] => rfl
  | n :: ns => by
    rw [Node.readAll, List.map_cons, Node.fill_read, Node.map_fill_readAll]

end

end Stepwise
