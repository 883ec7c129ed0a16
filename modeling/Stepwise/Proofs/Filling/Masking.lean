import Stepwise.Proofs.Comments
import Stepwise.Proofs.Filling.Reading
/-!
What blocks are read for. A block is read as a statement, as a body and for the variables declared in it; what else its
children might be read as does not matter where it is neither a list of arguments or parameters nor declared.
-/

namespace Stepwise

/-- Whether a child plays a role in which it would be read as a list of expressions or of parameters. -/
def Label.listsOthers (label : Label) : Bool := label.field.any ["arguments", "parameters", "parameter"].contains

namespace Reading

/-- A reading, of a block without what other nodes are read for. -/
def masked (r : Reading) : Reading :=
  if r.kind = .statementBlock ∧ r.label.listsOthers = false then
    { r with items := [], params := [], slots := [], declarator := .mk .incomplete none, bound := [] }
  else r

/-- What looks at none of the parts that may be left out. -/
def Overlooks {α : Type} (g : Reading → α) : Prop :=
  ∀ r items params slots declarator bound, g { r with items, params, slots, declarator, bound } = g r

variable {α : Type} {g : Reading → α} (rs : List Reading)

section Overlooks

theorem overlooks_label : Overlooks label := fun _ _ _ _ _ _ ↦ rfl
theorem overlooks_text : Overlooks Reading.text := fun _ _ _ _ _ _ ↦ rfl
theorem overlooks_location : Overlooks location := fun _ _ _ _ _ _ ↦ rfl
theorem overlooks_expr : Overlooks expr := fun _ _ _ _ _ _ ↦ rfl
theorem overlooks_stmt : Overlooks stmt := fun _ _ _ _ _ _ ↦ rfl
theorem overlooks_place : Overlooks place := fun _ _ _ _ _ _ ↦ rfl
theorem overlooks_slot : Overlooks slot := fun _ _ _ _ _ _ ↦ rfl
theorem overlooks_key : Overlooks key := fun _ _ _ _ _ _ ↦ rfl
theorem overlooks_param : Overlooks param := fun _ _ _ _ _ _ ↦ rfl
theorem overlooks_body : Overlooks body := fun _ _ _ _ _ _ ↦ rfl
theorem overlooks_member : Overlooks member := fun _ _ _ _ _ _ ↦ rfl
theorem overlooks_clause : Overlooks clause := fun _ _ _ _ _ _ ↦ rfl
theorem overlooks_initializer : Overlooks initializer := fun _ _ _ _ _ _ ↦ rfl
theorem overlooks_branch : Overlooks branch := fun _ _ _ _ _ _ ↦ rfl
theorem overlooks_names : Overlooks names := fun _ _ _ _ _ _ ↦ rfl
theorem overlooks_declared : Overlooks declared := fun _ _ _ _ _ _ ↦ rfl

end Overlooks

theorem Overlooks.masked (hg : Overlooks g) (r : Reading) : g r.masked = g r := by
  unfold Reading.masked
  split
  · exact hg ..
  · rfl

theorem label_masked (r : Reading) : r.masked.label = r.label := overlooks_label.masked r

theorem text_masked (r : Reading) : r.masked.text = r.text := overlooks_text.masked r

theorem kind_masked (r : Reading) : r.masked.kind = r.kind := congrArg Label.kind r.label_masked

theorem masked_of_kind {r : Reading} (h : r.kind ≠ .statementBlock) : r.masked = r := if_neg fun hr ↦ h hr.1

theorem masked_of_listsOthers {r : Reading} (h : r.label.listsOthers = true) : r.masked = r := if_neg fun hr ↦ by
  rw [h] at hr
  cases hr.2

theorem child?_masked (hg : Overlooks g) (field : String) :
    (child? field (rs.map masked)).map g = (child? field rs).map g := by
  rw [child?_map label_masked, Option.map_map]
  exact congrArg (fun g ↦ Option.map g (child? field rs)) (funext hg.masked)

theorem first?_masked (hg : Overlooks g) : (first? (rs.map masked)).map g = (first? rs).map g := by
  rw [first?_map label_masked, Option.map_map]
  exact congrArg (fun g ↦ Option.map g (first? rs)) (funext hg.masked)

theorem map_significant_masked (hg : Overlooks g) : (significant (rs.map masked)).map g = (significant rs).map g := by
  rw [significant_map label_masked, List.map_map]
  exact congrArg (fun g ↦ (significant rs).map g) (funext hg.masked)

theorem slotted_masked (hg : Overlooks g) (n : Nat) : slotted g n (rs.map masked) = slotted g n rs := by
  rw [slotted_map label_masked]
  exact congrArg (fun g ↦ slotted g n rs) (funext hg.masked)

theorem child?_masked_of_listsOthers {field : String} (h : field ∈ ["arguments", "parameters", "parameter"]) :
    child? field (rs.map masked) = child? field rs := by
  rw [child?_map label_masked]
  cases hr : child? field rs with
  | none => rfl
  | some r =>
    have hfield : r.label.field = some field := by simpa using List.find?_some hr
    have hlists : r.label.listsOthers = true := by
      unfold Label.listsOthers
      rw [hfield]
      exact List.elem_iff.mpr h
    exact congrArg some (masked_of_listsOthers hlists)

theorem exprAt_masked (field : String) : exprAt field (rs.map masked) = exprAt field rs := by
  unfold exprAt
  rw [child?_masked rs overlooks_expr]

theorem stmtAt_masked (field : String) : stmtAt field (rs.map masked) = stmtAt field rs := by
  unfold stmtAt
  rw [child?_masked rs overlooks_stmt]

theorem bodyOf_masked : bodyOf (rs.map masked) = bodyOf rs := by
  unfold bodyOf
  rw [child?_masked rs overlooks_body]

theorem paramsOf_masked : paramsOf (rs.map masked) = paramsOf rs := by
  unfold paramsOf
  rw [child?_masked_of_listsOthers rs (by decide), child?_masked_of_listsOthers rs (by decide)]

theorem parts_masked (source : Source) (start stop cursor : Nat) :
    parts source start stop cursor (rs.map masked) = parts source start stop cursor rs := by
  induction rs generalizing cursor with
  | nil => rfl
  | cons r rs ih =>
    have hitems (h : r.kind = .templateSubstitution) : r.masked.items = r.items := by
      rw [masked_of_kind (by rw [h]; nofun)]
    rw [List.map_cons, parts, parts, label_masked, kind_masked, text_masked, ih, ih]
    cases hkind : r.kind with
    | templateSubstitution => simp only [hitems hkind]
    | _ => rfl

theorem readBinary_masked (location : Location) : readBinary location (rs.map masked) = readBinary location rs := by
  unfold readBinary
  rw [child?_map label_masked, exprAt_masked, exprAt_masked]
  cases child? "operator" rs with
  | none => rfl
  | some op => simp only [Option.map_some, text_masked]

theorem readUnary_masked (location : Location) : readUnary location (rs.map masked) = readUnary location rs := by
  unfold readUnary
  rw [child?_map label_masked, exprAt_masked]
  cases child? "operator" rs with
  | none => rfl
  | some op => simp only [Option.map_some, text_masked]

theorem readUpdate_masked : readUpdate (rs.map masked) = readUpdate rs := by
  have hplace (r : Reading) : r.masked.place = r.place := overlooks_place.masked r
  unfold readUpdate
  rw [child?_map label_masked, child?_map label_masked]
  cases child? "argument" rs with
  | none => rfl
  | some argument =>
    cases child? "operator" rs with
    | none => rfl
    | some op =>
      cases rs with
      | nil => rfl
      | cons front rs => simp only [Option.map_some, List.map_cons, text_masked, kind_masked, hplace]

theorem readAssignment_masked : readAssignment (rs.map masked) = readAssignment rs := by
  have hplace (r : Reading) : r.masked.place = r.place := overlooks_place.masked r
  unfold readAssignment
  rw [child?_map label_masked, exprAt_masked]
  cases child? "left" rs with
  | none => rfl
  | some left =>
    simp only [Option.map_some, kind_masked, hplace]
    split
    next hkind => rw [masked_of_kind (by rw [hkind]; nofun)]
    next => rfl

theorem readCall_masked (location : Location) : readCall location (rs.map masked) = readCall location rs := by
  unfold readCall
  rw [exprAt_masked, child?_masked_of_listsOthers rs (by decide)]

theorem readDeclarator_masked : readDeclarator (rs.map masked) = readDeclarator rs := by
  have hlocation (r : Reading) : r.masked.location = r.location := overlooks_location.masked r
  unfold readDeclarator
  rw [child?_masked rs overlooks_expr, child?_map label_masked]
  cases child? "name" rs with
  | none => rfl
  | some target =>
    simp only [Option.map_some, kind_masked, text_masked, hlocation]
    cases hkind : target.kind with
    | arrayPattern => rw [masked_of_kind (by rw [hkind]; nofun)]
    | _ => rfl

theorem readDeclaration_masked (location : Location) :
    readDeclaration location (rs.map masked) = readDeclaration location rs := by
  cases rs with
  | nil => rfl
  | cons word rs =>
    have hdeclarators : ((significant ((word :: rs).map masked)).filter (·.kind = .variableDeclarator)).map declarator =
        ((significant (word :: rs)).filter (·.kind = .variableDeclarator)).map declarator := by
      rw [significant_map label_masked, List.filter_map, List.map_map]
      simp only [Function.comp_def, kind_masked]
      refine List.map_congr_left fun r hr ↦ ?_
      have hkind : r.kind = .variableDeclarator := by simpa using (List.mem_filter.mp hr).2
      rw [masked_of_kind (by rw [hkind]; nofun)]
    unfold readDeclaration
    rw [List.map_cons] at hdeclarators ⊢
    simp only [hdeclarators, text_masked]

theorem readLoop_masked : readLoop (rs.map masked) = readLoop rs := by
  have hcondition : (child? "condition" (rs.map masked)).bind clause = (child? "condition" rs).bind clause := by
    rw [child?_map label_masked]
    cases child? "condition" rs with
    | none => rfl
    | some r => exact overlooks_clause.masked r
  have hupdate : ((child? "increment" (rs.map masked)).or (child? "update" (rs.map masked))).map expr =
      ((child? "increment" rs).or (child? "update" rs)).map expr := by
    rw [Option.map_or, Option.map_or, child?_masked rs overlooks_expr,
      child?_masked rs overlooks_expr]
  unfold readLoop
  rw [hcondition, hupdate, stmtAt_masked, child?_masked rs overlooks_initializer]

theorem readExpr_masked (source : Source) (label : Label) (text : String) (location : Location) :
    readExpr source label text location (rs.map masked) = readExpr source label text location rs := by
  unfold readExpr literal
  simp only [exprAt_masked, paramsOf_masked, bodyOf_masked, parts_masked, readBinary_masked, readUnary_masked,
    readUpdate_masked, readAssignment_masked, readCall_masked, slotted_masked rs overlooks_expr,
    map_significant_masked rs overlooks_member, first?_masked rs overlooks_expr,
    child?_masked rs overlooks_text]
  cases label.kind with
  | memberExpression =>
    rw [child?_map label_masked]
    cases child? "property" rs with
    | none => rfl
    | some property => simp only [Option.map_some, text_masked]
  | _ => rfl

theorem readStmt_masked (kind : Kind) (location : Location) :
    readStmt kind location (rs.map masked) = readStmt kind location rs := by
  unfold readStmt
  simp only [exprAt_masked, stmtAt_masked, paramsOf_masked, bodyOf_masked, readDeclaration_masked, readLoop_masked,
    first?_masked rs overlooks_expr, map_significant_masked rs overlooks_stmt,
    child?_masked rs overlooks_branch]
  cases kind with
  | functionDeclaration =>
    rw [child?_map label_masked]
    cases child? "name" rs with
    | none => rfl
    | some name => simp only [Option.map_some, text_masked]
  | _ => rfl

theorem hoistedBy_masked : hoistedBy (rs.map masked) = hoistedBy rs := by
  unfold hoistedBy
  rw [List.flatMap_def, List.flatMap_def, map_significant_masked rs overlooks_declared]

/-- Nothing but a `var` declaration reads what is left out. -/
theorem ofChildren_masked (source : Source) {label : Label} (h : label.kind ≠ .variableDeclaration) :
    ofChildren source label (rs.map masked) = ofChildren source label rs := by
  have hnames := map_significant_masked rs overlooks_names
  have hstmt := map_significant_masked rs overlooks_stmt
  unfold ofChildren
  simp only [readExpr_masked, readStmt_masked, readDeclarator_masked]
  simp only [readPlace, readClause, readMember, readKey, readParam, readBody, readNames, readDeclared, h, if_false,
    hoistedBy_masked, exprAt_masked, List.flatMap_def, hnames, hstmt, literal, parts_masked,
    map_significant_masked rs overlooks_expr, map_significant_masked rs overlooks_param,
    slotted_masked rs overlooks_slot, first?_masked rs overlooks_place,
    first?_masked rs overlooks_expr, first?_masked rs overlooks_stmt,
    child?_masked rs overlooks_key, child?_masked rs overlooks_text,
    child?_masked rs overlooks_names]

end Reading

end Stepwise
