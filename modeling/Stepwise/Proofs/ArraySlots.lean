import Stepwise.Proofs.ElementKeys
import Stepwise.Proofs.Layout
import Stepwise.Proofs.ObjectLiteral
import Stepwise.Proofs.Value.Text
/-!
Array literals and array patterns. A pattern goes by the slots of its targets, but a literal puts its elements one behind
the other: the array has them in the slots they are written in as long as no hole is in front of one.
-/

namespace Stepwise

namespace Heap

variable {heap heap' : Heap} {address : Address} {elements : List Value}

theorem elements?_eq_content? (heap : Heap) (address : Address) : heap.elements? (.object address) =
    (heap.content? address).bind fun cell ↦ if cell.isArray then some cell.elements else none := by
  rw [elements?, content?, Option.bind_map]
  rfl

theorem getProperty_of_elements? (h : heap.elements? (.object address) = some elements) (i : Nat) :
    heap.getProperty (.object address) (Value.ofInt i).toKey = .ok (elements.getD i .undefined) := by
  obtain ⟨cell, hcell, harray, rfl⟩ := exists_cell_of_elements? h
  have hlength : (Value.ofInt i).toKey ≠ Cell.lengthKey := by
    intro hkey
    have hindex := arrayIndex?_toKey i
    rw [hkey] at hindex
    cases hindex
  unfold getProperty
  dsimp only
  rw [hcell]
  dsimp only
  rw [Cell.read, if_pos harray, if_neg hlength, arrayIndex?_toKey]
  rfl

end Heap

theorem Engine.exists_newArray (elements : List Value) (s : State) : ∃ address t,
    Engine.newArray elements s = .ok (.object address) t ∧ t.heap.elements? (.object address) = some elements := by
  refine ⟨.array (s.lastId + 1), _, rfl, ?_⟩
  rw [Heap.elements?_eq_content?]
  change Option.bind (Heap.content? (s.heap.store (.array (s.lastId + 1)) { isArray := true, elements } elements) _) _ = _
  rw [Heap.content?_store, Option.bind_some]
  rfl

namespace State

variable {s t : State} {ids : List Nat}

/-- After a row of assignments every name means what was assigned to it last. -/
theorem Sees.exists_assignAll (h : s.Sees ids) (row : List (String × Value)) :
    ∃ t, (row.forM fun e ↦ Engine.assign e.1 e.2) s = .ok () t ∧
      (∀ x, x ∉ row.map Prod.fst → t.resolve x = s.resolve x) ∧
      ∀ before x v behind, row = before ++ (x, v) :: behind → x ∉ behind.map Prod.fst → t.resolve x = .ok v := by
  induction row generalizing s with
  | nil =>
    refine ⟨s, rfl, fun _ _ ↦ rfl, fun before x v behind hrow ↦ ?_⟩
    exact absurd hrow.symm (List.append_ne_nil_of_right_ne_nil before (List.cons_ne_nil _ behind))
  | cons e row ih =>
    obtain ⟨s₁, hassign, hassigns, hsees⟩ := h.exists_assign e.1 e.2
    obtain ⟨t, ht, hkept, hlast⟩ := ih hsees
    refine ⟨t, ?_, fun x hx ↦ ?_, fun before x v behind hrow hx ↦ ?_⟩
    · rw [List.forM, bind_apply, hassign]
      exact ht
    · rw [List.map_cons, List.mem_cons, not_or] at hx
      rw [hkept x hx.2, hassigns.others x hx.1]
    · cases before with
      | nil =>
        cases hrow
        rw [hkept x hx, hassigns.resolved]
      | cons _ before =>
        cases hrow
        exact hlast before x v behind rfl hx

end State

namespace Node

/-- The value written in a slot of a literal, if the elements have some values; a hole is undefined. -/
def written (n : Node) (vs : List Value) (i : Nat) : Value :=
  (((n.layout.map Prod.fst).zip vs).lookup i).getD .undefined

theorem lookup_zip_range' (vs : List Value) (k i : Nat) : ((List.range' k vs.length).zip vs).lookup (k + i) = vs[i]? := by
  induction vs generalizing k i with
  | nil => rfl
  | cons v vs ih =>
    rw [List.length_cons, List.range'_succ, List.zip_cons_cons]
    cases i with
    | zero => exact List.lookup_cons_self
    | succ i =>
      have hne : (k + (i + 1) == k) = false := beq_eq_false_iff_ne.mpr (by omega)
      have hrest := ih (k + 1) i
      rw [Nat.add_right_comm, Nat.add_assoc] at hrest
      rw [List.lookup_cons, hne, List.getElem?_cons_succ]
      exact hrest

theorem IsPacked.written_eq {n : Node} (h : n.IsPacked) {vs : List Value} (hlength : vs.length = n.layout.length) (i : Nat) :
    n.written vs i = vs.getD i .undefined := by
  have hlookup := lookup_zip_range' vs 0 i
  rw [Nat.zero_add] at hlookup
  rw [written, h.slots_eq, ← hlength, List.range_eq_range', hlookup, List.getD_eq_getElem?_getD]

variable (source : Source) (value : Nat → Value)

theorem child?_readAll_of_some {field : String} {n child : Node} (h : n.child? field = some child) :
    Reading.child? field (readAll source n.children) = some (child.read source) := by
  rw [child?_readAll, h, Option.map_some]

theorem declarator_read_of_slots {pattern value d : Node} (hpattern : pattern.kind = .arrayPattern)
    (hname : d.child? "name" = some pattern) (hvalue : d.child? "value" = some value) :
    (d.read source).declarator = .mk (.slots (pattern.read source).slots) (some (value.read source).expr) := by
  have hdeclarator : (d.read source).declarator = Reading.readDeclarator (readAll source d.children) := by
    obtain ⟨label, children⟩ := d
    rfl
  rw [hdeclarator]
  unfold Reading.readDeclarator
  rw [child?_readAll_of_some source hname, child?_readAll_of_some source hvalue]
  dsimp only
  rw [kind_read, hpattern]
  rfl

theorem expr_read_of_assignSlots {pattern value a : Node} (hpattern : pattern.kind = .arrayPattern)
    (ha : a.kind = .assignmentExpression) (hleft : a.child? "left" = some pattern) (hright : a.child? "right" = some value) :
    (a.read source).expr = .assignSlots (pattern.read source).slots (value.read source).expr := by
  have hkind : a.label.kind = .assignmentExpression := ha
  rw [expr_read]
  unfold Reading.readExpr
  rw [hkind]
  dsimp only
  unfold Reading.readAssignment Reading.exprAt
  rw [child?_readAll_of_some source hleft, child?_readAll_of_some source hright]
  dsimp only
  rw [if_pos ((kind_read source pattern).trans hpattern)]
  rfl

theorem place_read_of_identifier {n : Node} (h : n.kind = .identifier) : (n.read source).place = .name (n.text source) := by
  obtain ⟨label, children⟩ := n
  have hplace : ((mk label children).read source).place = Reading.readPlace label.kind _ _ _ _ := rfl
  have hkind : label.kind = .identifier := h
  rw [hplace, hkind]
  rfl

/-- The names that the targets of a pattern are written as, each with the value for its slot. -/
def targetRow (n : Node) : List (String × Value) :=
  n.layout.filterMap fun e ↦ if e.2.isTarget then some (e.2.text source, value e.1) else none

/-- What is reported of a pattern: its elements that are no targets. -/
def patternProblems (n : Node) : List Diagnostic :=
  n.layout.filterMap fun e ↦ if e.2.isTarget then none else some (.unsupported e.2.kind.name (e.2.location source))

theorem slotRow_slots_read (elements : List Value) (n : Node) :
    slotRow elements (n.read source).slots = n.targetRow source fun i ↦ elements.getD i .undefined := by
  rw [slots_read, slotRow, List.filterMap_map, targetRow]
  refine List.filterMap_congr fun e _ ↦ ?_
  rw [Function.comp_apply, slot_read]
  by_cases htarget : e.2.isTarget
  · rw [if_pos htarget, if_pos htarget]
  · rw [if_neg htarget, if_neg htarget]

theorem slotProblems_slots_read (n : Node) : slotProblems (n.read source).slots = n.patternProblems source := by
  rw [slots_read, slotProblems, List.filterMap_map, patternProblems]
  refine List.filterMap_congr fun e _ ↦ ?_
  rw [Function.comp_apply, slot_read]
  by_cases htarget : e.2.isTarget
  · rw [if_pos htarget, if_pos htarget]
  · rw [if_neg htarget, if_neg htarget]

end Node

namespace Evaluator

variable {self : Evaluator}

theorem length_of_exprs {es : List Expr} {vs : List Value} {m n : Machine Journal} (h : self.exprs es m = .ok vs n) :
    vs.length = es.length := by
  induction es generalizing vs m with
  | nil =>
    cases h
    rfl
  | cons e es ih =>
    obtain ⟨v, m₁, -, h⟩ := bind_eq_ok h
    obtain ⟨vs, m₂, hvs, h⟩ := bind_eq_ok h
    cases h
    rw [List.length_cons, List.length_cons, ih hvs]

theorem bindSlots_slots_read (source : Source) (elements : List Value) (bind : String → Place → Value → Eval Unit)
    (pattern : Node) : bindSlots elements bind (pattern.read source).slots = pattern.layout.forM fun e ↦
      if e.2.isTarget then bind (e.2.text source) (e.2.read source).place (elements.getD e.1 .undefined)
      else Eval.reportUnsupported e.2.kind.name (e.2.location source) := by
  rw [Node.slots_read]
  induction pattern.layout with
  | nil => rfl
  | cons e es ih =>
    rw [List.map_cons, List.forM, ← ih, Node.slot_read]
    by_cases htarget : e.2.isTarget
    · rw [if_pos htarget, if_pos htarget]
      rfl
    · rw [if_neg htarget, if_neg htarget]
      rfl

variable {settings : Settings} {source : Source} {depth : Nat} {m n : Machine Journal} {address : Address} {vs : List Value}

theorem exists_array {literal : Node} (hliteral : literal.kind = .array)
    (hvs : (ofDepth settings depth).exprs (literal.layout.map fun e ↦ (e.2.read source).expr) m = .ok vs n) :
    ∃ address p, (ofDepth settings (depth + 1)).expr (literal.read source).expr m = .ok (.object address) p ∧
      p.state.heap.elements? (.object address) = some vs := by
  obtain ⟨address, t, ht, helements⟩ := Engine.exists_newArray vs n.state
  refine ⟨address, { n with state := t }, ?_, helements⟩
  have hexprs : ((literal.layout.map fun e ↦ (e.1, (e.2.read source).expr)).map Prod.snd) =
      literal.layout.map fun e ↦ (e.2.read source).expr := List.map_map
  have hnext : ((ofDepth settings depth).next settings).expr = (ofDepth settings depth).evalExpr := rfl
  rw [ofDepth_succ, hnext, Node.expr_read_of_array source hliteral]
  unfold evalExpr
  dsimp only
  rw [hexprs, bind_apply, hvs]
  exact Activity.ofEngine_apply ht

theorem exists_declared_slots (hs : settings.names = .ofScopes) {pattern value d : Node}
    (hpattern : pattern.kind = .arrayPattern) (hname : d.child? "name" = some pattern) (hd : d.child? "value" = some value)
    (hvalue : (ofDepth settings depth).expr (value.read source).expr m = .ok (.object address) n)
    (helements : n.state.heap.elements? (.object address) = some vs) (hn : n.state.LexicallyScoped) (kind : BindingKind) :
    ∃ id scope t, (ofDepth settings depth).declarator kind (d.read source).declarator m =
        .ok () ({ n with state := t }.reporting (pattern.patternProblems source)) ∧
      n.state.home kind = .ok id ∧ n.state.scope? id = some scope ∧
      n.state.Declares kind id (pattern.targetRow source fun i ↦ vs.getD i .undefined) t := by
  obtain ⟨id, scope, hhome, hscope⟩ := hn.exists_home kind
  obtain ⟨t, ht, hdeclares⟩ := Eval.exists_bindSlots vs (pattern.read source).slots hhome hscope
  rw [Node.slotRow_slots_read] at hdeclares
  rw [Node.slotProblems_slots_read] at ht
  refine ⟨id, scope, t, ?_, hhome, hscope, hdeclares⟩
  have hoptional : (ofDepth settings depth).optional (some (value.read source).expr) m = .ok (.object address) n := hvalue
  rw [Node.declarator_read_of_slots source hpattern hname hd, declarator_mk, bind_apply, hoptional]
  dsimp only
  unfold bindTarget
  dsimp only
  have hheap : Eval.getHeap n = .ok n.state.heap n := rfl
  rw [bind_apply, hheap]
  dsimp only
  rw [helements, names_ofDepth, hs]
  exact ht

/-- Assigns to the targets of a pattern, one after the other, the values for their slots. -/
def assignTargets (self : Evaluator) (source : Source) (value : Nat → Value) (pattern : Node) : Eval Unit :=
  pattern.layout.forM fun e ↦
    if e.2.isTarget then self.assignTo (e.2.read source).place (value e.1)
    else Eval.reportUnsupported e.2.kind.name (e.2.location source)

theorem assignTargets_of_names (hs : self.names = .ofScopes) {value : Nat → Value} {pattern : Node} {t : State}
    (hnames : ∀ e ∈ pattern.layout, e.2.kind = .identifier)
    (ht : ((pattern.targetRow source value).forM fun e ↦ Engine.assign e.1 e.2) m.state = .ok () t) :
    self.assignTargets source value pattern m = .ok () { m with state := t } := by
  unfold assignTargets
  unfold Node.targetRow at ht
  generalize pattern.layout = es at hnames ht ⊢
  induction es generalizing m with
  | nil =>
    cases ht
    rfl
  | cons e es ih =>
    obtain ⟨hname, hrest⟩ := List.forall_mem_cons.mp hnames
    have htarget : e.2.isTarget = true := by simp [Node.isTarget, hname]
    rw [List.filterMap_cons, if_pos htarget] at ht
    obtain ⟨⟨⟩, s, hassign, ht⟩ := bind_eq_ok ht
    have happly : self.assignTo (e.2.read source).place (value e.1) m = .ok () { m with state := s } := by
      rw [Node.place_read_of_identifier source hname, assignTo, hs]
      exact Activity.ofEngine_apply hassign
    rw [List.forM, if_pos htarget, bind_apply, happly]
    exact ih (m := { m with state := s }) hrest ht

theorem expr_of_assignSlots {pattern value a : Node} (hpattern : pattern.kind = .arrayPattern)
    (ha : a.kind = .assignmentExpression) (hleft : a.child? "left" = some pattern) (hright : a.child? "right" = some value)
    (hvalue : (ofDepth settings depth).expr (value.read source).expr m = .ok (.object address) n)
    (helements : n.state.heap.elements? (.object address) = some vs) :
    (ofDepth settings (depth + 1)).expr (a.read source).expr m =
      ((fun _ ↦ .object address) <$>
        (ofDepth settings depth).assignTargets source (fun i ↦ vs.getD i .undefined) pattern : Eval Value) n := by
  have hnext : ((ofDepth settings depth).next settings).expr = (ofDepth settings depth).evalExpr := rfl
  have hheap : Eval.getHeap n = .ok n.state.heap n := rfl
  rw [ofDepth_succ, hnext, Node.expr_read_of_assignSlots source hpattern ha hleft hright]
  unfold evalExpr
  dsimp only
  unfold assignSlots
  rw [bind_apply, hvalue]
  dsimp only
  rw [bind_apply, hheap]
  dsimp only
  rw [helements]
  dsimp only
  rw [bindSlots_slots_read, bind_pure_comp]
  rfl

end Evaluator

open Evaluator

/-- A literal in which no element has a hole in front of it makes an array that has every element in the slot it is written
in, and undefined in the others. A pattern that this array is the value for gives each of its targets what is written in the
slot of the target: in a declaration its name is declared with it, in an assignment it is assigned, and where all targets
are names they mean just that in the end. -/
theorem array_slots {settings : Settings} (hs : settings.names = .ofScopes) {source : Source} {literal : Node}
    (hliteral : literal.kind = .array) (hpacked : literal.IsPacked) {depth : Nat} {m n : Machine Journal} {vs : List Value}
    (hvs : (ofDepth settings depth).exprs (literal.layout.map fun e ↦ (e.2.read source).expr) m = .ok vs n) :
    ∃ address p, (ofDepth settings (depth + 1)).expr (literal.read source).expr m = .ok (.object address) p ∧
      (∀ i : Nat, p.state.heap.getProperty (.object address) (Value.ofInt i).toKey = .ok (literal.written vs i)) ∧
      ∀ (pattern value : Node) depth r q, pattern.kind = .arrayPattern →
        (ofDepth settings depth).expr (value.read source).expr r = .ok (.object address) q →
        q.state.heap.content? address = p.state.heap.content? address → q.state.LexicallyScoped →
        (∀ (d : Node) kind, d.child? "name" = some pattern → d.child? "value" = some value →
          ∃ id t, (ofDepth settings depth).declarator kind (d.read source).declarator r =
              .ok () ({ q with state := t }.reporting (pattern.patternProblems source)) ∧ q.state.home kind = .ok id ∧
            q.state.Declares kind id (pattern.targetRow source (literal.written vs)) t ∧
            ∀ before x v behind, pattern.targetRow source (literal.written vs) = before ++ (x, v) :: behind →
              x ∉ behind.map Prod.fst → t.cell? id x = some v) ∧
        ∀ a : Node, a.kind = .assignmentExpression → a.child? "left" = some pattern → a.child? "right" = some value →
          (ofDepth settings (depth + 1)).expr (a.read source).expr r = ((fun _ ↦ .object address) <$>
            (ofDepth settings depth).assignTargets source (literal.written vs) pattern : Eval Value) q ∧
          ((∀ e ∈ pattern.layout, e.2.kind = .identifier) →
            ∃ t, (ofDepth settings (depth + 1)).expr (a.read source).expr r = .ok (.object address) { q with state := t } ∧
              ∀ before x v behind, pattern.targetRow source (literal.written vs) = before ++ (x, v) :: behind →
                x ∉ behind.map Prod.fst → t.resolve x = .ok v) := by
  obtain ⟨address, p, hp, helements⟩ := exists_array hliteral hvs
  have hlength : vs.length = literal.layout.length := (length_of_exprs hvs).trans (List.length_map _)
  have hwritten : literal.written vs = fun i ↦ vs.getD i .undefined := funext (hpacked.written_eq hlength)
  refine ⟨address, p, hp, fun i ↦ ?_, fun pattern value depth r q hpattern hvalue hcontent hq ↦ ?_⟩
  · rw [hwritten]
    exact Heap.getProperty_of_elements? helements i
  have helements' : q.state.heap.elements? (.object address) = some vs := by
    rw [Heap.elements?_eq_content?, hcontent, ← Heap.elements?_eq_content?, helements]
  rw [hwritten]
  constructor
  · intro d kind hname hd
    obtain ⟨id, scope, t, ht, hhome, hscope, hdeclares⟩ :=
      exists_declared_slots hs hpattern hname hd hvalue helements' hq kind
    refine ⟨id, t, ht, hhome, hdeclares, fun before x v behind hrow hx ↦ ?_⟩
    obtain ⟨scope', hscope', hget⟩ := (hrow ▸ hdeclares).get?_of_last hscope hx
    rw [State.cell?, hscope', Option.bind_some, hget]
  · intro a ha hleft hright
    have hassign := expr_of_assignSlots hpattern ha hleft hright hvalue helements'
    refine ⟨hassign, fun hnames ↦ ?_⟩
    obtain ⟨ids, hsees⟩ := hq.exists_sees
    obtain ⟨t, ht, -, hlast⟩ := hsees.exists_assignAll (pattern.targetRow source fun i ↦ vs.getD i .undefined)
    refine ⟨t, ?_, hlast⟩
    rw [hassign, map_apply, assignTargets_of_names ((names_ofDepth settings depth).trans hs) hnames ht]

/-- A list in brackets from some offset on, every part of it being one byte long. -/
def bracketed (kind : Kind) (start : Nat) (parts : List Kind) : Node :=
  .branch kind <| ((.other "[" :: parts ++ [.other "]"] : List Kind).zipIdx start).map fun e ↦
    .leaf e.1 (e.1 == .identifier || e.1 == .number) e.2 (e.2 + 1)

/-- A pattern that leaves out the slot in the middle, and an assignment to it. -/
def outerNames : Node := (bracketed .arrayPattern 0 [.identifier, .other ",", .other ",", .identifier]).inRole "left"

def outerAssignment (literal : Node) : Node :=
  .branch .assignmentExpression [outerNames, .leaf (.other "=") false 6 7, literal]

def tripleSource : Source := .ofString "[p,,q]=[1,2,3]"

def triple : Node := (bracketed .array 7 [.number, .other ",", .number, .other ",", .number]).inRole "right"

theorem array_slots_of_triple : triple.IsPacked ∧ ∃ address p t,
    (ofDepth {} 2).expr (triple.read tripleSource).expr .initial = .ok (.object address) p ∧
    p.state.heap.getProperty (.object address) (Value.ofInt 2).toKey = .ok (.ofInt 3) ∧
    (ofDepth {} 3).expr ((outerAssignment triple).read tripleSource).expr .initial =
      .ok (.object address) { p with state := t } ∧
    t.resolve "q" = .ok (.ofInt 3) := by
  have hs : ({} : Settings).names = .ofScopes := rfl
  have hpacked : triple.IsPacked := Node.isPacked_of_slots rfl
  obtain ⟨n, hvs⟩ : ∃ n, (ofDepth {} 1).exprs (triple.layout.map fun e ↦ (e.2.read tripleSource).expr) .initial =
      .ok [.ofInt 1, .ofInt 2, .ofInt 3] n := ⟨_, rfl⟩
  obtain ⟨address, p, hp, hread, hslots⟩ := array_slots hs rfl hpacked hvs
  have hinitial : (ofDepth {} 2).optional (some (triple.read tripleSource).expr) .initial = .ok (.object address) p := hp
  have hscoped := lexicallyScoped_of_optional hs (Correspondence.Scoping.holds_initial True) hinitial
  obtain ⟨-, hassigned⟩ := hslots outerNames triple 2 .initial p rfl hp rfl hscoped
  obtain ⟨-, hnames⟩ := hassigned (outerAssignment triple) rfl rfl rfl
  obtain ⟨t, ht, hlast⟩ := hnames (by decide)
  exact ⟨hpacked, address, p, t, hp, hread 2, ht, hlast [("p", .ofInt 1)] "q" (.ofInt 3) [] rfl List.not_mem_nil⟩

/-- With a hole in front of it the last element slips into the slot of the hole. -/
theorem array_slots_with_hole :
    let source := Source.ofString "[p,,q]=[1,,3]"
    let literal := (bracketed .array 7 [.number, .other ",", .other ",", .number]).inRole "right"
    literal.written [.ofInt 1, .ofInt 3] 2 = .ofInt 3 ∧ ∃ n address p,
      (ofDepth {} 1).exprs (literal.layout.map fun e ↦ (e.2.read source).expr) .initial = .ok [.ofInt 1, .ofInt 3] n ∧
      (ofDepth {} 2).expr (literal.read source).expr .initial = .ok (.object address) p ∧
      p.state.heap.getProperty (.object address) (Value.ofInt 2).toKey = .ok .undefined :=
  ⟨rfl, _, _, _, rfl, rfl, rfl⟩

end Stepwise
