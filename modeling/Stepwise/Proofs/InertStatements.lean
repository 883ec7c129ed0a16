import Stepwise.Proofs.Filling.Masking
import Stepwise.Proofs.Filling.Run
/-!
Unsupported statements are inert. A statement of a kind that is not run can be replaced by an empty one in any list of
statements of a tree: the run is the same, and all that goes is one report for each time that control reached it.
-/

namespace Stepwise

/-- The kinds of statements that are run. -/
def Kind.isRun : Kind → Bool
  | expressionStatement | lexicalDeclaration | variableDeclaration | functionDeclaration | returnStatement | ifStatement
  | forStatement | statementBlock | emptyStatement => true
  | _ => false

mutual

/-- Whether a `var` declaration stands in a tree outside of the functions and classes in it. -/
def Node.declares : Node → Bool
  | .mk label children => !label.kind.confinesVariables && (label.kind = .variableDeclaration || declaresAny children)

def Node.declaresAny : List Node → Bool
  | [] => false
  | n :: ns => n.declares || declaresAny ns

end

/-- A node without one of its children. -/
structure Layer where
  label : Label
  before : List Node
  after : List Node

def Layer.fill (l : Layer) (n : Node) : Node := .mk l.label (l.before ++ n :: l.after)

/-- A tree without one of its nodes, by the layers around that, from the root inwards. -/
inductive Site where
  | list (layer : Layer)
  | within (layer : Layer) (site : Site)

namespace Site

def fill : Site → Node → Node
  | list l, n => l.fill n
  | within l s, n => l.fill (s.fill n)

/-- Whether the missing node is one of a list of statements: of the whole program, or of a block. A block that stands as
the arguments of a call or as the parameters of a function, or among the declarators of a `var`, is none. -/
def isListed : Site → Bool
  | list _ => true
  | within outer (list inner) => inner.label.kind = .statementBlock && !inner.label.listsOthers &&
    outer.label.kind != .variableDeclaration
  | within _ (within outer s) => (within outer s).isListed

end Site

/-- The program of a root from the readings of its children. -/
def Program.ofReadings (rs : List Reading) : Program :=
  ⟨Reading.hoistedBy rs, (Reading.significant rs).map Reading.stmt⟩

section Reading

variable (source : Source)

def Layer.readings (l : Layer) (r : Reading) : List Reading :=
  Node.readAll source l.before ++ r :: Node.readAll source l.after

def Layer.read (l : Layer) (r : Reading) : Reading := .ofChildren source l.label (l.readings source r)

namespace Site

/-- The reading of a tree from the reading of the missing node. -/
def read : Site → Reading → Reading
  | list l, r => l.read source r
  | within l s, r => l.read source (s.read r)

/-- The program of a tree from the reading of the missing node. -/
def program : Site → Reading → Program
  | list l, r => .ofReadings (l.readings source r)
  | within l s, r => .ofReadings (l.readings source (s.read source r))

end Site

end Reading

theorem Node.readAll_append (source : Source) (ns ns' : List Node) :
    readAll source (ns ++ ns') = readAll source ns ++ readAll source ns' := by
  induction ns with
  | nil => rfl
  | cons n ns ih => rw [List.cons_append, readAll, readAll, ih, List.cons_append]

theorem Layer.readAll_children_fill (source : Source) (l : Layer) (n : Node) :
    Node.readAll source (l.fill n).children = l.readings source (n.read source) := by
  unfold fill readings Node.children
  rw [Node.readAll_append, Node.readAll]

theorem Layer.read_fill (source : Source) (l : Layer) (n : Node) :
    (l.fill n).read source = l.read source (n.read source) := by
  rw [fill, Node.read]
  exact congrArg (Reading.ofChildren source l.label) (l.readAll_children_fill source n)

theorem Site.read_fill (source : Source) (s : Site) (n : Node) :
    (s.fill n).read source = s.read source (n.read source) := by
  induction s with
  | list l => exact l.read_fill source n
  | within l s ih => rw [fill, Layer.read_fill, ih, read]

theorem Program.ofTree_fill (source : Source) (s : Site) (n : Node) :
    ofTree source (s.fill n) = s.program source (n.read source) := by
  have hroot (l : Layer) (n : Node) : ofTree source (l.fill n) = ofReadings (l.readings source (n.read source)) :=
    congrArg ofReadings (l.readAll_children_fill source n)
  cases s with
  | list l => exact hroot l n
  | within l s => rw [Site.fill, hroot, s.read_fill, Site.program]

section Filling

variable (x : Filler) (source : Source) (r : Reading)

theorem Layer.map_fill_readings (l : Layer) :
    (l.readings source r).map (Reading.fill x) = l.readings source (r.fill x) := by
  unfold readings
  rw [List.map_append, List.map_cons, Node.map_fill_readAll, Node.map_fill_readAll]

theorem Layer.fill_read (l : Layer) : (l.read source r).fill x = l.read source (r.fill x) := by
  rw [read, Reading.fill_ofChildren, map_fill_readings, read]

theorem Site.fill_read (s : Site) : (s.read source r).fill x = s.read source (r.fill x) := by
  induction s with
  | list l => exact l.fill_read x source r
  | within l s ih => rw [read, Layer.fill_read, ih, read]

theorem Program.fill_ofReadings (rs : List Reading) : (ofReadings rs).fill x = ofReadings (rs.map (Reading.fill x)) := by
  unfold ofReadings
  rw [Reading.hoistedBy_fill, Reading.map_significant_fill x rs (h := Stmt.fill x) fun _ ↦ rfl]
  rfl

theorem Site.fill_program (s : Site) : (s.program source r).fill x = s.program source (r.fill x) := by
  cases s with
  | list l => rw [program, Program.fill_ofReadings, Layer.map_fill_readings, program]
  | within l s => rw [program, Program.fill_ofReadings, Layer.map_fill_readings, Site.fill_read, program]

end Filling

/-- Two readings that are the same as statements. -/
structure Reading.StandsFor (r r' : Reading) : Prop where
  named : r.label.named = true ∧ r'.label.named = true
  isComment : r.kind.isComment = false ∧ r'.kind.isComment = false
  stmt : r.stmt = r'.stmt
  declared : r.declared = r'.declared

namespace Reading.StandsFor

variable (source : Source) {r r' : Reading} (h : r.StandsFor r')
include h

theorem map_significant {α : Type} {g : Reading → α} (hg : g r = g r') (l : Layer) :
    (significant (l.readings source r)).map g = (significant (l.readings source r')).map g := by
  have hr : (r.label.named && !r.kind.isComment) = true := by rw [h.named.1, h.isComment.1]; rfl
  have hr' : (r'.label.named && !r'.kind.isComment) = true := by rw [h.named.2, h.isComment.2]; rfl
  unfold significant Layer.readings
  rw [List.filter_append, List.filter_append, List.filter_cons_of_pos (by exact hr),
    List.filter_cons_of_pos (by exact hr'), List.map_append, List.map_append, List.map_cons, List.map_cons, hg]

theorem hoistedBy (l : Layer) :
    Reading.hoistedBy (l.readings source r) = Reading.hoistedBy (l.readings source r') := by
  unfold Reading.hoistedBy
  rw [List.flatMap_def, List.flatMap_def, h.map_significant source h.declared]

theorem masked_read {l : Layer} (hkind : l.label.kind = .statementBlock) (hlists : l.label.listsOthers = false) :
    (l.read source r).masked = (l.read source r').masked := by
  have hmasked (r : Reading) : (l.read source r).masked = { l.read source r with
      items := [], params := [], slots := [], declarator := .mk .incomplete none, bound := [] } := if_pos ⟨hkind, hlists⟩
  rw [hmasked, hmasked]
  unfold Layer.read ofChildren
  simp only [hkind, readExpr, readStmt, readPlace, readSlot, readKey, readMember, readParam, readBody, readClause,
    readInitializer, readNames, readDeclared, h.hoistedBy source, h.map_significant source h.stmt]
  rfl

theorem map_masked_readings {outer l : Layer} (hlisted : (Site.within outer (.list l)).isListed = true) :
    (outer.readings source (l.read source r)).map masked = (outer.readings source (l.read source r')).map masked := by
  obtain ⟨⟨hkind, hlists⟩, -⟩ : (l.label.kind = .statementBlock ∧ l.label.listsOthers = false) ∧
      outer.label.kind ≠ .variableDeclaration := by simpa [Site.isListed] using hlisted
  unfold Layer.readings
  rw [List.map_append, List.map_append, List.map_cons, List.map_cons, h.masked_read source hkind hlists]

/-- Further out, the two readings make no difference. -/
theorem read_within {outer : Layer} {s : Site} (hlisted : (Site.within outer s).isListed = true) :
    (Site.within outer s).read source r = (Site.within outer s).read source r' := by
  induction s generalizing outer with
  | list l =>
    -- the block itself is read differently as a list of expressions, which the layer around it overlooks
    have houter : outer.label.kind ≠ .variableDeclaration := by
      simp only [Site.isListed, Bool.and_eq_true, bne_iff_ne] at hlisted
      exact hlisted.2
    have hmasked := congrArg (ofChildren source outer.label) (h.map_masked_readings source hlisted)
    rwa [ofChildren_masked _ source houter, ofChildren_masked _ source houter] at hmasked
  | within l s ih => exact congrArg (outer.read source) (ih hlisted)

theorem program_eq {s : Site} (hlisted : s.isListed = true) : s.program source r = s.program source r' := by
  have hmasked (rs : List Reading) : Program.ofReadings (rs.map masked) = .ofReadings rs := by
    unfold Program.ofReadings
    rw [map_significant_masked rs overlooks_stmt, hoistedBy_masked]
  cases s with
  | list l =>
    unfold Site.program Program.ofReadings
    simp only [h.hoistedBy source, h.map_significant source h.stmt]
  | within outer s =>
    cases s with
    | list l =>
      have hreadings := congrArg Program.ofReadings (h.map_masked_readings source hlisted)
      rwa [hmasked, hmasked] at hreadings
    | within l s => exact congrArg (fun r ↦ Program.ofReadings (outer.readings source r)) (h.read_within source hlisted)

end Reading.StandsFor

mutual

theorem Node.declared_read (source : Source) : {n : Node} → n.declares = false → (n.read source).declared = []
  | .mk label children, h => by
    rw [Node.read]
    change Reading.readDeclared label.kind (readAll source children) = []
    unfold Reading.readDeclared
    cases hconfines : label.kind.confinesVariables with
    | true => rfl
    | false =>
      obtain ⟨hkind, hchildren⟩ : label.kind ≠ .variableDeclaration ∧ declaresAny children = false := by
        simpa [declares, hconfines] using h
      rw [if_neg nofun, if_neg hkind]
      unfold Reading.hoistedBy
      exact List.flatMap_eq_nil_iff.mpr fun r hr ↦ Node.declared_readAll source hchildren r (List.mem_filter.mp hr).1

theorem Node.declared_readAll (source : Source) :
    {ns : List Node} → declaresAny ns = false → ∀ r ∈ readAll source ns, r.declared = []
  | [], _, _, hr => nomatch hr
  | n :: ns, h, r, hr => by
    obtain ⟨hn, hns⟩ : n.declares = false ∧ declaresAny ns = false := by simpa [declaresAny] using h
    rw [readAll] at hr
    obtain rfl | hr := List.mem_cons.mp hr
    · exact Node.declared_read source hn
    · exact Node.declared_readAll source hns r hr

end

/-- A reading as a gap. -/
def Reading.gap : Reading := { (Node.leaf .emptyStatement true 0 0).read ⟨[]⟩ with stmt := .gap }

/-- Something filled in for a gap reads as a statement like a node that is read as the filler. -/
theorem Node.standsFor_gap (source : Source) {n : Node} {x : Filler} (hnamed : n.label.named = true)
    (hcomment : n.kind.isComment = false) (hstmt : (n.read source).stmt = x.stmt) (hdeclares : n.declares = false) :
    (n.read source).StandsFor (Reading.gap.fill x) where
  named := ⟨by rw [n.label_read]; exact hnamed, rfl⟩
  isComment := ⟨by rw [Reading.kind, n.label_read]; exact hcomment, rfl⟩
  stmt := hstmt.trans (Stmt.fill_gap x).symm
  declared := Node.declared_read source hdeclares

theorem Program.ofTree_fill_gap (source : Source) {s : Site} {n : Node} {x : Filler} (hlisted : s.isListed = true)
    (hnamed : n.label.named = true) (hcomment : n.kind.isComment = false) (hstmt : (n.read source).stmt = x.stmt)
    (hdeclares : n.declares = false) : ofTree source (s.fill n) = (s.program source .gap).fill x := by
  rw [ofTree_fill, Site.fill_program]
  exact (n.standsFor_gap source hnamed hcomment hstmt hdeclares).program_eq source hlisted

theorem Reading.readStmt_of_isRun {kind : Kind} (hrun : kind.isRun = false) (hcomment : kind.isComment = false)
    (location : Location) (rs : List Reading) : readStmt kind location rs = .unsupported kind.name location := by
  cases kind with
  | comment | htmlComment => cases hcomment
  | expressionStatement | lexicalDeclaration | variableDeclaration | functionDeclaration | returnStatement | ifStatement
  | forStatement | statementBlock | emptyStatement => cases hrun
  | _ => rfl

theorem Filler.flatMap_report_empty (ds : List Diagnostic) : ds.flatMap empty.report = ds.filter (· ≠ .arrival) := by
  induction ds with
  | nil => rfl
  | cons d ds ih =>
    rw [List.flatMap_cons, List.filter_cons, ih, report]
    by_cases hd : d = .arrival
    · rw [if_pos hd, if_neg (by simp [hd])]
      rfl
    · rw [if_neg hd, if_pos (by simp [hd])]
      rfl

/-- In any list of statements of a tree, a statement of a kind that is not run can be replaced by an empty one. Either
run gives the trace of the run with an eye on the missing statement, with a report or nothing in the place of each
arrival there. -/
theorem unsupported_inert (ceiling : Int) (prunes : Bool) (depth : Nat) (source : Source) (site : Site) (label : Label)
    (children tokens : List Node) (hlisted : site.isListed = true) (hnamed : label.named = true)
    (hrun : label.kind.isRun = false) (hcomment : label.kind.isComment = false)
    (hdeclares : (Node.mk label children).declares = false) (htokens : Node.declaresAny tokens = false) :
    let settings : Settings := { ceiling, prunes }
    let original := Trace.ofTree? settings depth source (site.fill (.mk label children))
    let emptied := Trace.ofTree? settings depth source (site.fill (.mk { label with kind := .emptyStatement } tokens))
    let watched := Trace.watched? settings depth (site.program source .gap)
    (original = none ∧ emptied = none ∧ watched = none) ∨
      ∃ t u w, original = some t ∧ emptied = some u ∧ watched = some w ∧ t.Agrees u ∧ u.Agrees w ∧
        t.diagnostics = w.diagnostics.flatMap (fun d ↦
          if d = .arrival then [.unsupported label.kind.name (source.location label.start label.stop)] else [d]) ∧
        u.diagnostics = w.diagnostics.filter (· ≠ .arrival) := by
  intro settings original emptied watched
  let unsupported : Filler := .unsupported label.kind.name (source.location label.start label.stop)
  -- neither tree is compared with the other one: both are the tree with a gap, filled in
  have horiginal : original = watched.map (Trace.fill unsupported) := by
    refine Eq.trans (congrArg (Trace.ofProgram? settings depth) ?_) (Trace.ofProgram?_fill rfl depth _)
    exact Program.ofTree_fill_gap source hlisted hnamed hcomment (Reading.readStmt_of_isRun hrun hcomment _ _) hdeclares
  have hemptied : emptied = watched.map (Trace.fill .empty) := by
    refine Eq.trans (congrArg (Trace.ofProgram? settings depth) ?_) (Trace.ofProgram?_fill rfl depth _)
    exact Program.ofTree_fill_gap source hlisted hnamed rfl rfl (by simp [Node.declares, htokens])
  rw [horiginal, hemptied]
  cases watched with
  | none => exact .inl ⟨rfl, rfl, rfl⟩
  | some w =>
    refine .inr ⟨_, _, w, rfl, rfl, rfl, w.agrees_fill.trans w.agrees_fill.symm, w.agrees_fill, rfl, ?_⟩
    exact Filler.flatMap_report_empty w.diagnostics

/-- `function f() { debugger } f(); f()` without the statement in the function. -/
def calledTwice : Site :=
  let token (name : String) (start stop : Nat) : Node := .leaf (.other name) false start stop
  let call (start : Nat) : Node := .branch .expressionStatement [.branch .callExpression
    [.inRole "function" (.leaf .identifier true start (start + 1)), .inRole "arguments" (.branch (.other "arguments")
      [token "(" (start + 1) (start + 2), token ")" (start + 2) (start + 3)])]]
  let header : List Node := [token "function" 0 8, .inRole "name" (.leaf .identifier true 9 10),
    .inRole "parameters" (.branch (.other "formal_parameters") [token "(" 10 11, token ")" 11 12])]
  .within ⟨⟨.other "program", 0, 35, none, true, false, false⟩, [],
      [call 26, token ";" 29 30, call 31, token ";" 34 35]⟩
    (.within ⟨⟨.functionDeclaration, 0, 25, none, true, false, false⟩, header, []⟩
      (.list ⟨⟨.statementBlock, 13, 25, some "body", true, false, false⟩, [token "\x7b" 13 14], [token "\x7d" 24 25]⟩))

theorem unsupported_inert_calledTwice :
    let source := Source.ofString "function f() \x7b debugger \x7d f(); f();"
    let label : Label := ⟨.other "debugger_statement", 15, 23, none, true, false, false⟩
    let report := Diagnostic.unsupported "debugger_statement" ⟨1, 15, 1, 23⟩
    ∃ t u, Trace.ofTree? { ceiling := 9, prunes := true } 12 source (calledTwice.fill (.mk label [])) = some t ∧
      Trace.ofTree? { ceiling := 9, prunes := true } 12 source
        (calledTwice.fill (.mk { label with kind := .emptyStatement } [])) = some u ∧
      t.Agrees u ∧ t.diagnostics = [report, report] ∧ u.diagnostics = [] := by
  intro source label report
  have hwatched : (Trace.watched? { ceiling := 9, prunes := true } 12 (calledTwice.program source .gap)).map
      Trace.diagnostics = some [.arrival, .arrival] := by decide +kernel
  obtain ⟨-, -, hnone⟩ | ⟨t, u, w, ht, hu, hw, hagrees, -, hreports, hrest⟩ :=
    unsupported_inert 9 true 12 source calledTwice label [] [] rfl rfl rfl rfl rfl rfl
  · rw [hnone] at hwatched
    cases hwatched
  · rw [hw] at hwatched
    have harrivals : w.diagnostics = [.arrival, .arrival] := Option.some.inj hwatched
    rw [harrivals] at hreports hrest
    exact ⟨t, u, ht, hu, hagrees, hreports, hrest⟩

end Stepwise
