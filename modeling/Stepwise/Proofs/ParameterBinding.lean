import Stepwise.Proofs.Comments
import Stepwise.Proofs.Hoisting.Reading
import Stepwise.Proofs.Initialization
/-!
How parameters get their values. A parameter list keeps the names that can be bound and reports the rest, so that the
names are given the arguments one after the other; as long as nothing but names stands before a parameter, it gets the
argument at its own place.
-/

namespace Stepwise

namespace Param

def name? : Param → Option String
  | .name text => some text
  | .unsupported _ _ => none

def problem? : Param → Option Diagnostic
  | .name _ => none
  | .unsupported kind location => some (.unsupported kind location)

end Param

namespace Node

variable (source : Source)

/-- The nodes of a parameter list. A name that stands for the whole list is the only one. -/
def listed (n : Node) : List Node :=
  if n.kind = .identifier then [n] else n.children.filter fun child ↦ child.label.named && !child.kind.isComment

def parameters (n : Node) : List Node :=
  (((n.child? "parameters").or (n.child? "parameter")).map listed).getD []

/-- The name that a parameter binds: itself, or what stands before its default. -/
def boundName? (n : Node) : Option String :=
  if n.kind = .identifier then some (n.text source)
  else if n.kind = .assignmentPattern then some (((n.child? "left").map (text source)).getD "")
  else none

/-- What a parameter that binds no name is reported as. -/
def problem? (n : Node) : Option Diagnostic :=
  if (n.boundName? source).isSome then none else some (.unsupported n.kind.name (n.location source))

theorem readAll_eq_map (ns : List Node) : readAll source ns = ns.map (read source) := by
  induction ns with
  | nil => rfl
  | cons n ns ih => rw [readAll, ih, List.map_cons]

theorem child?_readAll (field : String) (n : Node) :
    Reading.child? field (readAll source n.children) = (n.child? field).map (read source) := by
  have hfield : (fun r : Reading ↦ r.label.field == some field) ∘ read source =
      fun n : Node ↦ n.label.field == some field := funext fun n ↦ by
    rw [Function.comp_apply, n.label_read]
  unfold Reading.child? child?
  rw [readAll_eq_map, List.find?_map, hfield]

theorem significant_readAll (ns : List Node) : Reading.significant (readAll source ns) =
    (ns.filter fun n ↦ n.label.named && !n.kind.isComment).map (read source) := by
  have hsignificant : (fun r : Reading ↦ r.label.named && !r.kind.isComment) ∘ read source =
      fun n : Node ↦ n.label.named && !n.kind.isComment := funext fun n ↦ by
    rw [Function.comp_apply, Reading.kind, n.label_read]
    rfl
  unfold Reading.significant
  rw [readAll_eq_map, List.filter_map, hsignificant]

theorem map_text_readAll (field : String) (n : Node) :
    (Reading.child? field (readAll source n.children)).map Reading.text = (n.child? field).map (text source) := by
  rw [child?_readAll, Option.map_map]
  exact congrArg (Option.map · (n.child? field)) (funext fun n ↦ text_read source n)

theorem param_read (n : Node) :
    (n.read source).param = (n.boundName? source).elim (.unsupported n.kind.name (n.location source)) .name := by
  obtain ⟨label, children⟩ := n
  have hparam : ((mk label children).read source).param = Reading.readParam label.kind _ _ _ := rfl
  by_cases hname : label.kind = .identifier
  · have hbound : (mk label children).boundName? source = some _ := if_pos hname
    rw [hparam, hbound, hname]
    rfl
  by_cases hpattern : label.kind = .assignmentPattern
  · have hbound : (mk label children).boundName? source = some _ := (if_neg hname).trans (if_pos hpattern)
    rw [hparam, hbound, hpattern, ← map_text_readAll]
    rfl
  · have hbound : (mk label children).boundName? source = none := (if_neg hname).trans (if_neg hpattern)
    rw [hparam, hbound]
    unfold Reading.readParam
    split
    next h => exact absurd h hname
    next h => exact absurd h hpattern
    next => rfl

theorem name?_param_read (n : Node) : (n.read source).param.name? = n.boundName? source := by
  rw [param_read]
  cases n.boundName? source <;> rfl

theorem problem?_param_read (n : Node) : (n.read source).param.problem? = n.problem? source := by
  unfold problem?
  rw [param_read]
  cases n.boundName? source <;> rfl

theorem params_read (n : Node) : (n.read source).params = n.listed.map fun p ↦ (p.read source).param := by
  obtain ⟨label, children⟩ := n
  by_cases hkind : label.kind = .identifier
  · have hlisted : (mk label children).listed = [mk label children] := if_pos hkind
    have hparams : ((mk label children).read source).params = [.name (source.slice label.start label.stop)] :=
      if_pos hkind
    have hparam : ((mk label children).read source).param = Reading.readParam label.kind _ _ _ := rfl
    rw [hlisted, hparams, List.map_singleton, hparam, hkind]
    rfl
  · have hlisted : (mk label children).listed =
        children.filter fun child ↦ child.label.named && !child.kind.isComment := if_neg hkind
    have hparams : ((mk label children).read source).params =
        (Reading.significant (readAll source children)).map Reading.param := if_neg hkind
    rw [hlisted, hparams, significant_readAll, List.map_map]
    rfl

theorem paramsOf_readAll (n : Node) :
    Reading.paramsOf (readAll source n.children) = n.parameters.map fun p ↦ (p.read source).param := by
  unfold Reading.paramsOf parameters
  rw [child?_readAll, child?_readAll, ← Option.map_or, Option.map_map]
  cases (n.child? "parameters").or (n.child? "parameter") with
  | none => rfl
  | some list => exact params_read source list

end Node

/-- A node that is read as a function, be it as a literal or as a declaration. -/
def Node.ReadsFunction (source : Source) (n : Node) (params : List Param) (body : Body) : Prop :=
  (∃ name line, (n.read source).expr = .function name params body line) ∨
    ∃ name location, (n.read source).stmt = .function name params body location

/-- Only functions are read as functions, each with the parameters that it lists. -/
theorem Reading.params_of_readExpr {source : Source} {label : Label} {text : String} {location : Location}
    {rs : List Reading} {name : Option String} {params : List Param} {body : Body} {line : Int}
    (h : readExpr source label text location rs = .function name params body line) : params = paramsOf rs := by
  unfold readExpr readBinary readUnary readUpdate readAssignment readCall at h
  repeat' first | cases h | split at h
  all_goals rfl

theorem Reading.params_of_readStmt {kind : Kind} {location place : Location} {rs : List Reading} {name : String}
    {params : List Param} {body : Body} (h : readStmt kind location rs = .function name params body place) :
    params = paramsOf rs := by
  unfold readStmt readDeclaration at h
  repeat' first | cases h | split at h
  all_goals rfl

theorem Node.ReadsFunction.params_eq {source : Source} {n : Node} {params : List Param} {body : Body}
    (h : n.ReadsFunction source params body) : params = n.parameters.map fun p ↦ (p.read source).param := by
  rw [← paramsOf_readAll]
  obtain ⟨label, children⟩ := n
  obtain ⟨name, line, h⟩ | ⟨name, location, h⟩ := h
  · exact Reading.params_of_readExpr h
  · exact Reading.params_of_readStmt h

namespace Eval

variable {m n : Machine Journal}

theorem paramNames_apply (params : List Param) (m : Machine Journal) :
    paramNames params m = .ok (params.filterMap Param.name?) (m.reporting (params.filterMap Param.problem?)) := by
  induction params generalizing m with
  | nil => exact congrArg _ (Machine.reporting_nil m).symm
  | cons param params ih =>
    cases param with
    | name name =>
      rw [paramNames, bind_apply, ih]
      rfl
    | unsupported kind location =>
      rw [paramNames, bind_apply, Machine.reportUnsupported_apply]
      refine (ih _).trans (congrArg _ ?_)
      exact Machine.reporting_append m [.unsupported kind location] (params.filterMap Param.problem?)

theorem params_of_makeFunction {name : String} {params : List Param} {body : Body} {line : Int} {f : Function}
    (h : makeFunction .ofScopes name params body line m = .ok f n) :
    f.params = params.filterMap Param.name? ∧ f.body = body ∧
      n.journal = (m.reporting (params.filterMap Param.problem?)).journal := by
  obtain ⟨names, m', hnames, h⟩ := bind_eq_ok h
  rw [paramNames_apply] at hnames
  cases hnames
  obtain ⟨closure, m'', hcapture, h⟩ := bind_eq_ok h
  have hjournal := Activity.journal_of_ofEngine hcapture
  cases h
  exact ⟨rfl, rfl, hjournal⟩

end Eval

/-- Names with the arguments that they are bound to; those that are left over are undefined. -/
def argumentRow : List String → List Value → List (String × Value)
  | [], _ => []
  | name :: names, vs => (name, vs.head?.getD .undefined) :: argumentRow names vs.tail

theorem fst_argumentRow (names : List String) (vs : List Value) : (argumentRow names vs).map Prod.fst = names := by
  induction names generalizing vs with
  | nil => rfl
  | cons name names ih => rw [argumentRow, List.map_cons, ih]

theorem argumentRow_append (before : List String) (name : String) (behind : List String) (vs : List Value) :
    argumentRow (before ++ name :: behind) vs =
      argumentRow before vs ++ (name, vs.getD before.length .undefined) ::
        argumentRow behind (vs.drop (before.length + 1)) := by
  induction before generalizing vs with
  | nil => cases vs <;> rfl
  | cons first before ih =>
    rw [List.cons_append, argumentRow, argumentRow, ih]
    cases vs with
    | nil => rw [List.tail_nil, List.drop_nil, List.drop_nil]; rfl
    | cons v vs => rfl

theorem State.visible_enter (s : State) (scope : Scope) {frame : Frame} (hdepth : frame.depth = s.chain.length) :
    ∃ scopes, (s.openScope scope s.chain (frame :: s.frames)).visible = .ok (scope :: scopes) := by
  let entered := s.openScope scope s.chain (frame :: s.frames)
  obtain ⟨globalId, hglobal⟩ : ∃ globalId, entered.globalId? = some globalId :=
    Option.isSome_iff_exists.mp (List.getLast?_isSome.mpr (List.cons_ne_nil _ _))
  have hframes : entered.frames = frame :: s.frames := rfl
  have hown : entered.ownIds frame = [scope.id] := by
    have hlength : entered.chain.length = s.chain.length + 1 := rfl
    have hcount : s.chain.length + 1 - s.chain.length = 1 := by omega
    unfold State.ownIds
    dsimp only
    rw [hlength, hdepth, if_pos (Nat.le_succ _), hcount]
    rfl
  have hids : entered.visibleIds =
      .ok (scope.id :: frame.closure.filter fun id ↦ id = globalId || id ∈ entered.captured) := by
    unfold State.visibleIds
    rw [hframes]
    dsimp only
    rw [hglobal, hown]
    rfl
  have hfirst : entered.scope? scope.id = some scope := by
    rw [State.scope?_openScope, if_pos rfl]
  refine ⟨(frame.closure.filter fun id ↦ id = globalId || id ∈ entered.captured).filterMap entered.scope?, ?_⟩
  change entered.visible = _
  unfold State.visible
  rw [hids]
  exact congrArg Except.ok (List.filterMap_cons_some hfirst)

theorem State.visible_noteLocals {frame : Frame} {frames : List Frame} {s : State} (h : s.frames = frame :: frames)
    (locals : Dict String Value) : { s with frames := { frame with locals } :: frames }.visible = s.visible := by
  unfold State.visible State.visibleIds
  rw [h]
  rfl

theorem get?_argumentRow (before : List String) {behind : List String} {name : String} (vs : List Value)
    (hlast : name ∉ behind) :
    (Dict.empty.setAll (argumentRow (before ++ name :: behind) vs)).get? name =
      some (vs.getD before.length .undefined) := by
  rw [argumentRow_append]
  refine Dict.get?_setAll_of_last _ _ ?_
  rwa [fst_argumentRow]

theorem Activity.closing_of_apply_eq {ω α : Type} {x y : Activity ω α} {m n : Machine ω} (close : Engine Unit)
    (h : x m = y n) : closing x close m = closing y close n := by
  unfold closing
  rw [h]

theorem Eval.catchReturn_of_apply_eq {x y : Eval Value} {m n : Machine Journal} (h : x m = y n) :
    catchReturn x m = catchReturn y n := by
  unfold catchReturn
  rw [h]

namespace Evaluator

variable {self : Evaluator} {m : Machine Journal} {id : Nat} {scope : Scope}

theorem exists_bindParams (hs : self.names = .ofScopes) (hhead : m.state.headId = .ok id)
    (hscope : m.state.scope? id = some scope) (names : List String) (vs : List Value) :
    ∃ t, self.bindParams names vs m = .ok () { m with state := t } ∧
      m.state.Declares .blockScoped id (argumentRow names vs) t := by
  induction names generalizing m scope vs with
  | nil => exact ⟨m.state, rfl, State.declares_nil m.state .blockScoped id⟩
  | cons name names ih =>
    have hhome : m.state.home .blockScoped = .ok id := hhead
    obtain ⟨t, ht, hdeclares⟩ := Eval.exists_declareAs hhome hscope name (vs.head?.getD .undefined)
    obtain ⟨scope', hscope'⟩ := hdeclares.exists_scope? hscope
    obtain ⟨u, hu, hrest⟩ := ih (m := { m with state := t }) (hdeclares.headId_eq.trans hhead) hscope' vs.tail
    refine ⟨u, ?_, hdeclares.append hrest⟩
    have hfirst : Names.ofScopes.declare name (vs.head?.getD .undefined) .blockScoped none m =
        .ok () { m with state := t } := ht
    rw [bindParams, hs, bind_apply, hfirst]
    exact hu

/-- The body of a function runs where the innermost visible scope binds the parameters and nothing else. -/
theorem exists_entered (hs : self.names = .ofScopes) (f : Function) (vs : List Value) (line : Int) (name : String)
    (m : Machine Journal) : ∃ q frame scope scopes,
      self.evalCall f vs line name m = Activity.closing (Eval.catchReturn (self.body f.body)) leave q ∧
      q.journal = m.journal ∧ q.state.frames = frame :: m.state.frames ∧ frame.arguments = vs ∧
      frame.locals = Dict.empty.setAll (argumentRow f.params vs) ∧ q.state.visible = .ok (scope :: scopes) ∧
      scope.bindings = Dict.empty.setAll (argumentRow f.params vs) := by
  let callName := if f.isAnonymous && !name.isEmpty then name else f.name
  let frame := m.state.callFrame f vs line callName
  let own := m.state.callScope f callName
  let id := own.id
  let entered := m.state.entered f vs line callName
  let bindings := Dict.empty.setAll (argumentRow f.params vs)
  have hscope : entered.scope? id = some own := by
    rw [State.scope?_openScope, if_pos rfl]
  have hbound : State.withRow id (argumentRow f.params vs) own = { own with bindings } := if_pos rfl
  have hdepth : frame.depth = m.state.chain.length := rfl
  obtain ⟨scopes, hvisible⟩ := m.state.visible_enter own hdepth
  obtain ⟨t, ht, hdeclares⟩ := exists_bindParams (m := { m with state := entered }) hs rfl hscope f.params vs
  let noted : State := { t with frames := { frame with locals := bindings } :: m.state.frames }
  have hkeep : keepLocals id t = .ok () noted := by
    rw [keepLocals_of_frames id hdeclares.frames_eq, hdeclares.scope?_eq, hscope, Option.map_some, hbound]
    rfl
  have hinside : noted.visible =
      .ok ({ own with bindings } :: scopes.map (State.withRow id (argumentRow f.params vs))) := by
    refine (State.visible_noteLocals hdeclares.frames_eq bindings).trans (hdeclares.visible_eq.trans ?_)
    dsimp only
    rw [hvisible, ← hbound]
    rfl
  have henter : (liftM (enter f vs line callName) : Eval Nat) m = .ok id { m with state := entered } := rfl
  refine ⟨{ m with state := noted }, _, _, _, ?_, rfl, rfl, rfl, rfl, hinside, rfl⟩
  change ((liftM (enter f vs line callName) : Eval Nat) >>= fun scope ↦ Activity.closing (Eval.catchReturn (do
    self.bindParams f.params vs
    keepLocals scope
    self.body f.body)) leave) m = _
  rw [bind_apply, henter]
  refine Activity.closing_of_apply_eq leave (Eval.catchReturn_of_apply_eq ?_)
  have hnote : (liftM (keepLocals id) : Eval Unit) { m with state := t } = .ok () { m with state := noted } :=
    Activity.ofEngine_apply hkeep
  rw [bind_apply, ht]
  dsimp only
  rw [bind_apply, hnote]

/-- In a call every parameter that is a name, or a name with a default, has the argument at its place in the parameter
list, and the last of those that share a name counts. Before it there must be no parameter that is neither: such a one
is reported when the function is made, but its argument goes to the next name. -/
theorem parameters_bind_by_position {settings : Settings} (depth : Nat) {source : Source} {node : Node}
    {params : List Param} {body : Body} {name : String} {line : Int} {f : Function} {m n : Machine Journal}
    (hs : settings.names = .ofScopes) (hnode : node.ReadsFunction source params body)
    (hmade : Eval.makeFunction settings.names name params body line m = .ok f n) :
    n.journal = (m.reporting (node.parameters.filterMap (Node.problem? source))).journal ∧
    ∀ vs line name p, ∃ q frame, (ofDepth settings (depth + 1)).call f vs line name p =
        Activity.closing (Eval.catchReturn ((ofDepth settings depth).body body)) leave q ∧
      q.journal = p.journal ∧ q.state.frames = frame :: p.state.frames ∧ frame.arguments = vs ∧
      ∀ before parameter behind x, node.parameters = before ++ parameter :: behind →
        parameter.boundName? source = some x → (∀ earlier ∈ before, (earlier.boundName? source).isSome) →
        (∀ later ∈ behind, later.boundName? source ≠ some x) →
        q.state.resolve x = .ok (vs.getD before.length .undefined) ∧
          frame.locals.get? x = some (vs.getD before.length .undefined) := by
  rw [hs] at hmade
  obtain ⟨hparams, rfl, hjournal⟩ := Eval.params_of_makeFunction hmade
  have hnames : f.params = node.parameters.filterMap (Node.boundName? source) := by
    rw [hparams, hnode.params_eq, List.filterMap_map]
    exact List.filterMap_congr fun p _ ↦ p.name?_param_read source
  have hproblems : params.filterMap Param.problem? = node.parameters.filterMap (Node.problem? source) := by
    rw [hnode.params_eq, List.filterMap_map]
    exact List.filterMap_congr fun p _ ↦ p.problem?_param_read source
  refine ⟨hproblems ▸ hjournal, fun vs line name p ↦ ?_⟩
  have hself : (ofDepth settings depth).names = .ofScopes := (names_ofDepth settings depth).trans hs
  obtain ⟨q, frame, scope, scopes, hcall, hq, hframes, harguments, hlocals, hvisible, hbindings⟩ :=
    exists_entered hself f vs line name p
  refine ⟨q, frame, hcall, hq, hframes, harguments, fun before parameter behind x hlist hx hbefore hbehind ↦ ?_⟩
  have hlast : x ∉ behind.filterMap (Node.boundName? source) := fun hmem ↦ by
    obtain ⟨later, hlater, hname⟩ := List.mem_filterMap.mp hmem
    exact hbehind later hlater hname
  have hget := get?_argumentRow (before.filterMap (Node.boundName? source)) vs hlast
  have hcount : (before.filterMap (Node.boundName? source)).length = before.length :=
    List.filterMap_length_eq_length.mpr hbefore
  rw [hcount] at hget
  have hsplit : f.params =
      before.filterMap (Node.boundName? source) ++ x :: behind.filterMap (Node.boundName? source) := by
    rw [hnames, hlist, List.filterMap_append, List.filterMap_cons_some hx]
  rw [hsplit] at hlocals hbindings
  exact ⟨State.resolve_of_head hvisible (hbindings ▸ hget), hlocals ▸ hget⟩

/-- The tree of an arrow function of two parameters that gives the second one. -/
def secondOf (first : Kind) : Node :=
  .branch .arrowFunction
    [(Node.branch (.other "formal_parameters") [.leaf first true 1 3, .leaf .identifier true 4 5]).inRole "parameters",
      (Node.leaf .identifier true 8 9).inRole "body"]

theorem second_bound_by_position :
    let source := Source.ofString "(aa,b)=>b"
    ∃ params body f n q, (secondOf .identifier).ReadsFunction source params body ∧
      Eval.makeFunction .ofScopes "f" params body 1 .initial = .ok f n ∧
      (ofDepth {} 2).call f [.null, .boolean true] 1 "" n =
        Activity.closing (Eval.catchReturn ((ofDepth {} 1).body body)) leave q ∧
      q.state.resolve "b" = .ok (.boolean true) := by
  intro source
  have hs : ({} : Settings).names = .ofScopes := rfl
  have hnode : (secondOf .identifier).ReadsFunction source [.name "aa", .name "b"] (.expression (.identifier "b")) :=
    .inl ⟨none, 1, rfl⟩
  obtain ⟨f, n, hmade⟩ : ∃ f n, Eval.makeFunction .ofScopes "f" [.name "aa", .name "b"]
      (.expression (.identifier "b")) 1 .initial = .ok f n := ⟨_, _, rfl⟩
  obtain ⟨-, hcall⟩ := parameters_bind_by_position 1 hs hnode hmade
  obtain ⟨q, frame, hq, -, -, -, hbound⟩ := hcall [.null, .boolean true] 1 "" n
  have hlist : (secondOf .identifier).parameters = [.leaf .identifier true 1 3, .leaf .identifier true 4 5] := rfl
  obtain ⟨hresolve, -⟩ := hbound [.leaf .identifier true 1 3] (.leaf .identifier true 4 5) [] "b" hlist rfl
    (List.forall_mem_singleton.mpr rfl) (List.forall_mem_nil _)
  exact ⟨_, _, f, n, q, hnode, hmade, hq, hresolve⟩

/-- An array pattern in front takes the argument away from the name behind it. -/
theorem second_bound_to_first :
    let source := Source.ofString "([],b)=>b"
    let f : Function := ⟨1, "f", ["b"], .expression (.identifier "b"), [1], 1⟩
    ∃ params n t, (secondOf .arrayPattern).ReadsFunction source params f.body ∧
      (secondOf .arrayPattern).parameters.map (Node.boundName? source) = [none, some "b"] ∧
      Eval.makeFunction .ofScopes "f" params f.body 1 .initial = .ok f n ∧
      (ofDepth {} 2).call f [.null, .boolean true] 1 "" .initial = .ok .null t :=
  ⟨_, _, _, .inl ⟨none, 1, rfl⟩, rfl, rfl, rfl⟩

end Evaluator

end Stepwise
