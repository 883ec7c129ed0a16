import Stepwise.Run
import Stepwise.Proofs.Outcome
/-!
Relations between activities that all ways of building activities keep. Two evaluators whose parts are related by
such a relation evaluate every form, and carry out every program, to related activities.
-/

namespace Stepwise

/-- A closing operation: all that it touches is which calls and scopes are open and which task is the current one, and
all that it can fail at is to close the global scope. -/
structure Engine.Closes (close : Engine Unit) : Prop where
  leaves : ∀ s, ∃ frames chain current, after (close s) = { s with frames, chain, loop := { s.loop with current } }
  fails : ∀ s f t, close s = .error f t → f = .popOfGlobalScope

theorem Engine.popScope_cases (s : State) : popScope s = .error .popOfGlobalScope s ∨
    ∃ id chain, popScope s = .ok id { s with chain } := by
  unfold popScope
  rw [bind_apply, get_apply]
  dsimp only
  rcases s.chain with _ | ⟨id, _ | ⟨outer, rest⟩⟩
  · exact .inl rfl
  · exact .inl rfl
  · exact .inr ⟨id, outer :: rest, rfl⟩

/-- Closing the innermost scope, and perhaps calls behind that. -/
theorem Engine.closes_popScope {f : Nat → Engine Unit} (hf : ∀ id s, ∃ frames, f id s = .ok () { s with frames }) :
    Closes (popScope >>= f) := by
  constructor
  · intro s
    rw [bind_apply]
    obtain h | ⟨id, chain, h⟩ := popScope_cases s
    · rw [h]
      exact ⟨s.frames, s.chain, s.loop.current, rfl⟩
    · obtain ⟨frames, hframes⟩ := hf id { s with chain }
      rw [h]
      dsimp only
      rw [hframes]
      exact ⟨frames, chain, s.loop.current, rfl⟩
  · intro s f' t hs
    rw [bind_apply] at hs
    obtain h | ⟨id, chain, h⟩ := popScope_cases s
    · rw [h] at hs
      cases hs
      rfl
    · obtain ⟨frames, hframes⟩ := hf id { s with chain }
      rw [h] at hs
      cases hframes.symm.trans hs

theorem Engine.closes_closeScope : Closes (popScope >>= fun _ ↦ pure ()) := closes_popScope fun _ s ↦ ⟨s.frames, rfl⟩

theorem Evaluator.closes_leave : Engine.Closes leave := Engine.closes_popScope fun _ s ↦ ⟨s.frames.tail, rfl⟩

theorem Engine.closes_current : Closes (modifyLoop fun loop ↦ { loop with current := none }) :=
  ⟨fun s ↦ ⟨s.frames, s.chain, none, rfl⟩, fun _ _ _ h ↦ nomatch h⟩

/-- A relation between activities with results of the same type that every way of building activities keeps. -/
structure Eval.Congruence (R : ∀ {α : Type}, Eval α → Eval α → Prop) : Prop where
  refl : ∀ {α : Type} (x : Eval α), R x x
  bind : ∀ {α β : Type} {x y : Eval α} {f g : α → Eval β}, R x y → (∀ a, R (f a) (g a)) → R (x >>= f) (y >>= g)
  catchReturn : ∀ {x y : Eval Value}, R x y → R (Eval.catchReturn x) (Eval.catchReturn y)
  closing : ∀ {α : Type} {x y : Eval α} {close : Engine Unit}, Engine.Closes close → R x y →
    R (Activity.closing x close) (Activity.closing y close)

variable {R : ∀ {α : Type}, Eval α → Eval α → Prop} {α : Type} {a b : Evaluator}

theorem Eval.Congruence.ite (_ : Congruence @R) {c : Prop} [Decidable c] {x x' y y' : Eval α} (hx : R x y)
    (hx' : R x' y') : R (if c then x else x') (if c then y else y') := by
  split
  · exact hx
  · exact hx'

namespace Evaluator

/-- Two evaluators under the same names, the parts of which are related. -/
structure Pairs (R : ∀ {α : Type}, Eval α → Eval α → Prop) (a b : Evaluator) : Prop where
  names : a.names = b.names
  expr : ∀ e, R (a.expr e) (b.expr e)
  stmt : ∀ x, R (a.stmt x) (b.stmt x)
  loop : ∀ perIteration condition update body,
    R (a.loop perIteration condition update body) (b.loop perIteration condition update body)
  call : ∀ f arguments line name, R (a.call f arguments line name) (b.call f arguments line name)

namespace Pairs

variable (h : Eval.Congruence @R) (hab : Pairs @R a b)
include h hab

theorem optional (e : Option Expr) : R (a.optional e) (b.optional e) := by
  cases e with
  | some e => exact hab.expr e
  | none => exact h.refl _

theorem condition (e : Expr) : R (a.condition e) (b.condition e) := h.bind (hab.expr e) fun _ ↦ h.refl _

theorem exprs (es : List Expr) : R (a.exprs es) (b.exprs es) := by
  induction es with
  | nil => exact h.refl _
  | cons e es ih => exact h.bind (hab.expr e) fun v ↦ h.bind ih fun _ ↦ h.refl _

theorem stmts (xs : List Stmt) : R (a.stmts xs) (b.stmts xs) := by
  induction xs with
  | nil => exact h.refl _
  | cons x xs ih => exact h.bind (hab.stmt x) fun _ ↦ ih

theorem parts (xs : List Part) : R (a.parts xs) (b.parts xs) := by
  have hpart (x : Part) : R (a.part x) (b.part x) := by
    cases x with
    | substitution value => exact h.bind (hab.optional h value) fun _ ↦ h.refl _
    | _ => exact h.refl _
  induction xs with
  | nil => exact h.refl _
  | cons x xs ih => exact h.bind (hpart x) fun _ ↦ h.bind ih fun _ ↦ h.refl _

theorem logical (op : LogicalOp) (left right : Expr) : R (a.logical op left right) (b.logical op left right) := by
  refine h.bind (hab.expr left) fun v ↦ ?_
  cases op with
  | and => exact h.bind (h.refl _) fun _ ↦ h.ite (hab.expr right) (h.refl _)
  | or => exact h.bind (h.refl _) fun _ ↦ h.ite (h.refl _) (hab.expr right)
  | nullish => exact h.ite (hab.expr right) (h.refl _)

theorem unary (op : UnaryOp) (argument : Expr) : R (a.unary op argument) (b.unary op argument) := by
  have hvalue : R (a.expr argument >>= fun v ↦ Eval.getHeap >>= fun heap ↦ op.apply heap v)
      (b.expr argument >>= fun v ↦ Eval.getHeap >>= fun heap ↦ op.apply heap v) :=
    h.bind (hab.expr argument) fun _ ↦ h.refl _
  unfold Evaluator.unary
  split
  next name =>
    rw [hab.names]
    exact h.bind (h.refl _) fun _ ↦ h.ite (h.refl _) hvalue
  next => exact hvalue

theorem property (object index : Expr) : R (a.property object index) (b.property object index) :=
  h.bind (hab.expr object) fun _ ↦ h.bind (hab.expr index) fun _ ↦ h.refl _

theorem assignTo (place : Place) (v : Value) : R (a.assignTo place v) (b.assignTo place v) := by
  cases place with
  | name name =>
    unfold Evaluator.assignTo
    rw [hab.names]
    exact h.refl _
  | member object key => exact h.bind (hab.expr object) fun _ ↦ h.refl _
  | subscript object index => exact h.bind (hab.property h object index) fun _ ↦ h.refl _
  | _ => exact h.refl _

theorem update (increments givesNew : Bool) (place : Place) :
    R (a.update increments givesNew place) (b.update increments givesNew place) := by
  have hassign (old : Value) : R (updateBy increments givesNew old (a.assignTo place))
      (updateBy increments givesNew old (b.assignTo place)) :=
    h.bind (h.refl _) fun _ ↦ h.bind (h.refl _) fun _ ↦ h.bind (h.refl _) fun n ↦
      h.bind (hab.assignTo h place (.number n)) fun _ ↦ h.refl _
  cases place with
  | member object key => exact h.bind (hab.expr object) fun _ ↦ h.refl _
  | subscript object index => exact h.bind (hab.property h object index) fun _ ↦ h.refl _
  | name name => exact h.bind (hab.expr (.identifier name)) hassign
  | unsupported value kind location => exact h.bind (hab.expr value) hassign
  | incomplete => exact h.refl _

omit hab in
theorem bindSlots {elements : List Value} {x y : String → Place → Value → Eval Unit} (slots : List (Nat × Slot))
    (hxy : ∀ text place v, R (x text place v) (y text place v)) :
    R (Evaluator.bindSlots elements x slots) (Evaluator.bindSlots elements y slots) := by
  induction slots with
  | nil => exact h.refl _
  | cons slot slots ih =>
    obtain ⟨index, slot⟩ := slot
    cases slot with
    | target text place => exact h.bind (hxy text place _) fun _ ↦ ih
    | unsupported kind location => exact h.bind (h.refl _) fun _ ↦ ih

theorem assignSlots (slots : List (Nat × Slot)) (value : Expr) :
    R (a.assignSlots slots value) (b.assignSlots slots value) := by
  refine h.bind (hab.expr value) fun v ↦ h.bind (h.refl _) fun heap ↦ ?_
  cases heap.elements? v with
  | none => exact h.refl _
  | some elements => exact h.bind (bindSlots h slots fun _ place v ↦ hab.assignTo h place v) fun _ ↦ h.refl _

theorem members (ms : List Member) (fields : Dict Text Value) : R (a.members fields ms) (b.members fields ms) := by
  have hkey (x : Key) : R (a.key x) (b.key x) := by
    cases x with
    | string parts => exact hab.parts h parts
    | computed value => exact h.bind (hab.expr value) fun _ ↦ h.refl _
    | _ => exact h.refl _
  induction ms generalizing fields with
  | nil => exact h.refl _
  | cons m ms ih =>
    cases m with
    | pair key value => exact h.bind (hkey key) fun _ ↦ h.bind (hab.expr value) fun _ ↦ ih _
    | shorthand name =>
      unfold Evaluator.members
      rw [hab.names]
      exact h.bind (h.refl _) fun _ ↦ ih _
    | unsupported kind location => exact h.bind (h.refl _) fun _ ↦ ih _

theorem builtin (x : Builtin) (arguments : List Expr) (location : Location) :
    R (a.builtin x arguments location) (b.builtin x arguments location) := by
  have hexprs := hab.exprs h arguments
  cases x with
  | chain object =>
    refine h.bind (hab.expr object) fun v ↦ ?_
    cases v with
    | promise address => exact h.bind hexprs fun _ ↦ h.refl _
    | _ => exact h.refl _
  | _ => exact h.bind hexprs fun _ ↦ h.refl _

theorem callExpr (callee : Expr) (arguments : List Expr) (location : Location) :
    R (a.callExpr callee arguments location) (b.callExpr callee arguments location) := by
  have hcallee : R (a.callee callee) (b.callee callee) := by
    unfold Evaluator.callee
    split
    · rw [hab.names]
      exact h.refl _
    · exact h.bind (hab.expr callee) fun _ ↦ h.refl _
  refine h.bind (h.refl _) fun _ ↦ ?_
  cases Builtin.ofCallee? callee with
  | some x => exact hab.builtin h x arguments location
  | none =>
    refine h.bind hcallee fun result ↦ ?_
    obtain ⟨v, name⟩ := result
    cases v with
    | function f => exact h.bind (hab.exprs h arguments) fun vs ↦ hab.call f vs _ name
    | _ => exact h.refl _

theorem evalExpr (e : Expr) : R (a.evalExpr e) (b.evalExpr e) := by
  cases e with
  | identifier name =>
    unfold Evaluator.evalExpr
    rw [hab.names]
    exact h.refl _
  | string parts => exact h.bind (hab.parts h parts) fun _ ↦ h.refl _
  | logical op left right => exact hab.logical h op left right
  | binary op left right => exact h.bind (hab.expr left) fun _ ↦ h.bind (hab.expr right) fun _ ↦ h.refl _
  | unsupportedBinary symbol left right location =>
    exact h.bind (hab.expr left) fun _ ↦ h.bind (hab.expr right) fun _ ↦ h.refl _
  | unary op argument => exact hab.unary h op argument
  | unsupportedUnary symbol argument location => exact h.bind (hab.expr argument) fun _ ↦ h.refl _
  | update increments givesNew place => exact hab.update h increments givesNew place
  | assign place value =>
    exact h.bind (hab.expr value) fun v ↦ h.bind (hab.assignTo h place v) fun _ ↦ h.refl _
  | assignSlots slots value => exact hab.assignSlots h slots value
  | conditional condition consequence alternative =>
    exact h.bind (hab.condition h condition) fun _ ↦ h.ite (hab.expr consequence) (hab.expr alternative)
  | parenthesized inner => exact hab.optional h inner
  | call callee arguments location => exact hab.callExpr h callee arguments location
  | member object key => exact h.bind (hab.expr object) fun _ ↦ h.refl _
  | subscript object index => exact h.bind (hab.property h object index) fun _ ↦ h.refl _
  | array elements => exact h.bind (hab.exprs h _) fun _ ↦ h.refl _
  | object ms => exact h.bind (hab.members h ms Dict.empty) fun _ ↦ h.refl _
  | function name params body line =>
    unfold Evaluator.evalExpr
    rw [hab.names]
    exact h.refl _
  | _ => exact h.refl _

theorem declarators (kind : BindingKind) (ds : List Declarator) :
    R (a.declarators kind ds) (b.declarators kind ds) := by
  have hd (d : Declarator) : R (a.declarator kind d) (b.declarator kind d) := by
    obtain ⟨target, initial⟩ := d
    unfold Evaluator.declarator
    rw [hab.names]
    exact h.bind (hab.optional h initial) fun _ ↦ h.refl _
  induction ds with
  | nil => exact h.refl _
  | cons d ds ih => exact h.bind (hd d) fun _ ↦ ih

omit hab in
theorem inScope (name : String) {x y : Eval Unit} (hxy : R x y) :
    R (Evaluator.inScope name x) (Evaluator.inScope name y) :=
  h.bind (h.refl _) fun _ ↦ h.closing Engine.closes_closeScope hxy

theorem forLoop (initializer : Initializer) (condition update : Option Expr) (body : Stmt) :
    R (a.forLoop initializer condition update body) (b.forLoop initializer condition update body) := by
  have hstart : R (a.startLoop initializer) (b.startLoop initializer) := by
    cases initializer with
    | none => exact h.refl _
    | expression e => exact h.bind (hab.expr e) fun _ ↦ h.refl _
    | declaration perIteration statement => exact hab.stmt statement
  have hactivity := h.bind hstart fun _ ↦ hab.loop (isFresh initializer) condition update body
  exact h.ite (inScope h "for" hactivity) hactivity

theorem evalLoop (perIteration : Bool) (condition update : Option Expr) (body : Stmt) :
    R (a.evalLoop perIteration condition update body) (b.evalLoop perIteration condition update body) := by
  have hgoesOn : R (a.goesOn condition) (b.goesOn condition) := by
    cases condition with
    | some e => exact hab.condition h e
    | none => exact h.refl _
  have hagain := h.bind (hab.optional h update) fun _ ↦ hab.loop perIteration condition update body
  refine h.bind hgoesOn fun _ ↦ h.ite (h.bind (hab.stmt body) fun _ ↦ ?_) (h.refl _)
  exact h.ite (h.bind (h.refl _) fun _ ↦ hagain) hagain

theorem conditional (condition : Expr) (consequence : Stmt) (alternative : Option (Option Stmt)) (location : Location) :
    R (a.conditional condition consequence alternative location)
      (b.conditional condition consequence alternative location) := by
  refine h.bind (hab.condition h condition) fun _ ↦ h.ite (h.bind (h.refl _) fun _ ↦ hab.stmt consequence) ?_
  cases alternative with
  | none => exact h.refl _
  | some branch =>
    refine h.bind (h.refl _) fun _ ↦ ?_
    cases branch with
    | none => exact h.refl _
    | some x => exact hab.stmt x

theorem execute (x : Stmt) : R (a.execute x) (b.execute x) := by
  cases x with
  | expression value location => exact h.bind (h.refl _) fun _ ↦ h.bind (hab.optional h value) fun _ ↦ h.refl _
  | declaration kind ds location => exact h.bind (h.refl _) fun _ ↦ hab.declarators h kind ds
  | function name params body location =>
    unfold Evaluator.execute
    rw [hab.names]
    exact h.refl _
  | returns value location => exact h.bind (h.refl _) fun _ ↦ h.bind (hab.optional h value) fun _ ↦ h.refl _
  | conditional condition consequence alternative location =>
    exact hab.conditional h condition consequence alternative location
  | loop initializer condition update body => exact hab.forLoop h initializer condition update body
  | block statements => exact inScope h "block" (hab.stmts h statements)
  | _ => exact h.refl _

theorem evalStmt (settings : Settings) (x : Stmt) : R (a.evalStmt settings x) (b.evalStmt settings x) := by
  have hexecute := hab.execute h x
  cases x with
  | comment => exact h.refl _
  | _ => exact h.bind (h.refl _) fun _ ↦ h.ite (h.bind (h.refl _) fun _ ↦ hexecute) hexecute

theorem evalCall (f : Function) (arguments : List Value) (line : Int) (name : String) :
    R (a.evalCall f arguments line name) (b.evalCall f arguments line name) := by
  have hparams (names : List String) (values : List Value) :
      R (a.bindParams names values) (b.bindParams names values) := by
    induction names generalizing values with
    | nil => exact h.refl _
    | cons name names ih =>
      unfold bindParams
      rw [hab.names]
      exact h.bind (h.refl _) fun _ ↦ ih values.tail
  have hbody : R (a.body f.body) (b.body f.body) := by
    cases f.body with
    | expression value => exact hab.expr value
    | block hoisted statements =>
      unfold body
      rw [hab.names]
      exact h.bind (h.refl _) fun _ ↦ h.bind (hab.stmts h statements) fun _ ↦ h.refl _
    | incomplete => exact h.refl _
  refine h.bind (h.refl _) fun scope ↦ h.closing closes_leave (h.catchReturn ?_)
  exact h.bind (hparams f.params arguments) fun _ ↦ h.bind (h.refl _) fun _ ↦ hbody

theorem next (settings : Settings) : Pairs @R (a.next settings) (b.next settings) where
  names := hab.names
  expr := hab.evalExpr h
  stmt := hab.evalStmt h settings
  loop := hab.evalLoop h
  call := hab.evalCall h

theorem topLevel (program : Program) : R (a.topLevel program) (b.topLevel program) := by
  unfold Evaluator.topLevel
  rw [hab.names]
  refine h.bind (h.catchReturn ?_) fun _ ↦ h.refl _
  exact h.bind (h.refl _) fun _ ↦ h.bind (hab.stmts h program.statements) fun _ ↦ h.refl _

theorem job (line : Int) (x : Job) : R (a.job line x) (b.job line x) := by
  cases x with
  | call f arguments => exact h.bind (hab.call f arguments line "") fun _ ↦ h.refl _
  | fetched address url => exact h.refl _
  | react reaction v =>
    cases reaction with
    | handle handler derived =>
      cases handler with
      | none => exact h.refl _
      | some f => exact h.bind (hab.call f [v] 0 "") fun _ ↦ h.refl _
    | _ => exact h.refl _

theorem task (settings : Settings) (t : Task) : R (a.task settings t) (b.task settings t) :=
  h.bind (h.refl _) fun _ ↦ h.bind (hab.job h t.line t.job) fun _ ↦ h.refl _

end Pairs

end Evaluator

section EventLoop

variable {x y : Task → Eval Unit} (h : Eval.Congruence @R) (hxy : ∀ task, R (x task) (y task))
include h hxy

theorem Eval.Congruence.runTask (task : Task) : R (Activity.runTask x task) (Activity.runTask y task) :=
  h.bind (h.refl _) fun _ ↦ h.bind (h.closing Engine.closes_current (hxy task)) fun _ ↦ h.refl _

theorem Eval.Congruence.drainMicrotasks (budget : Nat) :
    R (Activity.drainMicrotasks x budget) (Activity.drainMicrotasks y budget) := by
  induction budget with
  | zero => exact h.refl _
  | succ budget ih =>
    refine h.bind (h.refl _) fun loop ↦ ?_
    cases loop.microtasks with
    | nil => exact h.refl _
    | cons task rest => exact h.bind (h.refl _) fun _ ↦ h.bind (h.runTask hxy task) fun _ ↦ ih

theorem Eval.Congruence.drain (ceiling : Int) : R (Activity.drain ceiling x) (Activity.drain ceiling y) := by
  have hmicrotasks (budget : Nat) := h.drainMicrotasks hxy budget
  have hpasses (budget passes : Nat) :
      R (Activity.drainPasses x budget passes) (Activity.drainPasses y budget passes) := by
    induction passes with
    | zero => exact h.refl _
    | succ passes ih =>
      refine h.bind (h.refl _) fun loop ↦ h.ite (h.refl _) (h.bind (hmicrotasks budget) fun empty ↦ h.ite (h.refl _) ?_)
      refine h.bind (h.refl _) fun loop ↦ ?_
      cases loop.macrotasks with
      | nil => exact ih
      | cons task rest =>
        refine h.bind (h.refl _) fun _ ↦ h.bind (h.runTask hxy task) fun _ ↦ ?_
        exact h.bind (hmicrotasks budget) fun empty ↦ h.ite (h.refl _) ih
  exact h.bind (hpasses _ _) fun _ ↦ h.refl _

end EventLoop

theorem Evaluator.Pairs.program (h : Eval.Congruence @R) (hab : Pairs @R a b) (settings : Settings)
    (program : Program) : R (a.program settings program) (b.program settings program) :=
  h.bind (hab.topLevel h program) fun _ ↦ h.bind (h.drain (hab.task h settings) settings.ceiling) fun _ ↦ h.refl _

end Stepwise
