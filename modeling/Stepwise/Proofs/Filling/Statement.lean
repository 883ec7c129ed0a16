import Stepwise.Proofs.Filling.Expression
/-!
Statements and calls with gaps in them.
-/

namespace Stepwise

variable {x : Filler}

namespace Evaluator

namespace Fills

open Eval Engine

variable {a b : Evaluator} (h : Fills x a b)
include h

theorem declarator (kind : BindingKind) (d : Declarator) :
    Eval.Fills x id (a.declarator kind d) (b.declarator kind (d.fill x)) := by
  obtain ⟨target, initial⟩ := d
  rw [Declarator.fill_mk]
  unfold Evaluator.declarator
  rw [h.names.1, h.names.2]
  refine (h.optional initial).bind fun v ↦ ?_
  cases target with
  | name name =>
    rw [Binder.fill]
    exact (fills_named name v).bind fun v ↦ fills_declareAs kind name v
  | slots slots =>
    rw [Binder.fill]
    refine fills_getHeap.bind fun heap ↦ ?_
    simp only [Value.fill, Heap.getD_elements?_recast]
    exact bindSlots _ slots fun text _ v ↦ fills_declareAs kind text v
  | unsupported form location =>
    rw [Binder.fill]
    exact fills_reportUnsupported form location
  | incomplete =>
    rw [Binder.fill]
    exact fills_incomplete

theorem declarators (kind : BindingKind) (ds : List Declarator) :
    Eval.Fills x id (a.declarators kind ds) (b.declarators kind (ds.map (Declarator.fill x))) := by
  induction ds with
  | nil => exact .pure rfl
  | cons d ds ih => exact (h.declarator kind d).bind fun _ ↦ ih

omit h in
theorem inScope (name : String) {y z : Eval Unit} (hyz : Eval.Fills x id y z) :
    Eval.Fills x id (Evaluator.inScope name y) (Evaluator.inScope name z) :=
  (fills_liftM (recasts_pushScope name .block none)).bind fun _ ↦
    fills_closing hyz (recasts_popScope.bind fun _ ↦ .pure rfl)

theorem forLoop (initializer : Initializer) (condition update : Option Expr) (body : Stmt) :
    Eval.Fills x id (a.forLoop initializer condition update body)
      (b.forLoop (initializer.fill x) (condition.map (Expr.fill x)) (update.map (Expr.fill x)) (body.fill x)) := by
  have hfresh : isFresh (initializer.fill x) = isFresh initializer := by
    cases initializer <;> rw [Initializer.fill] <;> rfl
  have hstart : Eval.Fills x id (a.startLoop initializer) (b.startLoop (initializer.fill x)) := by
    cases initializer with
    | none => rw [Initializer.fill]; exact .pure rfl
    | expression e => rw [Initializer.fill]; exact (h.expr e).bind fun _ ↦ .pure rfl
    | declaration perIteration statement => rw [Initializer.fill]; exact h.stmt statement
  have hactivity := hstart.seq <| h.loop (isFresh initializer) condition update body
  unfold Evaluator.forLoop
  rw [hfresh]
  exact .ite (inScope "for" hactivity) hactivity

theorem evalLoop (perIteration : Bool) (condition update : Option Expr) (body : Stmt) :
    Eval.Fills x id (a.evalLoop perIteration condition update body)
      (b.evalLoop perIteration (condition.map (Expr.fill x)) (update.map (Expr.fill x)) (body.fill x)) := by
  have hgoesOn : Eval.Fills x id (a.goesOn condition) (b.goesOn (condition.map (Expr.fill x))) := by
    cases condition with
    | some e => exact h.condition e
    | none => exact .pure rfl
  have hagain := (h.optional update).seq <| h.loop perIteration condition update body
  refine hgoesOn.bind fun _ ↦ .ite ((h.stmt body).bind fun _ ↦ ?_) (.pure rfl)
  exact .ite ((fills_liftM recasts_renewScope).bind fun _ ↦ hagain) hagain

theorem conditional (condition : Expr) (consequence : Stmt) (alternative : Option (Option Stmt)) (location : Location) :
    Eval.Fills x id (a.conditional condition consequence alternative location) (b.conditional (condition.fill x)
      (consequence.fill x) (alternative.map (Option.map (Stmt.fill x))) location) := by
  refine (h.condition condition).bind fun _ ↦ .ite ((fills_recordAt location _).bind fun _ ↦ h.stmt consequence) ?_
  cases alternative with
  | none => exact .pure rfl
  | some branch =>
    refine (fills_recordAt location _).bind fun _ ↦ ?_
    cases branch with
    | none => exact .pure rfl
    | some s => exact h.stmt s

theorem execute (s : Stmt) (hs : s.isGap = false) : Eval.Fills x id (a.execute s) (b.execute (s.fill x)) := by
  cases s with
  | expression value location =>
    rw [Stmt.fill_expression]
    exact (fills_recordAt location _).bind fun _ ↦ (h.optional value).bind fun _ ↦ .pure rfl
  | declaration kind ds location =>
    rw [Stmt.fill]
    exact (fills_recordAt location _).bind fun _ ↦ h.declarators kind ds
  | function name params body location =>
    rw [Stmt.fill]
    unfold Evaluator.execute
    rw [h.names.1, h.names.2]
    refine (fills_recordAt location _).bind fun _ ↦ (fills_makeFunction name params body _).bind fun f ↦ ?_
    exact fills_liftM (recasts_declare name (.function f) .functionScoped none)
  | returns value location =>
    rw [Stmt.fill_returns]
    exact (fills_recordAt location _).bind fun _ ↦ (h.optional value).bind fun _ ↦ .throw rfl
  | conditional condition consequence alternative location =>
    rw [Stmt.fill_conditional]
    exact h.conditional condition consequence alternative location
  | loop initializer condition update body =>
    rw [Stmt.fill_loop]
    exact h.forLoop initializer condition update body
  | block statements =>
    rw [Stmt.fill]
    exact inScope "block" (h.stmts statements)
  | unsupported kind location =>
    rw [Stmt.fill_unsupported x hs]
    exact fills_reportUnsupported kind location
  | empty => simp only [Stmt.fill]; exact .pure rfl
  | comment => simp only [Stmt.fill]; exact .pure rfl
  | incomplete => simp only [Stmt.fill]; exact fills_incomplete

theorem bindParams (names : List String) (vs : List Value) :
    Eval.Fills x id (a.bindParams names vs) (b.bindParams names (vs.map (Value.fill x))) := by
  induction names generalizing vs with
  | nil => exact .pure rfl
  | cons name names ih =>
    unfold Evaluator.bindParams
    have hhead : (vs.map (Value.fill x)).head?.getD .undefined = (vs.head?.getD .undefined).fill x := by
      cases vs <;> rfl
    rw [h.names.1, h.names.2, hhead, ← List.map_tail]
    exact (fills_liftM (recasts_declare name _ .blockScoped none)).bind fun _ ↦ ih vs.tail

theorem body (y : Body) : Eval.Fills x (Value.fill x) (a.body y) (b.body (y.fill x)) := by
  cases y with
  | expression value =>
    rw [Body.fill]
    exact h.expr value
  | block hoisted statements =>
    rw [Body.fill]
    unfold Evaluator.body
    rw [h.names.1, h.names.2]
    exact (fills_hoist hoisted).bind fun _ ↦ (h.stmts statements).bind fun _ ↦ .pure rfl
  | incomplete =>
    rw [Body.fill]
    exact fills_incomplete

theorem evalCall (f : Function) (arguments : List Value) (line : Int) (name : String) :
    Eval.Fills x (Value.fill x) (a.evalCall f arguments line name)
      (b.evalCall (f.recast (Body.fill x)) (arguments.map (Value.fill x)) line name) := by
  refine (fills_liftM (recasts_enter f arguments line _)).bind fun scope ↦ ?_
  refine fills_closing (fills_catchReturn ?_) recasts_leave
  refine (h.bindParams f.params arguments).bind fun _ ↦ (fills_liftM (recasts_keepLocals scope)).bind fun _ ↦ ?_
  exact h.body f.body

end Fills

end Evaluator

end Stepwise
