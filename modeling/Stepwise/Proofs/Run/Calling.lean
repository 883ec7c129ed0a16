import Stepwise.Proofs.Run.Statement
/-!
Who calls functions. The only calls that an evaluation makes are those of call expressions that are
not built in; whatever a call would do that anything else made, it makes no difference.
-/

namespace Stepwise

/-- Whether an expression calls what its callee comes to. -/
def Expr.calls : Expr → Bool
  | .call callee _ _ => (Builtin.ofCallee? callee).isNone
  | _ => false

namespace Evaluator

/-- The same evaluator with other calls. -/
def calling (self : Evaluator) (call : Function → List Value → Int → String → Eval Value) : Evaluator :=
  { self with call }

/-- The evaluator of a depth that leaves to others every call but those that call expressions make. -/
def confined (call : Function → List Value → Int → String → Eval Value) (settings : Settings) : Nat → Evaluator
  | 0 => exhausted settings.names
  | n + 1 =>
    let self := confined call settings n
    { names := settings.names
      expr := fun e ↦ if e.calls then self.evalExpr e else (self.calling call).evalExpr e
      stmt := (self.calling call).evalStmt settings
      loop := (self.calling call).evalLoop
      call := (self.calling call).evalCall }

variable (self : Evaluator) (call : Function → List Value → Int → String → Eval Value)

theorem exprs_calling (es : List Expr) : (self.calling call).exprs es = self.exprs es := by
  induction es with
  | nil => rfl
  | cons e es ih => exact congrArg (fun x ↦ self.expr e >>= fun v ↦ x >>= fun vs ↦ pure (v :: vs)) ih

theorem stmts_calling (xs : List Stmt) : (self.calling call).stmts xs = self.stmts xs := by
  induction xs with
  | nil => rfl
  | cons x xs ih => exact congrArg (fun y ↦ self.stmt x >>= fun _ ↦ y) ih

theorem parts_calling (xs : List Part) : (self.calling call).parts xs = self.parts xs := by
  induction xs with
  | nil => rfl
  | cons x xs ih =>
    have hpart : (self.calling call).part x = self.part x := by cases x <;> rfl
    unfold parts
    rw [hpart, ih]

theorem members_calling (fields : Dict Text Value) (ms : List Member) :
    (self.calling call).members fields ms = self.members fields ms := by
  induction ms generalizing fields with
  | nil => rfl
  | cons m ms ih =>
    cases m with
    | pair key value =>
      have hkey : (self.calling call).key key = self.key key := by
        cases key with
        | string xs => exact parts_calling self call xs
        | _ => rfl
      simp only [members, hkey, ih]
      rfl
    | shorthand name =>
      simp only [members, ih]
      rfl
    | unsupported kind location => simp only [members, ih]

theorem builtin_calling (b : Builtin) (arguments : List Expr) (location : Location) :
    (self.calling call).builtin b arguments location = self.builtin b arguments location := by
  have hexprs := exprs_calling self call arguments
  cases b with
  | timer => simp only [builtin, startTimer, hexprs]
  | fetch => simp only [builtin, startFetch, hexprs]
  | console level => simp only [builtin, hexprs]
  | all => simp only [builtin, combine, hexprs]
  | race => simp only [builtin, combine, hexprs]
  | chain object =>
    simp only [builtin, chain, hexprs]
    rfl

theorem evalExpr_calling {e : Expr} (h : e.calls = false) : (self.calling call).evalExpr e = self.evalExpr e := by
  cases e with
  | string xs => simp only [evalExpr, parts_calling]
  | array elements => simp only [evalExpr, exprs_calling]
  | object ms => simp only [evalExpr, members_calling]
  | call callee arguments location =>
    obtain ⟨b, hb⟩ := Option.isSome_iff_exists.mp (Option.isNone_eq_false_iff.mp h)
    simp only [evalExpr, callExpr, hb, builtin_calling]
  | _ => rfl

theorem declarators_calling (kind : BindingKind) (ds : List Declarator) :
    (self.calling call).declarators kind ds = self.declarators kind ds := by
  induction ds with
  | nil => rfl
  | cons d ds ih =>
    have hd : (self.calling call).declarator kind d = self.declarator kind d := by cases d; rfl
    unfold declarators
    rw [hd, ih]

theorem evalStmt_calling (settings : Settings) (x : Stmt) :
    (self.calling call).evalStmt settings x = self.evalStmt settings x := by
  have hexecute : (self.calling call).execute x = self.execute x := by
    cases x with
    | declaration kind ds location => simp only [execute, declarators_calling]
    | block statements => simp only [execute, stmts_calling]
    | _ => rfl
  cases x with
  | comment => rfl
  | _ => simp only [evalStmt, hexecute]

theorem bindParams_calling (names : List String) (values : List Value) :
    (self.calling call).bindParams names values = self.bindParams names values := by
  induction names generalizing values with
  | nil => rfl
  | cons name names ih =>
    simp only [bindParams, ih]
    rfl

theorem evalCall_calling (f : Function) (arguments : List Value) (line : Int) (name : String) :
    (self.calling call).evalCall f arguments line name = self.evalCall f arguments line name := by
  have hbody : (self.calling call).body f.body = self.body f.body := by
    cases f.body with
    | block hoisted statements =>
      simp only [body, stmts_calling]
      rfl
    | _ => rfl
  simp only [evalCall, bindParams_calling, hbody]

theorem topLevel_calling (program : Program) : (self.calling call).topLevel program = self.topLevel program := by
  simp only [topLevel, stmts_calling]
  rfl

/-- A whole evaluation makes no call but those of its call expressions. -/
theorem confined_eq (settings : Settings) (depth : Nat) : confined call settings depth = ofDepth settings depth := by
  induction depth with
  | zero => rfl
  | succ depth ih =>
    have hexpr : (fun e : Expr ↦ if e.calls then (ofDepth settings depth).evalExpr e
        else ((ofDepth settings depth).calling call).evalExpr e) = (ofDepth settings depth).evalExpr := by
      funext e
      cases h : e.calls with
      | true => rfl
      | false => exact evalExpr_calling _ call h
    have hstmt : ((ofDepth settings depth).calling call).evalStmt settings =
        (ofDepth settings depth).evalStmt settings := funext fun x ↦ evalStmt_calling _ call settings x
    have hcall : ((ofDepth settings depth).calling call).evalCall = (ofDepth settings depth).evalCall := by
      funext f arguments line name
      exact evalCall_calling _ call f arguments line name
    have hloop : ((ofDepth settings depth).calling call).evalLoop = (ofDepth settings depth).evalLoop := rfl
    rw [ofDepth_succ]
    unfold confined
    dsimp only
    rw [ih, hexpr, hstmt, hloop, hcall, ← names_ofDepth settings depth]
    rfl

end Evaluator

end Stepwise
