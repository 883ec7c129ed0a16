import Stepwise.Proofs.Run.Expression
/-!
Statements, loops and calls keep every correspondence that single operations keep, and so do the
evaluators of all depths.
-/

namespace Stepwise

namespace Evaluator

theorem ofDepth_succ (s : Settings) (n : Nat) : ofDepth s (n + 1) = (ofDepth s n).next s := by cases n <;> rfl

theorem names_ofDepth (s : Settings) (n : Nat) : (ofDepth s n).names = s.names := by cases n <;> rfl

/-- Binds a target to a value, with a way to declare each of its names. -/
def bindTarget (declare : String → Value → Eval Unit) (target : Binder) (value : Value) : Eval Unit :=
  match target with
  | .name name => do declare name (← Eval.named name value)
  | .slots slots => do
    let elements := ((← Eval.getHeap).elements? value).getD []
    bindSlots elements (fun text _ item ↦ declare text item) slots
  | .unsupported form location => Eval.reportUnsupported form location
  | .incomplete => Eval.incomplete

theorem declarator_mk (self : Evaluator) (kind : BindingKind) (target : Binder) (initial : Option Expr) :
    self.declarator kind (.mk target initial) =
      self.optional initial >>= bindTarget (Eval.declareAs self.names kind) target := by
  cases target <;> rfl

end Evaluator

namespace Correspondence

variable {L : Correspondence} {s t : Settings} {a b : Evaluator} {p : Machines}

section Parts

variable (h : L.SoundForms s t) (hab : L.Parts s t a b)
include hab

theorem Parts.stmts (xs : List Stmt) (hp : L.holds p) :
    L.Related .statement anything (a.stmts xs) (b.stmts xs) p := by
  induction xs generalizing p with
  | nil => exact .pure hp trivial
  | cons x xs ih => exact (hab.stmt x hp).seq fun q hq _ _ ↦ ih hq

include h

omit hab in
theorem SoundForms.bindTarget {declare declare' : String → Value → Eval Unit} (target : Binder) {v : Value} (hp : L.holds p)
    (hv : L.valid p v) (hdeclare : ∀ {q} name {w}, L.holds q → L.valid q w →
      L.Related .expression anything (declare name w) (declare' name w) q) :
    L.Related .expression anything (Evaluator.bindTarget declare target v) (Evaluator.bindTarget declare' target v) p := by
  cases target with
  | name name => exact (h.named name v hp hv).bind fun r w hr _ hw ↦ hdeclare name hr hw
  | slots slots =>
    refine (h.getHeap hp).bind fun r heap hr _ e ↦ ?_
    have hes : L.allValid r ((heap.elements? v).getD []) := by
      cases hes : heap.elements? v with
      | none => exact fun v hv ↦ nomatch hv
      | some es => exact h.elements hr e hes
    exact h.bindSlots slots hr hes fun r text _ w hr hw ↦ hdeclare text hr hw
  | unsupported form location => exact h.report form location hp
  | incomplete => exact h.incomplete hp

theorem Parts.declarator (kind : BindingKind) (d : Declarator) (hp : L.holds p) :
    L.Related .expression anything (a.declarator kind d) (b.declarator kind d) p := by
  obtain ⟨target, initial⟩ := d
  rw [Evaluator.declarator_mk, Evaluator.declarator_mk, hab.names.1, hab.names.2]
  exact (hab.optional h initial hp).bind fun q v hq _ hv ↦
    h.bindTarget target hq hv fun name w hr hw ↦ h.declareAs kind name w hr hw

theorem Parts.declarators (kind : BindingKind) (ds : List Declarator) (hp : L.holds p) :
    L.Related .expression anything (a.declarators kind ds) (b.declarators kind ds) p := by
  induction ds generalizing p with
  | nil => exact .pure hp trivial
  | cons d ds ih => exact (hab.declarator h kind d hp).seq fun q hq _ _ ↦ ih hq

omit h in
theorem Parts.startLoop (initializer : Initializer) (hp : L.holds p) :
    L.Related .statement anything (a.startLoop initializer) (b.startLoop initializer) p := by
  cases initializer with
  | none => exact .pure hp trivial
  | expression e => exact (hab.expr e hp).of_expression.seq fun q hq _ _ ↦ .pure hq trivial
  | declaration perIteration statement => exact hab.stmt statement hp

/-- Without fresh scopes a loop is the initializer and the iterations one behind the other; with them
that happens inside a scope, where the innermost one may be renewed. -/
theorem Parts.forLoop (initializer : Initializer) (condition update : Option Expr) (body : Stmt)
    (hp : L.holds p) :
    L.Related .statement anything (a.forLoop initializer condition update body)
      (b.forLoop initializer condition update body) p := by
  have hactivity (r : Bool) (q : Machines) (hq : L.holds q) (hr : r = true → L.renewable q) :
      L.Related (.ofLoop r) anything
        (a.startLoop initializer >>= fun _ ↦ a.loop r condition update body)
        (b.startLoop initializer >>= fun _ ↦ b.loop r condition update body) q := by
    refine ((hab.startLoop initializer hq).of_statement (Stretch.ofLoop_ne r)).seq fun q' hq' hl _ ↦ ?_
    refine hab.loop r condition update body hq' fun hr' ↦ ?_
    subst hr'
    exact L.renewable_leads hl (hr rfl)
  unfold Evaluator.forLoop
  cases hf : Evaluator.isFresh initializer with
  | true => exact h.inScope "for" _ _ hp fun q hq hren ↦ hactivity true q hq fun _ ↦ hren rfl
  | false => exact hactivity false p hp nofun

theorem Parts.goesOn (condition : Option Expr) (hp : L.holds p) :
    L.Related .expression anything (a.goesOn condition) (b.goesOn condition) p := by
  cases condition with
  | some e => exact hab.condition h e hp
  | none => exact .pure hp trivial

theorem Parts.evalLoop (r : Bool) (condition update : Option Expr) (body : Stmt) (hp : L.holds p)
    (hren : r = true → L.renewable p) :
    L.Related (.ofLoop r) anything (a.evalLoop r condition update body)
      (b.evalLoop r condition update body) p := by
  have hleads {q q' : Machines} (hr : r = true → L.renewable q) (hl : L.leads (.ofLoop r) q q') :
      r = true → L.renewable q' := by
    rintro rfl
    exact L.renewable_leads hl (hr rfl)
  have hagain (q : Machines) (hq : L.holds q) (hr : r = true → L.renewable q) :
      L.Related (.ofLoop r) anything
        (a.optional update >>= fun _ ↦ a.loop r condition update body)
        (b.optional update >>= fun _ ↦ b.loop r condition update body) q :=
    (hab.optional h update hq).of_expression.seq fun q' hq' hl _ ↦
      hab.loop r condition update body hq' (hleads hr hl)
  refine (hab.goesOn h condition hp).of_expression.seq fun q hq hl goesOn ↦ ?_
  refine .ite (fun _ ↦ ?_) (fun _ ↦ .pure hq trivial)
  refine ((hab.stmt body hq).of_statement (Stretch.ofLoop_ne r)).seq fun q' hq' hl' _ ↦ ?_
  have hren' := hleads (hleads hren hl) hl'
  cases r with
  | true =>
    exact (h.renew hq' (hren' rfl)).seq fun q'' hq'' hl'' _ ↦ hagain q'' hq'' (hleads hren' hl'')
  | false => exact hagain q' hq' hren'

theorem Parts.conditional (condition : Expr) (consequence : Stmt)
    (alternative : Option (Option Stmt)) (location : Location) (hp : L.holds p) :
    L.Related .statement anything (a.conditional condition consequence alternative location)
      (b.conditional condition consequence alternative location) p := by
  refine (hab.condition h condition hp).of_expression.seq fun q hq _ c ↦ .ite (fun _ ↦ ?_) (fun _ ↦ ?_)
  · exact (h.record _ _ _ (by decide) hq).of_expression.seq fun r hr _ _ ↦ hab.stmt consequence hr
  · cases alternative with
    | none => exact .pure hq trivial
    | some branch =>
      refine (h.record _ _ _ (by decide) hq).of_expression.seq fun r hr _ _ ↦ ?_
      cases branch with
      | none => exact .pure hr trivial
      | some x => exact hab.stmt x hr

theorem Parts.execute (x : Stmt) (hp : L.holds p) :
    L.Related .statement anything (a.execute x) (b.execute x) p := by
  have hrecord {y z : Eval Unit} (location : Location) (description : Text) (htitle : description.isTitle = false)
      (hyz : ∀ q, L.holds q → L.Related .statement anything y z q) :
      L.Related .statement anything (Eval.recordAt location description >>= fun _ ↦ y)
        (Eval.recordAt location description >>= fun _ ↦ z) p :=
    (h.record _ _ _ htitle hp).of_expression.seq fun q hq _ _ ↦ hyz q hq
  cases x with
  | expression value location =>
    refine hrecord location _ (by decide) fun q hq ↦ ?_
    exact (hab.optional h value hq).of_expression.seq fun r hr _ _ ↦ .pure hr trivial
  | declaration kind ds location =>
    exact hrecord location _ (by decide) fun q hq ↦ (hab.declarators h kind ds hq).of_expression
  | function name params body location =>
    refine hrecord location _ (Text.isTitle_declaring name) fun q hq ↦ ?_
    simp only [hab.names]
    refine (h.makeFunction name params body _ hq).of_expression.bind fun r f hr _ hf ↦ ?_
    exact (h.declare name _ .functionScoped hr hf).of_expression
  | returns value location =>
    refine hrecord location _ (by decide) fun q hq ↦ ?_
    refine (hab.optional h value hq).of_expression.bind fun r v hr _ hv ↦ .throw hr hv
  | conditional condition consequence alternative location =>
    exact hab.conditional h condition consequence alternative location hp
  | loop initializer condition update body => exact hab.forLoop h initializer condition update body hp
  | block statements =>
    exact h.inScope "block" _ _ hp fun q hq _ ↦ (hab.stmts statements hq).of_statement nofun
  | empty => exact .pure hp trivial
  | comment => exact .pure hp trivial
  | unsupported kind location => exact (h.report kind location hp).of_expression
  | incomplete => exact h.incomplete hp

omit hab in
/-- Captured scopes are forgotten before a statement, where that is due. -/
theorem SoundForms.pruned {x y : Eval Unit} (hp : L.holds p)
    (hxy : ∀ q, L.holds q → L.leads .statement p q → L.Related .statement anything x y q) :
    L.Related .statement anything
      (Eval.getState >>= fun state ↦ if state.frames.isEmpty = true then Eval.prune s >>= fun _ ↦ x else x)
      (Eval.getState >>= fun state ↦ if state.frames.isEmpty = true then Eval.prune t >>= fun _ ↦ y else y) p := by
  unfold Related
  change L.Ends _ _ _ ((if p.1.state.frames.isEmpty = true then Eval.prune s >>= fun _ ↦ x else x) p.1)
    ((if p.2.state.frames.isEmpty = true then Eval.prune t >>= fun _ ↦ y else y) p.2)
  rw [h.frames_isEmpty hp]
  split
  next he => exact (h.prune hp (List.isEmpty_iff.mp he)).seq fun q hq hl _ ↦ hxy q hq hl
  next => exact hxy p hp (L.refl .statement p)

theorem Parts.evalStmt (x : Stmt) (hp : L.holds p) :
    L.Related .statement anything (a.evalStmt s x) (b.evalStmt t x) p := by
  cases x with
  | comment => exact .pure hp trivial
  | _ => exact h.pruned hp fun q hq _ ↦ hab.execute h _ hq

theorem Parts.bindParams (names : List String) (values : List Value) (hp : L.holds p)
    (hvs : L.allValid p values) :
    L.Related .expression anything (a.bindParams names values) (b.bindParams names values) p := by
  induction names generalizing values p with
  | nil => exact .pure hp trivial
  | cons name names ih =>
    have hhead : L.valid p (values.head?.getD .undefined) := by
      cases values with
      | nil => exact h.valid_plain rfl
      | cons v values => exact hvs v List.mem_cons_self
    simp only [Evaluator.bindParams, hab.names]
    refine (h.declare name _ .blockScoped hp hhead).seq fun q hq hl _ ↦ ?_
    exact ih values.tail hq fun v hv ↦ L.valid_leads hl (hvs v (List.mem_of_mem_tail hv))

theorem Parts.block {k : Stretch} (hk : k ≠ .expression) (hoisted : List String) (statements : List Stmt)
    (hp : L.holds p) :
    L.Related k L.valid (a.body (.block hoisted statements)) (b.body (.block hoisted statements)) p := by
  simp only [Evaluator.body, hab.names]
  refine (h.hoist hoisted hp).of_expression.seq fun q hq _ _ ↦ ?_
  exact ((hab.stmts statements hq).of_statement hk).seq fun r hr _ _ ↦ .pure hr (h.valid_plain rfl)

theorem Parts.body (x : Body) (hp : L.holds p) :
    L.Related .body L.valid (a.body x) (b.body x) p := by
  cases x with
  | expression value => exact (hab.expr value hp).of_expression
  | block hoisted statements => exact hab.block h (by decide) hoisted statements hp
  | incomplete => exact h.incomplete hp

theorem Parts.callBody (f : Function) (vs : List Value) (scope : Nat) (hp : L.holds p) (hscope : L.entered p scope)
    (hvs : L.allValid p vs) :
    L.Related .body L.valid
      (a.bindParams f.params vs >>= fun _ ↦ liftM (Evaluator.keepLocals scope) >>= fun _ ↦ a.body f.body)
      (b.bindParams f.params vs >>= fun _ ↦ liftM (Evaluator.keepLocals scope) >>= fun _ ↦ b.body f.body) p := by
  have hparams : L.Related .expression (fun r _ ↦ L.entered r scope) (a.bindParams f.params vs)
      (b.bindParams f.params vs) p :=
    (hab.bindParams h f.params vs hp hvs).post fun r _ _ hl _ ↦ L.entered_leads hl hscope
  refine hparams.of_expression.bind fun r _ hr _ he ↦ ?_
  exact (h.keepLocals scope hr he).seq fun r hr _ _ ↦ hab.body h f.body hr

end Parts

theorem Parts.evalCall (h : L.Sound s t) (hab : L.Parts s t a b) (f : Function) (vs : List Value) (line : Int)
    (name : String) (hp : L.holds p) (hf : L.valid p (.function f)) (hvs : L.allValid p vs) :
    L.Related .expression L.valid (a.evalCall f vs line name) (b.evalCall f vs line name) p :=
  h.inCall f vs line _ _ _ hp hf hvs fun scope _ hq hscope hvalid ↦
    hab.callBody h f vs scope hq hscope fun v hv ↦ hvalid v (hvs v hv)

theorem Parts.next (h : L.Sound s t) (hab : L.Parts s t a b) : L.Parts s t (a.next s) (b.next t) where
  names := hab.names
  expr e hp := hab.evalExpr h e hp
  stmt x hp := hab.evalStmt h x hp
  loop r c u x hp hr := hab.evalLoop h r c u x hp hr
  call f vs line name hp hf hvs := hab.evalCall h f vs line name hp hf hvs

theorem parts_exhausted (L : Correspondence) (s t : Settings) :
    L.Parts s t (Evaluator.exhausted s.names) (Evaluator.exhausted t.names) where
  names := ⟨rfl, rfl⟩
  expr _ hp := .throw hp trivial
  stmt _ hp := .throw hp trivial
  loop _ _ _ _ hp _ := .throw hp trivial
  call _ _ _ _ hp _ _ := .throw hp trivial

theorem Sound.parts (h : L.Sound s t) (depth : Nat) :
    L.Parts s t (Evaluator.ofDepth s depth) (Evaluator.ofDepth t depth) := by
  induction depth with
  | zero => exact L.parts_exhausted s t
  | succ n ih =>
    rw [Evaluator.ofDepth_succ, Evaluator.ofDepth_succ]
    exact ih.next h

end Correspondence

end Stepwise
