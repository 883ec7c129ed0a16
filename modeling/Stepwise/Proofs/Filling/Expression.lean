import Stepwise.Proofs.Filling.Operation
/-!
Expressions with gaps in the functions written in them. The cases follow the forms of the language; what a nested form
does is taken from the evaluators.
-/

namespace Stepwise

variable {x : Filler}

/-- The name that an expression is, if it is one. -/
def Expr.name? : Expr → Option String
  | identifier name => some name
  | _ => none

theorem Expr.name?_fill (x : Filler) (e : Expr) : (e.fill x).name? = e.name? := by
  cases e with
  | parenthesized inner => rw [fill_parenthesized]; rfl
  | _ => simp only [Expr.fill, name?]

theorem Expr.eq_of_name? {e : Expr} {name : String} (h : e.name? = some name) : e = .identifier name := by
  cases e <;> cases h
  rfl

def Builtin.fill (x : Filler) : Builtin → Builtin
  | chain object => chain (object.fill x)
  | b => b

theorem Builtin.ofCallee?_member (object : Expr) (property : String) : ofCallee? (.member object property) =
    match if object.name?.getD "" = "console" then Level.ofName? property else none with
    | some level => some (console level)
    | none =>
      if object.name?.getD "" = "Promise" && property = "all" then some all
      else if object.name?.getD "" = "Promise" && property = "race" then some race
      else if property = "then" then some (chain object)
      else none := by
  cases object <;> rfl

theorem Builtin.ofCallee?_fill (x : Filler) (e : Expr) : ofCallee? (e.fill x) = (ofCallee? e).map (fill x) := by
  cases e with
  | parenthesized inner => rw [Expr.fill_parenthesized]; rfl
  | identifier name =>
    simp only [Expr.fill, ofCallee?]
    grind [fill]
  | member object property =>
    rw [Expr.fill, ofCallee?_member, ofCallee?_member, Expr.name?_fill]
    split
    · rfl
    · rw [apply_ite (Option.map (fill x)), apply_ite (Option.map (fill x)), apply_ite (Option.map (fill x))]
      rfl
  | _ => simp only [Expr.fill]; rfl

namespace Evaluator

/-- Other operators, and those on other operands, do not ask whether a name is declared. -/
theorem unary_of_name? (self : Evaluator) {op : UnaryOp} {argument : Expr}
    (h : ¬(op = .typeof ∧ argument.name?.isSome)) : self.unary op argument =
      (self.expr argument >>= fun v ↦ Eval.getHeap >>= fun heap ↦ liftM (op.apply heap v)) := by
  unfold unary
  split
  · exact absurd ⟨rfl, rfl⟩ h
  · rfl

theorem callee_eq (self : Evaluator) (e : Expr) : self.callee e = match e.name? with
    | some name => do return (← self.names.resolve name, name)
    | none => do return (← self.expr e, Function.anonymous) := by
  cases e <;> rfl

/-- Two evaluators, the second of which evaluates with the gaps filled in what the first one evaluates with them. -/
structure Fills (x : Filler) (a b : Evaluator) : Prop where
  names : a.names = .ofScopes ∧ b.names = .ofScopes
  expr : ∀ e, Eval.Fills x (Value.fill x) (a.expr e) (b.expr (e.fill x))
  stmt : ∀ s, Eval.Fills x id (a.stmt s) (b.stmt (s.fill x))
  loop : ∀ perIteration condition update body, Eval.Fills x id (a.loop perIteration condition update body)
    (b.loop perIteration (condition.map (Expr.fill x)) (update.map (Expr.fill x)) (body.fill x))
  call : ∀ f arguments line name, Eval.Fills x (Value.fill x) (a.call f arguments line name)
    (b.call (f.recast (Body.fill x)) (arguments.map (Value.fill x)) line name)

namespace Fills

open Eval Engine

variable {a b : Evaluator} (h : Fills x a b)
include h

theorem optional (e : Option Expr) :
    Eval.Fills x (Value.fill x) (a.optional e) (b.optional (e.map (Expr.fill x))) := by
  cases e with
  | none => exact .pure rfl
  | some e => exact h.expr e

theorem condition (e : Expr) : Eval.Fills x id (a.condition e) (b.condition (e.fill x)) :=
  (h.expr e).bind fun v ↦ fills_lift_id (v.truthy_recast _)

theorem exprs (es : List Expr) :
    Eval.Fills x (List.map (Value.fill x)) (a.exprs es) (b.exprs (es.map (Expr.fill x))) := by
  induction es with
  | nil => exact .pure rfl
  | cons e es ih => exact (h.expr e).bind fun _ ↦ ih.bind fun _ ↦ .pure rfl

theorem stmts (ss : List Stmt) : Eval.Fills x id (a.stmts ss) (b.stmts (ss.map (Stmt.fill x))) := by
  induction ss with
  | nil => exact .pure rfl
  | cons s ss ih => exact (h.stmt s).bind fun _ ↦ ih

theorem part (p : Part) : Eval.Fills x id (a.part p) (b.part (p.fill x)) := by
  cases p with
  | raw text => rw [Part.fill]; exact .pure rfl
  | escape sequence => rw [Part.fill]; exact fills_lift_id rfl
  | substitution value =>
    rw [Part.fill_substitution]
    refine (h.optional value).bind fun v ↦ fills_getHeap.bind fun heap ↦ fills_lift_id ?_
    exact v.toText_recast _ heap

theorem parts (ps : List Part) : Eval.Fills x id (a.parts ps) (b.parts (ps.map (Part.fill x))) := by
  induction ps with
  | nil => exact .pure rfl
  | cons p ps ih => exact (h.part p).bind fun _ ↦ ih.bind fun _ ↦ .pure rfl

theorem logical (op : LogicalOp) (left right : Expr) :
    Eval.Fills x (Value.fill x) (a.logical op left right) (b.logical op (left.fill x) (right.fill x)) := by
  refine (h.expr left).bind fun v ↦ ?_
  have htruthy := fills_lift_id (x := x) (v.truthy_recast (Body.fill x))
  cases op with
  | and => exact htruthy.bind fun _ ↦ .ite (h.expr right) (.pure rfl)
  | or => exact htruthy.bind fun _ ↦ .ite (.pure rfl) (h.expr right)
  | nullish =>
    simp only [Value.fill, Value.isNullish_recast]
    exact .ite (h.expr right) (.pure rfl)

/-- Operators give the same, as what they give holds no function. -/
theorem binary (op : BinaryOp) (left right : Expr) :
    Eval.Fills x (Value.fill x) (a.binary op left right) (b.binary op (left.fill x) (right.fill x)) := by
  refine (h.expr left).bind fun v ↦ (h.expr right).bind fun w ↦ fills_getHeap.bind fun heap ↦ fills_lift ?_
  rw [op.apply_recast]
  cases happly : op.apply heap v w with
  | error f => rfl
  | ok u => exact congrArg Except.ok (Value.recast_of_isPlain _ (BinaryOp.isPlain_apply happly)).symm

theorem unary (op : UnaryOp) (argument : Expr) :
    Eval.Fills x (Value.fill x) (a.unary op argument) (b.unary op (argument.fill x)) := by
  have hvalue : Eval.Fills x (Value.fill x)
      (a.expr argument >>= fun v ↦ getHeap >>= fun heap ↦ liftM (op.apply heap v))
      (b.expr (argument.fill x) >>= fun v ↦ getHeap >>= fun heap ↦ liftM (op.apply heap v)) := by
    refine (h.expr argument).bind fun v ↦ fills_getHeap.bind fun heap ↦ fills_lift ?_
    rw [op.apply_recast]
    cases happly : op.apply heap v with
    | error f => rfl
    | ok u => exact congrArg Except.ok (Value.recast_of_isPlain _ (UnaryOp.isPlain_apply happly)).symm
  -- the type of a name can be asked for before it is declared; any other operand is evaluated first
  by_cases hname : op = .typeof ∧ argument.name?.isSome
  · obtain ⟨rfl, hname⟩ := hname
    obtain ⟨name, hname⟩ := Option.isSome_iff_exists.mp hname
    obtain rfl := Expr.eq_of_name? hname
    rw [Expr.fill_identifier] at hvalue ⊢
    unfold Evaluator.unary
    rw [h.names.1, h.names.2]
    exact (fills_liftM (recasts_isDeclared name)).bind fun _ ↦ .ite (.pure rfl) hvalue
  · rw [unary_of_name? a hname, unary_of_name? b (by rwa [Expr.name?_fill])]
    exact hvalue

theorem property (object index : Expr) : Eval.Fills x (Prod.map (Value.fill x) id) (a.property object index)
    (b.property (object.fill x) (index.fill x)) := by
  refine (h.expr object).bind fun _ ↦ (h.expr index).bind fun v ↦ .pure ?_
  rw [Value.toKey_recast]
  rfl

theorem assignTo (place : Place) (v : Value) :
    Eval.Fills x id (a.assignTo place v) (b.assignTo (place.fill x) (v.fill x)) := by
  cases place with
  | name name =>
    unfold Evaluator.assignTo
    rw [h.names.1, h.names.2, Place.fill]
    exact fills_liftM (recasts_assign name v)
  | member object key =>
    rw [Place.fill]
    exact (h.expr object).bind fun receiver ↦ fills_setProperty receiver key v
  | subscript object index =>
    rw [Place.fill]
    exact (h.property object index).bind fun target ↦ fills_setProperty target.1 target.2 v
  | unsupported value kind location => rw [Place.fill]; exact fills_reportUnsupported kind location
  | incomplete => rw [Place.fill]; exact fills_incomplete

omit h in
theorem updateBy (increments givesNew : Bool) (old : Value) {f g : Value → Eval Unit}
    (hfg : ∀ v, Eval.Fills x id (f v) (g (v.fill x))) : Eval.Fills x (Value.fill x)
      (Evaluator.updateBy increments givesNew old f) (Evaluator.updateBy increments givesNew (old.fill x) g) := by
  refine fills_getHeap.bind fun heap ↦ (fills_lift_id (old.toNumber_recast _ heap)).bind fun n ↦ ?_
  exact (fills_lift_id rfl).bind fun n' ↦ (hfg (.number n')).bind fun _ ↦ .pure rfl

theorem update (increments givesNew : Bool) (place : Place) :
    Eval.Fills x (Value.fill x) (a.update increments givesNew place) (b.update increments givesNew (place.fill x)) := by
  have hassign (old : Value) := updateBy increments givesNew old (h.assignTo place)
  cases place with
  | member object key =>
    rw [Place.fill]
    refine (h.expr object).bind fun receiver ↦ (fills_getProperty receiver key).bind fun old ↦ ?_
    exact updateBy increments givesNew old (fills_setProperty receiver key)
  | subscript object index =>
    rw [Place.fill]
    refine (h.property object index).bind fun target ↦ (fills_getProperty target.1 target.2).bind fun old ↦ ?_
    exact updateBy increments givesNew old (fills_setProperty target.1 target.2)
  | name name =>
    have hname := h.expr (.identifier name)
    rw [Expr.fill_identifier] at hname
    rw [Place.fill] at hassign ⊢
    exact hname.bind hassign
  | unsupported value kind location =>
    rw [Place.fill] at hassign ⊢
    exact (h.expr value).bind hassign
  | incomplete =>
    rw [Place.fill]
    exact fills_incomplete

omit h in
theorem bindSlots (elements : List Value) {f g : String → Place → Value → Eval Unit} (slots : List (Nat × Slot))
    (hfg : ∀ text place v, Eval.Fills x id (f text place v) (g text (place.fill x) (v.fill x))) :
    Eval.Fills x id (Evaluator.bindSlots elements f slots)
      (Evaluator.bindSlots (elements.map (Value.fill x)) g (slots.map fun slot ↦ (slot.1, slot.2.fill x))) := by
  induction slots with
  | nil => exact .pure rfl
  | cons slot slots ih =>
    obtain ⟨index, slot⟩ := slot
    cases slot with
    | target text place =>
      rw [List.map_cons, Slot.fill, Evaluator.bindSlots, Evaluator.bindSlots, Value.getD_recast]
      exact (hfg text place _).bind fun _ ↦ ih
    | unsupported kind location =>
      rw [List.map_cons, Slot.fill]
      exact (fills_reportUnsupported kind location).bind fun _ ↦ ih

theorem assignSlots (slots : List (Nat × Slot)) (value : Expr) : Eval.Fills x (Value.fill x) (a.assignSlots slots value)
    (b.assignSlots (slots.map fun slot ↦ (slot.1, slot.2.fill x)) (value.fill x)) := by
  refine (h.expr value).bind fun v ↦ fills_getHeap.bind fun heap ↦ ?_
  rw [Heap.elements?_recast]
  cases heap.elements? v with
  | none => exact .pure rfl
  | some elements => exact (bindSlots elements slots fun _ place v ↦ h.assignTo place v).bind fun _ ↦ .pure rfl

theorem key (k : Key) : Eval.Fills x id (a.key k) (b.key (k.fill x)) := by
  cases k with
  | name name => rw [Key.fill]; exact .pure rfl
  | number literal => rw [Key.fill]; exact .pure rfl
  | string parts => rw [Key.fill]; exact h.parts parts
  | computed value =>
    rw [Key.fill]
    exact (h.expr value).bind fun v ↦ .pure (v.toKey_recast _)

theorem members (ms : List Member) (fields : Dict Text Value) : Eval.Fills x (Dict.mapValues (Value.fill x))
    (a.members fields ms) (b.members (fields.mapValues (Value.fill x)) (ms.map (Member.fill x))) := by
  have hset (fields : Dict Text Value) (k : Text) (v : Value) : (fields.mapValues (Value.fill x)).set k (v.fill x) =
      (fields.set k v).mapValues (Value.fill x) := (fields.mapValues_set _ k v).symm
  induction ms generalizing fields with
  | nil => exact .pure rfl
  | cons m ms ih =>
    cases m with
    | pair k value =>
      rw [List.map_cons, Member.fill]
      refine (h.key k).bind fun k ↦ (h.expr value).bind fun v ↦ ?_
      rw [hset]
      exact ih _
    | shorthand name =>
      rw [List.map_cons, Member.fill, Evaluator.members, Evaluator.members, h.names.1, h.names.2]
      refine (fills_liftM (recasts_resolve name)).bind fun v ↦ ?_
      rw [hset]
      exact ih _
    | unsupported kind location =>
      rw [List.map_cons, Member.fill]
      exact (fills_reportUnsupported kind location).bind fun _ ↦ ih fields

theorem combine {f : List Value → Engine Address} (arguments : List Expr)
    (hf : ∀ vs, Recasts (Body.fill x) id (f vs) (f (vs.map (Value.fill x)))) : Eval.Fills x (Value.fill x)
      (a.combine f arguments) (b.combine f (arguments.map (Expr.fill x))) := by
  refine (h.exprs arguments).bind fun vs ↦ fills_getHeap.bind fun heap ↦ ?_
  have helements : ((vs.map (Value.fill x)).head?.bind (heap.recast (Body.fill x)).elements?).getD [] =
      ((vs.head?.bind heap.elements?).getD []).map (Value.fill x) := by
    cases vs with
    | nil => rfl
    | cons v vs => exact heap.getD_elements?_recast _ v
  simp only [helements]
  exact (fills_liftM (hf _)).bind fun _ ↦ .pure rfl

theorem builtin (y : Builtin) (arguments : List Expr) (location : Location) : Eval.Fills x (Value.fill x)
    (a.builtin y arguments location) (b.builtin (y.fill x) (arguments.map (Expr.fill x)) location) := by
  have hexprs := h.exprs arguments
  cases y with
  | timer =>
    refine hexprs.bind fun vs ↦ ?_
    have hend : Eval.Fills x (Value.fill x) (do recordAt location "Scheduled setTimeout"; return .undefined)
        (do recordAt location "Scheduled setTimeout"; return .undefined) :=
      (fills_recordAt location _).bind fun _ ↦ .pure rfl
    obtain _ | ⟨v, vs⟩ := vs
    · exact hend
    · cases v with
      | function f =>
        have hjob : (Job.call f (vs.drop 1)).recast (Body.fill x) =
            .call (f.recast (Body.fill x)) ((vs.map (Value.fill x)).drop 1) := by
          rw [← List.map_drop]
          rfl
        have hschedule := fills_liftM (x := x)
          (recasts_schedule .macrotask "setTimeout callback" (.call f (vs.drop 1)) f.line)
        rw [hjob] at hschedule
        exact hschedule.bind fun _ ↦ hend
      | _ => exact hend
  | fetch =>
    refine hexprs.bind fun vs ↦ ?_
    have hfetch (url : Text) : Eval.Fills x (Value.fill x)
        (do return .promise (← Engine.fetch url location.startLine))
        (do return .promise (← Engine.fetch url location.startLine)) :=
      (fills_liftM (recasts_fetch url location.startLine)).bind fun _ ↦ .pure rfl
    cases vs with
    | nil => exact hfetch _
    | cons v vs => exact fills_getHeap.bind fun heap ↦ (fills_lift_id (v.toText_recast _ heap)).bind hfetch
  | console level => exact hexprs.bind fun vs ↦ (fills_liftM (recasts_say level vs)).bind fun _ ↦ .pure rfl
  | all => exact h.combine arguments recasts_all
  | race => exact h.combine arguments recasts_race
  | chain object =>
    refine (h.expr object).bind fun v ↦ ?_
    cases v with
    | promise address =>
      refine hexprs.bind fun vs ↦ ?_
      have hhandler : (vs.map (Value.fill x)).head?.bind Value.asFunction? =
          (vs.head?.bind Value.asFunction?).map (Function.recast (Body.fill x)) := by
        cases vs with
        | nil => rfl
        | cons v vs => exact v.asFunction?_recast _
      rw [hhandler]
      exact (fills_liftM (recasts_chain address _)).bind fun _ ↦ .pure rfl
    | _ => exact .pure rfl

theorem callee (e : Expr) :
    Eval.Fills x (Prod.map (Value.fill x) id) (a.callee e) (b.callee (e.fill x)) := by
  rw [callee_eq, callee_eq, Expr.name?_fill, h.names.1, h.names.2]
  cases e.name? with
  | some name => exact (fills_liftM (recasts_resolve name)).bind fun _ ↦ .pure rfl
  | none => exact (h.expr e).bind fun _ ↦ .pure rfl

theorem callExpr (callee : Expr) (arguments : List Expr) (location : Location) : Eval.Fills x (Value.fill x)
    (a.callExpr callee arguments location) (b.callExpr (callee.fill x) (arguments.map (Expr.fill x)) location) := by
  refine (fills_recordAt location _).bind fun _ ↦ ?_
  rw [Builtin.ofCallee?_fill]
  cases Builtin.ofCallee? callee with
  | some y => exact h.builtin y arguments location
  | none =>
    refine (h.callee callee).bind fun target ↦ ?_
    obtain ⟨v, name⟩ := target
    cases v with
    | function f => exact (h.exprs arguments).bind fun vs ↦ h.call f vs location.startLine name
    | _ => exact .pure rfl

theorem evalExpr (e : Expr) : Eval.Fills x (Value.fill x) (a.evalExpr e) (b.evalExpr (e.fill x)) := by
  cases e with
  | parenthesized inner =>
    rw [Expr.fill_parenthesized]
    exact h.optional inner
  | identifier name =>
    rw [Expr.fill_identifier]
    unfold Evaluator.evalExpr
    rw [h.names.1, h.names.2]
    exact fills_identifier name
  | number literal =>
    simp only [Expr.fill]
    exact (fills_lift_id rfl).bind fun _ ↦ .pure rfl
  | string parts =>
    rw [Expr.fill]
    exact (h.parts parts).bind fun _ ↦ .pure rfl
  | boolean | null | undefined =>
    simp only [Expr.fill]
    exact .pure rfl
  | logical op left right =>
    rw [Expr.fill]
    exact h.logical op left right
  | binary op left right =>
    rw [Expr.fill]
    exact h.binary op left right
  | unsupportedBinary symbol left right location =>
    rw [Expr.fill]
    exact (h.expr left).bind fun _ ↦ (h.expr right).bind fun _ ↦ fills_unsupported _ location
  | unary op argument =>
    rw [Expr.fill]
    exact h.unary op argument
  | unsupportedUnary symbol argument location =>
    rw [Expr.fill]
    exact (h.expr argument).bind fun _ ↦ fills_unsupported _ location
  | update increments givesNew place =>
    rw [Expr.fill]
    exact h.update increments givesNew place
  | assign place value =>
    rw [Expr.fill]
    exact (h.expr value).bind fun v ↦ (h.assignTo place v).bind fun _ ↦ .pure rfl
  | assignSlots slots value =>
    rw [Expr.fill]
    exact h.assignSlots slots value
  | conditional condition consequence alternative =>
    rw [Expr.fill]
    exact (h.condition condition).bind fun _ ↦ .ite (h.expr consequence) (h.expr alternative)
  | call callee arguments location =>
    rw [Expr.fill]
    exact h.callExpr callee arguments location
  | member object key =>
    rw [Expr.fill]
    exact (h.expr object).bind fun receiver ↦ fills_getProperty receiver key
  | subscript object index =>
    rw [Expr.fill]
    exact (h.property object index).bind fun target ↦ fills_getProperty target.1 target.2
  | array elements =>
    have helements : (elements.map fun element ↦ (element.1, element.2.fill x)).map Prod.snd =
        (elements.map Prod.snd).map (Expr.fill x) := by
      rw [List.map_map, List.map_map]
      rfl
    have hexprs := h.exprs (elements.map Prod.snd)
    rw [← helements] at hexprs
    rw [Expr.fill]
    exact hexprs.bind fun vs ↦ fills_liftM (recasts_newArray vs)
  | object ms =>
    rw [Expr.fill]
    exact (h.members ms Dict.empty).bind fun fields ↦ fills_liftM (recasts_newObject fields)
  | function name params body line =>
    rw [Expr.fill]
    unfold Evaluator.evalExpr
    rw [h.names.1, h.names.2]
    exact (fills_makeFunction _ params body line).bind fun _ ↦ .pure rfl
  | unsupported kind location =>
    simp only [Expr.fill]
    exact fills_unsupported kind location
  | incomplete =>
    simp only [Expr.fill]
    exact fills_incomplete

end Fills

end Evaluator

end Stepwise
