import Stepwise.Proofs.Filling.Gap
import Stepwise.Proofs.Run.Recasting
/-!
Machines with gaps in their functions. What an operation makes of a machine it makes of the machine with a filler in the
gaps, the reports of the filler standing in the place of each arrival at a gap.
-/

namespace Stepwise

/-- Control reached a gap. Whatever else is reported has a message. -/
def Diagnostic.arrival : Diagnostic := ⟨[], .unknown⟩

theorem Diagnostic.unsupported_ne_arrival (kind : String) (location : Location) : unsupported kind location ≠ arrival :=
  fun h ↦ List.cons_ne_nil _ _ (List.append_eq_nil_iff.mp (congrArg Diagnostic.message h)).1

/-- What is reported in the place of a diagnostic. -/
def Filler.report (x : Filler) (d : Diagnostic) : List Diagnostic := if d = .arrival then x.reports else [d]

/-- The same step, the functions in its snapshot with other bodies. -/
def Step.recast (φ : Body → Body) (s : Step) : Step := { s with snapshot := s.snapshot.recast φ }

def Stop.recast (φ : Body → Body) : Stop → Stop
  | returned v => returned (v.recast φ)
  | stop => stop

/-- The same machine with the gaps filled in. -/
def Machine.fill (x : Filler) (m : Machine Journal) : Machine Journal where
  state := m.state.recast (Body.fill x)
  journal := ⟨m.journal.steps.map (Step.recast (Body.fill x)), m.journal.diagnostics.flatMap x.report⟩

abbrev Value.fill (x : Filler) (v : Value) : Value := v.recast (Body.fill x)

variable {x : Filler} {α β : Type}

namespace Eval

/-- What an evaluation makes of a machine, another one makes of the machine with the gaps filled in. -/
abbrev Fills (x : Filler) (r : α → β) : Eval α → Eval β → Prop :=
  Mirrors (Machine.fill x) (Stop.recast (Body.fill x)) r

/-- Notes down that control reached a gap. -/
def arrive : Eval Unit := modify fun m ↦ { m with journal.diagnostics := m.journal.diagnostics ++ [.arrival] }

theorem fills_liftM {r : α → β} {y : Engine α} {z : Engine β} (h : Engine.Recasts (Body.fill x) r y z) :
    Fills x r (liftM y) (liftM z) := by
  intro m
  change Activity.ofEngine z _ = image _ _ _ (Activity.ofEngine y m)
  unfold Activity.ofEngine
  rw [show z (m.fill x).state = _ from h m.state]
  cases y m.state <;> rfl

theorem fills_lift {r : α → β} {y : Except Fault α} {z : Except Fault β} (h : z = y.map r) :
    Fills x r (liftM y) (liftM z) := by
  subst h
  intro m
  cases y <;> rfl

theorem fills_lift_id {y z : Except Fault α} (h : z = y) : Fills x id (liftM y) (liftM z) :=
  fills_lift (h.trans (by cases y <;> rfl))

theorem fills_getState : Fills x (State.recast (Body.fill x)) getState getState := fun _ ↦ rfl

theorem fills_getHeap : Fills x (Heap.recast (Body.fill x)) getHeap getHeap := fun _ ↦ rfl

theorem fills_incomplete {r : α → β} : Fills x r incomplete incomplete := .throw rfl

theorem fills_record (line column : Int) (description : Text) :
    Fills x id (record line column description) (record line column description) := by
  refine .modify fun m ↦ ?_
  have hsteps : (m.journal.steps ++ [Step.behind m.journal.steps line column description m.state]).map
      (Step.recast (Body.fill x)) = (m.fill x).journal.steps ++
        [Step.behind (m.fill x).journal.steps line column description (m.fill x).state] := by
    have hlength : (m.fill x).journal.steps.length = m.journal.steps.length := List.length_map _
    unfold Step.behind
    rw [List.map_append, hlength]
    rfl
  exact congrArg (fun steps ↦ { m.fill x with journal := { (m.fill x).journal with steps } }) hsteps

theorem fills_recordAt (location : Location) (description : Text) :
    Fills x id (recordAt location description) (recordAt location description) :=
  fills_record location.startLine location.startColumn description

theorem fills_reportUnsupported (kind : String) (location : Location) :
    Fills x id (reportUnsupported kind location) (reportUnsupported kind location) := by
  refine .modify fun m ↦ ?_
  have hreport : x.report (.unsupported kind location) = [.unsupported kind location] :=
    if_neg (Diagnostic.unsupported_ne_arrival kind location)
  have hdiagnostics : (m.journal.diagnostics ++ [Diagnostic.unsupported kind location]).flatMap x.report =
      (m.fill x).journal.diagnostics ++ [.unsupported kind location] := by
    rw [List.flatMap_append, List.flatMap_singleton, hreport]
    rfl
  exact congrArg (fun diagnostics ↦ { m.fill x with journal := { (m.fill x).journal with diagnostics } }) hdiagnostics

theorem fills_unsupported (kind : String) (location : Location) :
    Fills x (Value.recast (Body.fill x)) (unsupported kind location) (unsupported kind location) :=
  (fills_reportUnsupported kind location).bind fun _ ↦ .pure rfl

theorem fills_catchReturn {y z : Eval Value} (h : Fills x (Value.recast (Body.fill x)) y z) :
    Fills x (Value.recast (Body.fill x)) (catchReturn y) (catchReturn z) := by
  intro m
  unfold catchReturn
  rw [h m]
  rcases y m with ⟨v, m⟩ | ⟨v | f | _, m⟩ <;> rfl

theorem fills_closing {r : α → β} {y : Eval α} {z : Eval β} {close : Engine Unit} (h : Fills x r y z)
    (hclose : Engine.Recasts (Body.fill x) id close close) :
    Fills x r (Activity.closing y close) (Activity.closing z close) := by
  intro m
  have hc (m : Machine Journal) : Activity.ofEngine close (m.fill x) = image _ _ id (Activity.ofEngine close m) :=
    fills_liftM hclose m
  unfold Activity.closing
  rw [h m]
  cases y m with
  | ok a m =>
    simp only [image, hc]
    cases Activity.ofEngine close m <;> rfl
  | error stop m =>
    simp only [image, hc]
    cases Activity.ofEngine close m <;> rfl

theorem fills_prune (settings : Settings) : Fills x id (prune settings) (prune settings) :=
  .ite ((fills_liftM Engine.recasts_prune).bind fun _ ↦ .pure rfl) (.pure rfl)

theorem fills_getProperty (receiver : Value) (key : Text) :
    Fills x (Value.recast (Body.fill x)) (getProperty receiver key) (getProperty (receiver.recast (Body.fill x)) key) :=
  fills_getHeap.bind fun heap ↦ fills_lift (heap.getProperty_recast _ receiver key)

theorem fills_setProperty (receiver : Value) (key : Text) (v : Value) : Fills x id (setProperty receiver key v)
    (setProperty (receiver.recast (Body.fill x)) key (v.recast (Body.fill x))) :=
  fills_liftM (Engine.recasts_setProperty v receiver key)

theorem fills_identifier (name : String) :
    Fills x (Value.recast (Body.fill x)) (identifier .ofScopes name) (identifier .ofScopes name) := by
  have hresolve := fills_liftM (x := x) (Engine.recasts_resolve name)
  unfold identifier
  cases hc : constant? name with
  | none => exact hresolve
  | some v =>
    refine (fills_liftM (Engine.recasts_isDeclared name)).bind fun _ ↦ .ite hresolve (.pure ?_)
    unfold constant? at hc
    grind [Value.recast]

theorem fills_hoist (hoisted : List String) : Fills x id (hoist .ofScopes hoisted) (hoist .ofScopes hoisted) := by
  refine fills_getState.bind fun s ↦ (fills_lift_id (s.headId_recast _)).bind fun scope ↦ ?_
  have hname (name : String) : Fills x id
      (do
        let bound := ((← getState).scope? scope).any (·.bindings.contains name)
        if !bound then Names.ofScopes.declare name .undefined .functionScoped none)
      (do
        let bound := ((← getState).scope? scope).any (·.bindings.contains name)
        if !bound then Names.ofScopes.declare name .undefined .functionScoped none) := by
    refine fills_getState.bind fun s ↦ ?_
    have hbound : ((s.recast (Body.fill x)).scope? scope).any (·.bindings.contains name) =
        (s.scope? scope).any (·.bindings.contains name) := by
      rw [State.scope?_recast]
      cases s.scope? scope with
      | none => rfl
      | some scope => exact scope.bindings.contains_mapValues _ name
    simp only [hbound]
    exact .ite (fills_liftM (Engine.recasts_declare name .undefined .functionScoped none)) (.pure rfl)
  simpa only [List.map_id] using Mirrors.forM (t := id) hname hoisted

theorem fills_declareAs (kind : BindingKind) (name : String) (v : Value) : Fills x id
    (declareAs .ofScopes kind name v) (declareAs .ofScopes kind name (v.recast (Body.fill x))) := by
  have hdeclare (scope : Option Nat) := fills_liftM (x := x) (Engine.recasts_declare name v kind scope)
  have hscope : Fills x id Names.ofScopes.functionScope Names.ofScopes.functionScope :=
    .bind .get fun m ↦ fills_lift_id (m.state.functionScope_recast _)
  exact .ite (.bind (hscope.map (f := some) (t := id) fun _ ↦ rfl) hdeclare) (hdeclare none)

theorem fills_paramNames (params : List Param) : Fills x id (paramNames params) (paramNames params) := by
  induction params with
  | nil => exact .pure rfl
  | cons param params ih =>
    cases param with
    | name name => exact ih.bind fun _ ↦ .pure rfl
    | unsupported kind location => exact (fills_reportUnsupported kind location).bind fun _ ↦ ih

theorem fills_makeFunction (name : String) (params : List Param) (body : Body) (line : Int) :
    Fills x (Function.recast (Body.fill x)) (makeFunction .ofScopes name params body line)
      (makeFunction .ofScopes name params (body.fill x) line) :=
  (fills_paramNames params).bind fun _ ↦ (fills_liftM Engine.recasts_capture).bind fun _ ↦
    (fills_liftM Engine.recasts_freshIdentity).bind fun _ ↦ .pure rfl

theorem fills_named (name : String) (v : Value) :
    Fills x (Value.recast (Body.fill x)) (named name v) (named name (v.recast (Body.fill x))) := by
  cases v with
  | function f => exact .ite ((fills_liftM Engine.recasts_freshIdentity).bind fun _ ↦ .pure rfl) (.pure rfl)
  | _ => exact .pure rfl

end Eval

end Stepwise
