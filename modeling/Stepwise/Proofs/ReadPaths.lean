import Stepwise.Proofs.State.Operation
/-!
The ways to read a name. As an expression, as a property in shorthand and as a callee it has the value that the visible
scopes give it, or is unresolved. Only the constants, where no visible scope declares them, are known as expressions
alone.
-/

namespace Stepwise

namespace State

variable {s : State} {name : String}

theorem isDeclared_eq_map (s : State) (name : String) : s.isDeclared name = (s.binder? name).map Option.isSome := by
  unfold isDeclared
  cases s.binder? name <;> rfl

theorem resolve_of_not_isDeclared (h : s.isDeclared name = .ok false) : s.resolve name = .error (.unresolved name) := by
  rw [isDeclared_eq_map] at h
  unfold resolve
  cases hb : s.binder? name with
  | error f =>
    rw [hb] at h
    cases h
  | ok scope? =>
    rw [hb] at h
    cases scope? with
    | none => rfl
    | some scope => cases h

theorem resolve_of_isDeclared_error {f : Fault} (h : s.isDeclared name = .error f) : s.resolve name = .error f := by
  rw [isDeclared_eq_map] at h
  unfold resolve
  cases hb : s.binder? name with
  | error f' =>
    rw [hb] at h
    cases h
    rfl
  | ok scope? =>
    rw [hb] at h
    cases h

end State

namespace Eval

variable {name : String} {m : Machine Journal}

theorem reading_of_ok {α : Type} {e : State → Except Fault α} {a : α} (h : e m.state = .ok a) :
    reading e m = .ok a m := by
  unfold reading
  rw [h]

theorem reading_of_error {α : Type} {e : State → Except Fault α} {f : Fault} (h : e m.state = .error f) :
    reading e m = .error (.fault f) m := by
  unfold reading
  rw [h]

theorem exists_recordAt (location : Location) (description : Text) (m : Machine Journal) :
    ∃ n, recordAt location description m = .ok () n ∧ n.state = m.state := ⟨_, rfl, rfl⟩

/-- A constant is looked up where it is declared, and any other name everywhere. -/
theorem identifier_apply (h : constant? name = none ∨ m.state.isDeclared name ≠ .ok false) :
    identifier .ofScopes name m = reading (·.resolve name) m := by
  unfold identifier
  rw [Names.isDeclared_eq, Names.resolve_eq]
  cases hconstant : constant? name with
  | none => rfl
  | some v =>
    rw [hconstant] at h
    have hdeclared := h.resolve_left (Option.some_ne_none v)
    dsimp only
    rw [bind_apply]
    cases hm : m.state.isDeclared name with
    | error f =>
      have hresolve : m.state.resolve name = .error f := State.resolve_of_isDeclared_error hm
      rw [reading_of_error hm, reading_of_error hresolve]
    | ok b =>
      rw [reading_of_ok hm]
      cases b with
      | false => exact absurd hm hdeclared
      | true => rfl

theorem identifier_of_constant {v : Value} (hv : constant? name = some v) (hm : m.state.isDeclared name = .ok false) :
    identifier .ofScopes name m = .ok v m := by
  unfold identifier
  rw [hv, Names.isDeclared_eq]
  dsimp only
  rw [bind_apply, reading_of_ok hm]
  rfl

end Eval

namespace Evaluator

variable {self : Evaluator} {name : String} {m : Machine Journal}

/-- What a call does with its callee, which is called by a name. -/
def callValue (self : Evaluator) (name : String) (arguments : List Expr) (location : Location) : Value → Eval Value
  | .function f => do
    let values ← self.exprs arguments
    self.call f values location.startLine name
  | _ => return .undefined

theorem callExpr_identifier (h : name ≠ "setTimeout" ∧ name ≠ "fetch") (arguments : List Expr) (location : Location) :
    self.callExpr (.identifier name) arguments location =
      Eval.recordAt location "Function call" >>= fun _ ↦
        self.names.resolve name >>= self.callValue name arguments location := by
  have hbuiltin : Builtin.ofCallee? (.identifier name) = none := by
    unfold Builtin.ofCallee?
    dsimp only
    rw [if_neg h.1, if_neg h.2]
  unfold callExpr
  rw [hbuiltin]
  dsimp only
  unfold callee
  rw [bind_assoc]
  refine bind_congr fun _ ↦ bind_congr fun v ↦ ?_
  rw [pure_bind]
  cases v <;> rfl

theorem members_shorthand (fields : Dict Text Value) (name : String) (rest : List Member) :
    self.members fields (.shorthand name :: rest) =
      self.names.resolve name >>= fun v ↦ self.members (fields.set (Text.ofString name) v) rest := rfl

/-- However a name is read, it means the same or is refused for the same reason, unless it is a constant and no visible
scope declares it. -/
theorem reads_agree (hs : self.names = .ofScopes)
    (hname : Eval.constant? name = none ∨ m.state.isDeclared name ≠ .ok false) :
    self.evalExpr (.identifier name) m = Eval.reading (·.resolve name) m ∧
    (∀ fields rest, self.members fields (.shorthand name :: rest) m =
      (self.evalExpr (.identifier name) >>= fun v ↦ self.members (fields.set (Text.ofString name) v) rest) m) ∧
    ∀ arguments location, name ≠ "setTimeout" ∧ name ≠ "fetch" →
      self.callExpr (.identifier name) arguments location m =
        (Eval.recordAt location "Function call" >>= fun _ ↦
          self.evalExpr (.identifier name) >>= self.callValue name arguments location) m := by
  have hidentifier (n : Machine Journal) (hn : n.state = m.state) :
      self.evalExpr (.identifier name) n = self.names.resolve name n := by
    rw [← hn] at hname
    change Eval.identifier self.names name n = _
    rw [hs, Eval.identifier_apply hname, Names.resolve_eq]
  refine ⟨?_, fun fields rest ↦ ?_, fun arguments location hbuiltin ↦ ?_⟩
  · rw [hidentifier m rfl, hs, Names.resolve_eq]
  · rw [members_shorthand, bind_apply, bind_apply, hidentifier m rfl]
  · obtain ⟨n, hrecord, hn⟩ := Eval.exists_recordAt location "Function call" m
    rw [callExpr_identifier hbuiltin, bind_apply, bind_apply, hrecord]
    dsimp only
    rw [bind_apply, bind_apply, hidentifier n hn]

/-- A machine with a variable of the name of a constant. -/
def shadowing : Machine Journal :=
  ⟨{ chain := [1], scopes := [⟨1, .global, Engine.globalScopeName, Dict.empty.set "NaN" (.boolean true), none⟩] }, {}⟩

theorem reads_agree_shadowing :
    let self := ofDepth {} 1
    shadowing.state.isDeclared "NaN" ≠ .ok false ∧
    self.evalExpr (.identifier "NaN") shadowing = .ok (.boolean true) shadowing ∧
    self.members Dict.empty [.shorthand "NaN"] shadowing =
      .ok (Dict.empty.set (Text.ofString "NaN") (.boolean true)) shadowing ∧
    ∃ n, self.callExpr (.identifier "NaN") [] .unknown shadowing = .ok .undefined n := by
  intro self
  have hs : self.names = .ofScopes := rfl
  have hdeclared : shadowing.state.isDeclared "NaN" ≠ .ok false := nofun
  obtain ⟨hexpr, hmembers, hcall⟩ := reads_agree hs (.inr hdeclared)
  have hread : self.evalExpr (.identifier "NaN") shadowing = .ok (.boolean true) shadowing := hexpr.trans rfl
  refine ⟨hdeclared, hread, ?_, ?_⟩
  · rw [hmembers, bind_apply, hread]
    rfl
  · rw [hcall [] .unknown (by decide)]
    exact ⟨_, rfl⟩

/-- As an expression a constant is known everywhere. A property in shorthand and a callee must be declared. -/
theorem reads_of_constant {v : Value} (hs : self.names = .ofScopes) (hv : Eval.constant? name = some v)
    (hm : m.state.isDeclared name = .ok false) :
    self.evalExpr (.identifier name) m = .ok v m ∧
    (∀ fields rest, self.members fields (.shorthand name :: rest) m = .error (.fault (.unresolved name)) m) ∧
    ∀ arguments location, name ≠ "setTimeout" ∧ name ≠ "fetch" → ∃ n,
      self.callExpr (.identifier name) arguments location m = .error (.fault (.unresolved name)) n := by
  have hresolve (n : Machine Journal) (hn : n.state = m.state) :
      self.names.resolve name n = .error (.fault (.unresolved name)) n := by
    rw [← hn] at hm
    rw [hs, Names.resolve_eq]
    exact Eval.reading_of_error (State.resolve_of_not_isDeclared hm)
  refine ⟨?_, fun fields rest ↦ ?_, fun arguments location hbuiltin ↦ ?_⟩
  · change Eval.identifier self.names name m = _
    rw [hs, Eval.identifier_of_constant hv hm]
  · rw [members_shorthand, bind_apply, hresolve m rfl]
  · obtain ⟨n, hrecord, hn⟩ := Eval.exists_recordAt location "Function call" m
    refine ⟨n, ?_⟩
    rw [callExpr_identifier hbuiltin, bind_apply, hrecord]
    dsimp only
    rw [bind_apply, hresolve n hn]

theorem reads_differ_initially :
    let self := ofDepth {} 1
    self.evalExpr (.identifier "NaN") .initial = .ok (.number (.float .nan)) .initial ∧
    self.members Dict.empty [.shorthand "NaN"] .initial = .error (.fault (.unresolved "NaN")) .initial ∧
    ∃ n, self.callExpr (.identifier "NaN") [] .unknown .initial = .error (.fault (.unresolved "NaN")) n := by
  intro self
  have hs : self.names = .ofScopes := rfl
  have hv : Eval.constant? "NaN" = some (.number (.float .nan)) := rfl
  have hm : Machine.initial.state.isDeclared "NaN" = .ok false := rfl
  obtain ⟨hexpr, hmembers, hcall⟩ := reads_of_constant hs hv hm
  exact ⟨hexpr, hmembers Dict.empty [], hcall [] .unknown (by decide)⟩

end Evaluator

end Stepwise
