import Stepwise.Proofs.Outcome
import Stepwise.Proofs.State.Scoping
import Stepwise.Run
/-!
What the operations on names, scopes and calls come to on a state.
-/

namespace Stepwise

variable {s : State}

namespace Engine

theorem declare_apply (name : String) (v : Value) (kind : BindingKind) (scope : Option Nat) (s : State) :
    Engine.declare name v kind scope s =
      match scope.elim s.headId .ok with
      | .error f => .error f s
      | .ok id => match s.scope? id with
        | some scope => .ok () ((s.bind scope name v).recordVariable name v kind id)
        | none => .error .emptyChain s := by
  have hbody (id : Nat) : (match s.scope? id with
      | some scope => set ((s.bind scope name v).recordVariable name v kind id)
      | none => throw .emptyChain : Engine Unit) s = match s.scope? id with
      | some scope => .ok () ((s.bind scope name v).recordVariable name v kind id)
      | none => .error .emptyChain s := by
    cases s.scope? id <;> rfl
  cases scope with
  | some id => exact hbody id
  | none =>
    have hnone : Engine.declare name v kind none s =
        ((liftM s.headId : Engine Nat) >>= fun id ↦ match s.scope? id with
          | some scope => set ((s.bind scope name v).recordVariable name v kind id)
          | none => throw .emptyChain) s := rfl
    rw [hnone, Option.elim_none]
    cases s.headId with
    | error f => rfl
    | ok id => exact hbody id

theorem declare_of_scope? {id : Nat} {scope : Scope} (hscope : s.scope? id = some scope) (name : String) (v : Value)
    (kind : BindingKind) :
    Engine.declare name v kind (some id) s = .ok () ((s.bind scope name v).recordVariable name v kind id) := by
  simp only [declare_apply, Option.elim_some, hscope]

theorem declare_of_headId {id : Nat} {scope : Scope} (hhead : s.headId = .ok id) (hscope : s.scope? id = some scope)
    (name : String) (v : Value) (kind : BindingKind) :
    Engine.declare name v kind none s = .ok () ((s.bind scope name v).recordVariable name v kind id) := by
  simp only [declare_apply, Option.elim_none, hhead, hscope]

theorem assign_apply (name : String) (v : Value) (s : State) : Engine.assign name v s =
    match s.binder? name with
    | .error f => .error f s
    | .ok (some scope) => .ok () (s.bind scope name v)
    | .ok none => Engine.declare name v .blockScoped none s := by
  have hbody : Engine.assign name v s = ((liftM (s.binder? name) : Engine (Option Scope)) >>= fun scope ↦
      match scope with
      | some scope => set (s.bind scope name v)
      | none => Engine.declare name v .blockScoped none) s := rfl
  rw [hbody]
  cases s.binder? name with
  | error f => rfl
  | ok scope => cases scope <;> rfl

theorem pushScope_apply (kind : ScopeKind) (name : String) (parent : Option Nat) (s : State) :
    Engine.pushScope kind name parent s = .ok (s.lastId + 1)
      (s.openScope { id := s.lastId + 1, kind, name, parent := parent.or s.chain.head? } s.chain s.frames) := rfl

theorem popScope_apply {id outer : Nat} {rest : List Nat} (h : s.chain = id :: outer :: rest) :
    Engine.popScope s = .ok id { s with chain := outer :: rest } := by
  unfold Engine.popScope
  rw [bind_apply, get_apply]
  dsimp only
  rw [h]
  rfl

theorem closeScope_apply {id outer : Nat} {rest : List Nat} (h : s.chain = id :: outer :: rest) :
    (Engine.popScope >>= fun _ ↦ pure () : Engine Unit) s = .ok () { s with chain := outer :: rest } := by
  rw [bind_apply, popScope_apply h]
  rfl

theorem renewScope_eq {id outer : Nat} {rest : List Nat} {old : Scope} (hchain : s.chain = id :: outer :: rest)
    (hold : s.scope? id = some old) :
    Engine.renewScope s = .ok (s.lastId + 1) { s with
      lastId := s.lastId + 1
      chain := (s.lastId + 1) :: outer :: rest
      scopes := ({ id := s.lastId + 1, kind := old.kind, name := old.name, parent := old.parent.or (some outer) } ::
        s.scopes).map fun scope : Scope ↦
          if scope.id = s.lastId + 1 then { scope with bindings := old.bindings } else scope } := by
  have hold' : State.scope? { s with chain := outer :: rest } id = some old := hold
  unfold Engine.renewScope
  rw [bind_apply, popScope_apply hchain]
  dsimp only
  rw [bind_apply, get_apply]
  dsimp only
  rw [hold']
  rfl

theorem renewScope_of_fresh {id outer : Nat} {rest : List Nat} {old : Scope}
    (hs : ∀ scope ∈ s.scopes, scope.id ≠ s.lastId + 1)
    (hchain : s.chain = id :: outer :: rest) (hold : s.scope? id = some old) :
    Engine.renewScope s = .ok (s.lastId + 1) (s.openScope
      { old with id := s.lastId + 1, parent := old.parent.or (some outer) } (outer :: rest) s.frames) := by
  have hscopes : (s.scopes.map fun scope ↦ if scope.id = s.lastId + 1 then
      { scope with bindings := old.bindings } else scope) = s.scopes := by
    refine (List.map_congr_left fun scope hscope ↦ ?_).trans (List.map_id _)
    exact if_neg (hs scope hscope)
  rw [renewScope_eq hchain hold, List.map_cons, hscopes, if_pos rfl]
  rfl

theorem renewScope_apply {id outer : Nat} {rest : List Nat} {old : Scope}
    (hs : ∀ scope ∈ s.scopes, scope.id ≠ s.lastId + 1)
    (hchain : s.chain = id :: outer :: rest) (hold : s.scope? id = some old)
    (hparent : old.parent = some outer) :
    Engine.renewScope s = .ok (s.lastId + 1)
      (s.openScope { old with id := s.lastId + 1 } (outer :: rest) s.frames) := by
  have hinherited : old.parent.or (some outer) = old.parent := by rw [hparent, Option.some_or]
  rw [renewScope_of_fresh hs hchain hold, hinherited]

end Engine

namespace State

variable (s : State) (f : Function) (arguments : List Value) (line : Int) (name : String)

/-- The scope that a call of a function opens. -/
def callScope : Scope :=
  { id := s.lastId + 2, kind := .function, name, parent := f.closure.head?.or s.chain.head? }

/-- The frame of a call, the number of which is the one before that of the scope. -/
def callFrame : Frame :=
  { id := s.lastId + 1, name, line, arguments, scope := some (s.callScope f name).id, depth := s.chain.length,
    closure := f.closure }

/-- A state inside of a call. -/
abbrev entered : State := s.openScope (s.callScope f name) s.chain (s.callFrame f arguments line name :: s.frames)

theorem lt_callScope : s.lastId < (s.callScope f name).id := Nat.lt_add_of_pos_right Nat.two_pos

end State

namespace Evaluator

theorem enter_apply (f : Function) (arguments : List Value) (line : Int) (name : String) (s : State) :
    Evaluator.enter f arguments line name s = .ok (s.callScope f name).id (s.entered f arguments line name) := rfl

theorem leave_apply {id outer : Nat} {rest : List Nat} (h : s.chain = id :: outer :: rest) :
    Evaluator.leave s = .ok () { s with chain := outer :: rest, frames := s.frames.tail } := by
  have hbody : Evaluator.leave s =
      (Engine.popScope >>= fun _ ↦ modify fun s ↦ { s with frames := s.frames.tail } : Engine Unit) s := rfl
  have hpop := Engine.popScope_apply h
  rw [hbody, bind_apply, hpop]
  rfl

theorem keepLocals_apply (scope : Nat) (s : State) : ∃ frames,
    Evaluator.keepLocals scope s = .ok () { s with frames } ∧
      frames.map Frame.shape = s.frames.map Frame.shape ∧ frames.tail = s.frames.tail := by
  refine ⟨_, rfl, ?_⟩
  split
  next hframes _ =>
    rw [hframes]
    exact ⟨rfl, rfl⟩
  next => exact ⟨rfl, rfl⟩

theorem keepLocals_of_frames {frame : Frame} {frames : List Frame} (scope : Nat) (h : s.frames = frame :: frames) :
    Evaluator.keepLocals scope s = .ok () { s with
      frames := (s.scope? scope).elim frame (fun scope ↦ { frame with locals := scope.bindings }) :: frames } := by
  unfold Evaluator.keepLocals
  change EStateM.Result.ok () _ = _
  dsimp only
  rw [h]
  cases s.scope? scope <;> rfl

end Evaluator

/-- What is read from the state alone. -/
def Eval.reading {α : Type} (e : State → Except Fault α) : Eval α := fun m ↦
  match e m.state with
  | .ok a => .ok a m
  | .error f => .error (.fault f) m

theorem Eval.liftM_reading (e : State → Except Fault α) :
    (liftM (get >>= fun s ↦ liftM (e s) : Engine α) : Eval α) = Eval.reading e := by
  funext m
  change Activity.ofEngine (fun s ↦ (liftM (e s) : Engine α) s) m = Eval.reading e m
  unfold Activity.ofEngine Eval.reading
  dsimp only
  cases e m.state <;> rfl

theorem Names.resolve_eq (name : String) : Names.ofScopes.resolve name = Eval.reading (·.resolve name) :=
  Eval.liftM_reading (·.resolve name)

theorem Names.isDeclared_eq (name : String) : Names.ofScopes.isDeclared name = Eval.reading (·.isDeclared name) :=
  Eval.liftM_reading (·.isDeclared name)

theorem Names.functionScope_eq : Names.ofScopes.functionScope = Eval.reading State.functionScope := by
  funext m
  change (liftM m.state.functionScope : Eval Nat) m = Eval.reading _ m
  unfold Eval.reading
  cases m.state.functionScope <;> rfl

theorem Eval.prune_apply {settings : Settings} (m : Machine Journal) :
    Eval.prune settings m = .ok () (if settings.prunes then { m with state := m.state.prune } else m) := by
  unfold Eval.prune
  cases settings.prunes <;> rfl

theorem Activity.ofEngine_apply {α : Type} {x : Engine α} {m : Machine Journal} {a : α} {t : State}
    (h : x m.state = .ok a t) : Activity.ofEngine x m = .ok a { m with state := t } := by
  unfold Activity.ofEngine
  rw [h]

theorem Activity.ofEngine_eq_ok {ω α : Type} {x : Engine α} {m n : Machine ω} {a : α}
    (h : (ofEngine x m : EStateM.Result Stop (Machine ω) α) = .ok a n) : x m.state = .ok a n.state := by
  unfold ofEngine at h
  cases hx : x m.state with
  | ok b s =>
    rw [hx] at h
    cases h
    rfl
  | error f s =>
    rw [hx] at h
    cases h

theorem Activity.journal_of_ofEngine {ω α : Type} {x : Engine α} {m n : Machine ω} {a : α}
    (h : (ofEngine x m : EStateM.Result Stop (Machine ω) α) = .ok a n) : n.journal = m.journal := by
  unfold ofEngine at h
  cases hx : x m.state with
  | ok b s =>
    rw [hx] at h
    cases h
    rfl
  | error f s =>
    rw [hx] at h
    cases h

end Stepwise
