import Stepwise.Run.Evaluator
import Stepwise.Proofs.Outcome
import Stepwise.Proofs.State.Operation
import Stepwise.Proofs.State.Recasting
/-!
Operations on states do not look into functions. What an operation makes of a state it makes of the same state with
other function bodies, if its operands have these bodies too.
-/

namespace Stepwise

theorem EventLoop.recast_enqueue (φ : Body → Body) (loop : EventLoop) (t : Task) :
    (loop.enqueue t).recast φ = (loop.recast φ).enqueue (t.recast φ) := by
  have hkind : (t.recast φ).kind = t.kind := rfl
  unfold enqueue
  rw [hkind]
  cases t.kind <;> simp [recast]

namespace Engine

/-- What an operation makes of a state, another one makes of the state with other function bodies. -/
abbrev Recasts (φ : Body → Body) {α β : Type} (r : α → β) : Engine α → Engine β → Prop := Mirrors (State.recast φ) id r

variable {φ : Body → Body} {α β : Type}

theorem recasts_lift {r : α → β} {x : Except Fault α} {y : Except Fault β} (h : y = x.map r) :
    Recasts φ r (liftM x) (liftM y) := by
  subst h
  intro s
  cases x <;> rfl

theorem recasts_lift_id {x y : Except Fault α} (h : y = x) : Recasts φ id (liftM x) (liftM y) :=
  recasts_lift (h.trans (by cases x <;> rfl))

section Storage

variable (v : Value)

theorem recasts_freshId : Recasts φ id freshId freshId := fun _ ↦ rfl

theorem recasts_freshIdentity : Recasts φ id freshIdentity freshIdentity := fun _ ↦ rfl

theorem recasts_newArray (vs : List Value) :
    Recasts φ (Value.recast φ) (newArray vs) (newArray (vs.map (Value.recast φ))) :=
  recasts_freshId.bind fun id ↦ .bind (.modify fun s ↦ congrArg (fun heap ↦ { s.recast φ with heap })
    (s.heap.recast_store φ (.array id) _ vs)) fun _ ↦ .pure rfl

theorem recasts_newObject (fields : Dict Text Value) :
    Recasts φ (Value.recast φ) (newObject fields) (newObject (fields.mapValues (Value.recast φ))) := by
  refine recasts_freshId.bind fun id ↦ .bind (.modify fun s ↦ ?_) fun _ ↦ .pure rfl
  rw [Dict.values_mapValues]
  exact congrArg (fun heap ↦ { s.recast φ with heap }) (s.heap.recast_store φ (.object id) _ fields.values)

theorem recasts_say (level : Level) (vs : List Value) :
    Recasts φ (Message.recast φ) (say level vs) (say level (vs.map (Value.recast φ))) := by
  refine recasts_freshId.bind fun id ↦ .bind (.modify fun s ↦ ?_) fun _ ↦ .pure rfl
  exact congrArg (fun console ↦ { s.recast φ with console }) List.map_append

theorem recasts_setProperty (receiver : Value) (key : Text) :
    Recasts φ id (setProperty receiver key v) (setProperty (receiver.recast φ) key (v.recast φ)) :=
  .bind .get fun s ↦ .bind (recasts_lift (s.heap.setProperty_recast φ v receiver key)) fun _ ↦ .modify fun _ ↦ rfl

end Storage

section Scoping

variable (name : String) (v : Value)

theorem recasts_resolve : Recasts φ (Value.recast φ) (resolve name) (resolve name) :=
  .bind .get fun s ↦ recasts_lift (s.resolve_recast φ name)

theorem recasts_isDeclared : Recasts φ id (isDeclared name) (isDeclared name) :=
  .bind .get fun s ↦ recasts_lift_id (s.isDeclared_recast φ name)

theorem recasts_pushScope (kind : ScopeKind) (parent : Option Nat) :
    Recasts φ id (pushScope kind name parent) (pushScope kind name parent) :=
  .bind .get fun _ ↦ recasts_freshId.bind fun _ ↦ .bind (.modify fun _ ↦ rfl) fun _ ↦ .pure rfl

theorem recasts_popScope : Recasts φ id popScope popScope := by
  refine .bind .get fun s ↦ ?_
  simp only [State.chain_recast]
  rcases s.chain with _ | ⟨id, _ | ⟨outer, rest⟩⟩
  · exact .throw rfl
  · exact .throw rfl
  · exact .bind (.modify fun _ ↦ rfl) fun _ ↦ .pure rfl

theorem recasts_renewScope : Recasts φ id renewScope renewScope := by
  refine recasts_popScope.bind fun id ↦ .bind .get fun s ↦ ?_
  simp only [State.scope?_recast, id_eq]
  cases s.scope? id with
  | none => exact .throw rfl
  | some old =>
    refine (recasts_pushScope old.name old.kind old.parent).bind fun fresh ↦ .bind (.modify fun s ↦ ?_) fun _ ↦
      .pure rfl
    exact s.recast_updateScope φ fresh fun _ ↦ rfl

theorem recasts_declare (kind : BindingKind) (scope : Option Nat) :
    Recasts φ id (declare name v kind scope) (declare name (v.recast φ) kind scope) := by
  intro s
  rw [declare_apply, declare_apply, State.headId_recast]
  cases scope.elim s.headId .ok with
  | error f => rfl
  | ok id' =>
    simp only [State.scope?_recast]
    cases s.scope? id' with
    | none => rfl
    | some scope =>
      simp only [Option.map_some, ← State.recast_bind, ← State.recast_recordVariable]
      rfl

theorem recasts_assign : Recasts φ id (assign name v) (assign name (v.recast φ)) := by
  refine .bind .get fun s ↦ .bind (recasts_lift (s.binder?_recast φ name)) fun scope? ↦ ?_
  cases scope? with
  | none => exact recasts_declare name v _ _
  | some scope => exact .set (s.recast_bind φ v scope name).symm

theorem recasts_capture : Recasts φ id capture capture := by
  refine .bind .get fun s ↦ ?_
  simp only [State.globalId?_recast, State.visibleIds_recast]
  cases s.globalId? with
  | none => exact .throw rfl
  | some globalId => exact (recasts_lift_id rfl).bind fun ids ↦ .bind (.set rfl) fun _ ↦ .pure rfl

end Scoping

theorem recasts_prune : Recasts φ id prune prune := by
  intro s
  have hlength : (s.recast φ).prune.captured.length = s.prune.captured.length := by rw [← State.recast_prune]; rfl
  change EStateM.Result.ok ((s.recast φ).captured.length - (s.recast φ).prune.captured.length) (s.recast φ).prune = _
  rw [hlength, ← State.recast_prune]
  rfl

section EventLoop

variable (v : Value) (address : Address)

theorem recasts_modifyLoop {f g : EventLoop → EventLoop} (h : ∀ loop, (f loop).recast φ = g (loop.recast φ)) :
    Recasts φ id (modifyLoop f) (modifyLoop g) :=
  .modify fun s ↦ congrArg (fun loop ↦ { s.recast φ with loop }) (h s.loop)

theorem recasts_schedule (kind : TaskKind) (description : Text) (job : Job) (line : Int) :
    Recasts φ (Task.recast φ) (schedule kind description job line) (schedule kind description (job.recast φ) line) := by
  refine recasts_freshId.bind fun id ↦ .bind .get fun s ↦ .bind (recasts_modifyLoop fun loop ↦ ?_) fun _ ↦ .pure rfl
  exact congrArg (fun loop : EventLoop ↦ { loop with scheduled := s.loop.scheduled + 1 }) (loop.recast_enqueue φ _)

theorem recasts_createPromise : Recasts φ id createPromise createPromise :=
  recasts_freshId.bind fun id ↦ .bind (.modify fun s ↦ congrArg (fun promises ↦ { s.recast φ with promises })
    (s.promises.mapValues_set _ (.promise id) {})) fun _ ↦ .pure rfl

theorem recasts_promise : Recasts φ (Promise.recast φ) (promise address) (promise address) := by
  refine .bind .get fun s ↦ ?_
  have hget : (s.recast φ).promises.get? address = (s.promises.get? address).map (Promise.recast φ) :=
    s.promises.get?_mapValues _ address
  simp only [hget]
  cases s.promises.get? address with
  | none => exact .throw rfl
  | some p => exact .pure rfl

theorem recasts_modifyPromise {f g : Promise → Promise} (h : ∀ p, (f p).recast φ = g (p.recast φ)) :
    Recasts φ id (modifyPromise address f) (modifyPromise address g) :=
  .modify fun s ↦ congrArg (fun promises ↦ { s.recast φ with promises }) (s.promises.mapValues_modify _ address h)

theorem recasts_scheduleReaction (reaction : Reaction) :
    Recasts φ id (scheduleReaction v reaction) (scheduleReaction (v.recast φ) (reaction.recast φ)) := by
  have hdescription : (reaction.recast φ).description = reaction.description := by cases reaction <;> rfl
  unfold scheduleReaction
  rw [hdescription]
  exact (recasts_schedule _ _ (.react reaction v) 0).bind fun _ ↦ .pure rfl

theorem recasts_await (reaction : Reaction) :
    Recasts φ id (modifyPromise address fun p ↦ { p with reactions := p.reactions ++ [reaction] })
      (modifyPromise address fun p ↦ { p with reactions := p.reactions ++ [reaction.recast φ] }) :=
  recasts_modifyPromise address fun p ↦ congrArg (fun reactions ↦ { p.recast φ with reactions }) List.map_append

theorem recasts_settle : Recasts φ id (settle address v) (settle address (v.recast φ)) := by
  refine (recasts_promise address).bind fun p ↦ ?_
  have hpending : (p.recast φ).value?.isNone = p.value?.isNone := Option.isNone_map
  simp only [hpending]
  refine .ite ?_ (.pure rfl)
  refine .bind (recasts_modifyPromise address fun _ ↦ rfl) fun _ ↦ ?_
  refine .bind (.modify fun s ↦ s.recast_retain φ v) fun _ ↦ ?_
  exact .forM (recasts_scheduleReaction v) p.reactions

theorem recasts_subscribe (reaction : Reaction) :
    Recasts φ id (subscribe address reaction) (subscribe address (reaction.recast φ)) := by
  refine (recasts_promise address).bind fun p ↦ ?_
  simp only [Promise.value?_recast]
  cases p.value? with
  | some v => exact recasts_scheduleReaction v reaction
  | none => exact recasts_await address reaction

theorem recasts_chain (handler : Option Function) :
    Recasts φ id (chain address handler) (chain address (handler.map (Function.recast φ))) :=
  recasts_createPromise.bind fun derived ↦ (recasts_subscribe address (.handle handler derived)).bind fun _ ↦ .pure rfl

theorem recasts_fillSlot (index : Nat) :
    Recasts φ id (fillSlot address index v) (fillSlot address index (v.recast φ)) :=
  recasts_modifyPromise address fun p ↦
    congrArg (fun slots ↦ { p.recast φ with slots, remaining := p.remaining - 1 }) List.map_set

theorem recasts_settleIfFull : Recasts φ id (settleIfFull address) (settleIfFull address) := by
  refine (recasts_promise address).bind fun p ↦ .ite ?_ (.pure rfl)
  exact (recasts_newArray p.slots).bind fun v ↦ recasts_settle v address

theorem recasts_collectFrom (vs : List Value) (index : Nat) :
    Recasts φ id (collectFrom address index vs) (collectFrom address index (vs.map (Value.recast φ))) := by
  induction vs generalizing index with
  | nil => exact .pure rfl
  | cons v vs ih =>
    cases v with
    | promise member =>
      refine (recasts_promise member).bind fun p ↦ ?_
      simp only [Promise.value?_recast]
      cases p.value? with
      | some v => exact (recasts_fillSlot v address index).bind fun _ ↦ ih (index + 1)
      | none => exact (recasts_await member (.collect address index)).bind fun _ ↦ ih (index + 1)
    | _ => exact (recasts_fillSlot _ address index).bind fun _ ↦ ih (index + 1)

theorem recasts_all (vs : List Value) : Recasts φ id (all vs) (all (vs.map (Value.recast φ))) := by
  refine recasts_createPromise.bind fun aggregate ↦ .bind (recasts_modifyPromise aggregate fun p ↦ ?_) fun _ ↦ ?_
  · rw [List.length_map]
    exact congrArg (fun slots ↦ { p.recast φ with slots, remaining := vs.length }) List.map_replicate
  · exact (recasts_collectFrom aggregate vs 0).bind fun _ ↦ (recasts_settleIfFull aggregate).bind fun _ ↦ .pure rfl

theorem recasts_raceFrom (vs : List Value) :
    Recasts φ id (raceFrom address vs) (raceFrom address (vs.map (Value.recast φ))) := by
  induction vs with
  | nil => exact .pure rfl
  | cons v vs ih =>
    cases v with
    | promise member =>
      refine (recasts_promise member).bind fun p ↦ ?_
      simp only [Promise.value?_recast]
      cases p.value? with
      | some v => exact (recasts_settle v address).bind fun _ ↦ ih
      | none => exact (recasts_await member (.race address)).bind fun _ ↦ ih
    | _ => exact (recasts_settle _ address).bind fun _ ↦ ih

theorem recasts_race (vs : List Value) : Recasts φ id (race vs) (race (vs.map (Value.recast φ))) :=
  recasts_createPromise.bind fun aggregate ↦ (recasts_raceFrom aggregate vs).bind fun _ ↦ .pure rfl

theorem recasts_fetch (url : Text) (line : Int) : Recasts φ id (fetch url line) (fetch url line) :=
  recasts_createPromise.bind fun address ↦
    (recasts_schedule .macrotask _ (.fetched address url) line).bind fun _ ↦ .pure rfl

theorem recasts_completeFetch (url : Text) : Recasts φ id (completeFetch address url) (completeFetch address url) :=
  (recasts_newObject _).bind fun v ↦ recasts_settle v address

theorem recasts_gather (index : Nat) : Recasts φ id (gather address index v) (gather address index (v.recast φ)) :=
  (recasts_promise address).bind fun _ ↦ (recasts_fillSlot v address index).bind fun _ ↦ recasts_settleIfFull address

theorem recasts_conclude : Recasts φ id (conclude address v) (conclude address (v.recast φ)) := by
  cases v with
  | promise p => exact recasts_subscribe p (.adopt address)
  | _ => exact recasts_settle _ address

end EventLoop

end Engine

namespace Evaluator

variable {φ : Body → Body}

theorem recasts_enter (f : Function) (arguments : List Value) (line : Int) (name : String) : Engine.Recasts φ id
    (enter f arguments line name) (enter (f.recast φ) (arguments.map (Value.recast φ)) line name) := by
  refine .bind .get fun s ↦ Engine.recasts_freshId.bind fun id ↦ .bind (.modify fun _ ↦ rfl) fun _ ↦ ?_
  refine (Engine.recasts_pushScope name .function f.closure.head?).bind fun scope ↦ .bind (.modify fun s ↦ ?_) fun _ ↦
    .pure rfl
  obtain ⟨_ | ⟨frame, frames⟩⟩ := s <;> rfl

theorem recasts_leave : Engine.Recasts φ id leave leave :=
  Engine.recasts_popScope.bind fun _ ↦ .modify fun s ↦ congrArg (fun frames ↦ { s.recast φ with frames }) List.map_tail

theorem recasts_keepLocals (scope : Nat) : Engine.Recasts φ id (keepLocals scope) (keepLocals scope) := by
  refine .modify fun s ↦ ?_
  rw [State.scope?_recast]
  refine congrArg (fun frames ↦ { s.recast φ with frames }) ?_
  have hframes : (s.recast φ).frames = s.frames.map (Frame.recast φ) := rfl
  rw [hframes]
  cases s.frames <;> cases s.scope? scope <;> rfl

end Evaluator

end Stepwise
