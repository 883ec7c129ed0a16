import Stepwise.State.Reachability
import Stepwise.State.Scoping
import Stepwise.Trace.Export
import Stepwise.Proofs.Value.Recasting
/-!
States do not look into functions. Whatever the bodies of functions are replaced by, names are found in the same
scopes, the same scopes are needed, and the state is shown the same.
-/

namespace Stepwise

variable (φ : Body → Body)

def Frame.recast (f : Frame) : Frame :=
  { f with arguments := f.arguments.map (Value.recast φ), locals := f.locals.mapValues (Value.recast φ) }

def Scope.recast (s : Scope) : Scope := { s with bindings := s.bindings.mapValues (Value.recast φ) }

theorem Scope.get?_recast (s : Scope) (name : String) :
    (s.recast φ).bindings.get? name = (s.bindings.get? name).map (Value.recast φ) := s.bindings.get?_mapValues _ name

def Reaction.recast : Reaction → Reaction
  | handle handler derived => handle (handler.map (Function.recast φ)) derived
  | r => r

def Promise.recast (p : Promise) : Promise :=
  { p with
    value? := p.value?.map (Value.recast φ)
    reactions := p.reactions.map (Reaction.recast φ)
    slots := p.slots.map (Value.recast φ) }

theorem Promise.value?_recast (p : Promise) : (p.recast φ).value? = p.value?.map (Value.recast φ) := rfl

def Job.recast : Job → Job
  | call f arguments => call (f.recast φ) (arguments.map (Value.recast φ))
  | fetched address url => fetched address url
  | react reaction value => react (reaction.recast φ) (value.recast φ)

def Task.recast (t : Task) : Task := { t with job := t.job.recast φ }

def EventLoop.recast (l : EventLoop) : EventLoop :=
  { l with
    microtasks := l.microtasks.map (Task.recast φ)
    macrotasks := l.macrotasks.map (Task.recast φ)
    current := l.current.map (Task.recast φ) }

theorem EventLoop.isIdle_recast (l : EventLoop) : (l.recast φ).isIdle = l.isIdle := by
  unfold isIdle recast
  rw [List.isEmpty_map, List.isEmpty_map]

def VariableRecord.recast (v : VariableRecord) : VariableRecord := { v with value := v.value.recast φ }

def Message.recast (m : Message) : Message := { m with content := m.content.map (Value.recast φ) }

/-- The same state, the functions in it with other bodies. -/
def State.recast (s : State) : State :=
  { s with
    frames := s.frames.map (Frame.recast φ)
    scopes := s.scopes.map (Scope.recast φ)
    heap := s.heap.recast φ
    promises := s.promises.mapValues (Promise.recast φ)
    declared := s.declared.map (VariableRecord.recast φ)
    loop := s.loop.recast φ
    console := s.console.map (Message.recast φ) }

namespace State

variable (s : State) (v : Value)

theorem chain_recast : (s.recast φ).chain = s.chain := rfl

theorem globalId?_recast : (s.recast φ).globalId? = s.globalId? := rfl

theorem headId_recast : (s.recast φ).headId = s.headId := rfl

theorem scope?_recast (id : Nat) : (s.recast φ).scope? id = (s.scope? id).map (Scope.recast φ) := List.find?_map ..

theorem filterMap_scope?_recast (ids : List Nat) :
    ids.filterMap (s.recast φ).scope? = (ids.filterMap s.scope?).map (Scope.recast φ) := by
  rw [List.map_filterMap]
  exact congrArg (List.filterMap · ids) (funext (s.scope?_recast φ))

theorem openScopes_recast : (s.recast φ).openScopes = s.openScopes.map (Scope.recast φ) :=
  s.filterMap_scope?_recast φ s.chain

theorem capturedScopes_recast : (s.recast φ).capturedScopes = s.capturedScopes.map (Scope.recast φ) :=
  s.filterMap_scope?_recast φ s.captured

theorem recast_updateScope {f g : Scope → Scope} (id : Nat) (hfg : ∀ scope, (f scope).recast φ = g (scope.recast φ)) :
    (s.updateScope id f).recast φ = (s.recast φ).updateScope id g := by
  have hscopes (scopes : List Scope) :
      (scopes.map fun scope ↦ if scope.id = id then f scope else scope).map (Scope.recast φ) =
        (scopes.map (Scope.recast φ)).map fun scope ↦ if scope.id = id then g scope else scope := by
    rw [List.map_map, List.map_map]
    refine List.map_congr_left fun scope _ ↦ ?_
    rw [Function.comp_apply, Function.comp_apply, apply_ite (Scope.recast φ), hfg]
    rfl
  unfold updateScope recast
  rw [hscopes]

theorem recast_retain : (s.retain v).recast φ = (s.recast φ).retain (v.recast φ) := by
  unfold retain recast
  rw [Heap.recast_retain]

theorem recast_release : (s.release v).recast φ = (s.recast φ).release (v.recast φ) := by
  unfold release recast
  rw [Heap.recast_release]

theorem recast_bind (scope : Scope) (name : String) :
    (s.bind scope name v).recast φ = (s.recast φ).bind (scope.recast φ) name (v.recast φ) := by
  let put (scope : Scope) : Scope := { scope with bindings := scope.bindings.set name (v.recast φ) }
  have hset (scope : Scope) : Scope.recast φ { scope with bindings := scope.bindings.set name v } =
      put (scope.recast φ) :=
    congrArg (fun bindings ↦ { scope.recast φ with bindings }) (scope.bindings.mapValues_set _ name v)
  unfold bind
  rw [recast_retain, recast_updateScope φ _ _ hset, Scope.get?_recast]
  cases scope.bindings.get? name with
  | none => rfl
  | some old => exact congrArg (fun s ↦ (updateScope s _ _).retain _) (s.recast_release φ old)

theorem recast_recordVariable (name : String) (kind : BindingKind) (scope : Nat) :
    (s.recordVariable name v kind scope).recast φ = (s.recast φ).recordVariable name (v.recast φ) kind scope := by
  unfold recordVariable recast
  rw [List.map_append]
  rfl

@[simp] theorem visibleIds_recast : (s.recast φ).visibleIds = s.visibleIds := by
  have hframes : (s.recast φ).frames = s.frames.map (Frame.recast φ) := rfl
  unfold visibleIds
  rw [hframes]
  cases s.frames <;> rfl

theorem visible_recast : (s.recast φ).visible = s.visible.map (List.map (Scope.recast φ)) := by
  unfold visible
  rw [visibleIds_recast]
  cases s.visibleIds with
  | error f => rfl
  | ok ids => exact congrArg Except.ok (s.filterMap_scope?_recast φ ids)

theorem binder?_recast (name : String) :
    (s.recast φ).binder? name = (s.binder? name).map (Option.map (Scope.recast φ)) := by
  unfold binder?
  rw [visible_recast]
  cases s.visible with
  | error f => rfl
  | ok scopes =>
    refine congrArg Except.ok ?_
    rw [List.find?_map]
    refine congrArg (fun p ↦ Option.map _ (List.find? p scopes)) (funext fun scope ↦ ?_)
    exact scope.bindings.contains_mapValues _ name

theorem isDeclared_recast (name : String) : (s.recast φ).isDeclared name = s.isDeclared name := by
  unfold isDeclared
  rw [binder?_recast]
  cases s.binder? name with
  | error f => rfl
  | ok scope? => exact congrArg Except.ok Option.isSome_map

theorem resolve_recast (name : String) : (s.recast φ).resolve name = (s.resolve name).map (Value.recast φ) := by
  unfold resolve
  rw [binder?_recast]
  cases s.binder? name with
  | error f => rfl
  | ok scope? =>
    cases scope? with
    | none => rfl
    | some scope =>
      simp only [Bind.bind, Except.map, Except.bind, Option.map_some, Option.bind_some, Scope.get?_recast]
      cases scope.bindings.get? name <;> rfl

theorem functionScope_recast : (s.recast φ).functionScope = s.functionScope := by
  unfold functionScope
  rw [visible_recast]
  cases s.visible with
  | error f => rfl
  | ok scopes =>
    have hfind : (scopes.map (Scope.recast φ)).find? (fun scope ↦ scope.kind = .function || scope.kind = .global) =
        (scopes.find? fun scope ↦ scope.kind = .function || scope.kind = .global).map (Scope.recast φ) :=
      List.find?_map ..
    simp only [Bind.bind, Except.map, Except.bind, hfind]
    cases scopes.find? (fun scope ↦ scope.kind = .function || scope.kind = .global) <;> rfl

end State

@[simp] theorem Value.closures_recast (vs : List Value) :
    Value.closures (vs.map (Value.recast φ)) = Value.closures vs := by
  unfold closures
  rw [List.flatMap_map]
  refine congrArg (List.flatMap · vs) (funext fun v ↦ ?_)
  cases v <;> rfl

theorem Reaction.values_recast (r : Reaction) : (r.recast φ).values = r.values.map (Value.recast φ) := by
  cases r with
  | handle handler derived => cases handler <;> rfl
  | _ => rfl

theorem Job.values_recast (j : Job) : (j.recast φ).values = j.values.map (Value.recast φ) := by
  cases j with
  | call f arguments => rfl
  | fetched address url => rfl
  | react reaction v => exact congrArg (v.recast φ :: ·) (reaction.values_recast φ)

namespace State

variable (s : State)

theorem roots_recast : (s.recast φ).roots = s.roots.map (Value.recast φ) := by
  unfold roots tasks
  rw [openScopes_recast]
  simp only [recast, EventLoop.recast, Heap.recast, Cell.recast, Scope.recast, Frame.recast, Promise.recast,
    Task.recast, List.map_append, List.flatMap_map, List.map_flatMap, Dict.values_mapValues, List.flatMap_append,
    Option.toList_map, Reaction.values_recast, Job.values_recast]

theorem closuresIn_recast (live : List Nat) : (s.recast φ).closuresIn live = s.closuresIn live := by
  have hvalues (scopes : List Scope) : (scopes.map (Scope.recast φ)).flatMap (·.bindings.values) =
      (scopes.flatMap (·.bindings.values)).map (Value.recast φ) := by
    simp only [List.flatMap_map, List.map_flatMap, Scope.recast, Dict.values_mapValues]
  unfold closuresIn
  rw [capturedScopes_recast, List.filter_map, hvalues, Value.closures_recast]
  rfl

theorem needed_recast : (s.recast φ).needed = s.needed := by
  have hreach (n : Nat) (live : List Nat) : (s.recast φ).reach n live = s.reach n live := by
    induction n generalizing live with
    | zero => rfl
    | succ n ih => simp only [reach, closuresIn_recast, ih]
  unfold needed
  rw [hreach, roots_recast, Value.closures_recast]
  simp only [recast, Frame.recast, List.flatMap_map]

theorem recast_prune : s.prune.recast φ = (s.recast φ).prune := by
  unfold prune
  rw [needed_recast]
  rfl

end State

section Shown

variable (heap : Heap) (v : Value)

@[simp] theorem Value.toExport_recast : (v.recast φ).toExport = v.toExport := by cases v <;> rfl

theorem Json.values_recast (vs : List Value) : values (vs.map (Value.recast φ)) = values vs := by
  unfold values
  simp only [List.map_map, Function.comp_def, Value.toExport_recast]

theorem Json.bindings_recast (d : Dict String Value) : bindings (d.mapValues (Value.recast φ)) = bindings d := by
  unfold bindings Dict.mapValues
  simp only [List.map_map, Function.comp_def, Value.toExport_recast]

theorem Frame.toJson_recast (f : Frame) : (f.recast φ).toJson = f.toJson := by
  unfold toJson recast
  rw [Json.values_recast, Json.bindings_recast]

theorem Scope.toJson_recast (s : Scope) : (s.recast φ).toJson = s.toJson := by
  unfold toJson recast
  rw [Json.bindings_recast]

theorem Cell.toJson_recast (a : Address) (c : Cell) : (c.recast φ).toJson a = c.toJson a := by
  unfold toJson recast Dict.mapValues
  simp only [Json.values_recast, List.map_map, Function.comp_def, Value.toExport_recast]

theorem Promise.toJson_recast (a : Address) (p : Promise) : (p.recast φ).toJson a = p.toJson a := by
  have hvalue : ((p.value?.map (Value.recast φ)).getD .undefined).toExport = (p.value?.getD .undefined).toExport := by
    cases p.value? with
    | none => rfl
    | some v => exact v.toExport_recast φ
  unfold toJson recast
  simp only [hvalue, Option.isSome_map, List.length_map]

theorem Task.toJson_recast (t : Task) : (t.recast φ).toJson = t.toJson := rfl

theorem EventLoop.toJson_recast (l : EventLoop) : (l.recast φ).toJson = l.toJson := by
  unfold toJson recast
  simp only [List.map_map, Option.map_map, Function.comp_def, Task.toJson_recast]

theorem VariableRecord.toJson_recast (v : VariableRecord) : (v.recast φ).toJson = v.toJson := by
  unfold toJson recast
  simp only [Value.toExport_recast, Value.typeOf_recast]

theorem Message.toJson_recast (m : Message) : (m.recast φ).toJson = m.toJson := by
  unfold toJson recast
  rw [Json.values_recast]

theorem State.toJson_recast (s : State) : (s.recast φ).toJson = s.toJson := by
  have hid (scope : Scope) : (scope.recast φ).id = scope.id := rfl
  unfold toJson members
  rw [openScopes_recast, capturedScopes_recast]
  simp only [recast, Heap.recast, Dict.mapValues, List.map_map, ← List.map_reverse, Function.comp_def,
    Frame.toJson_recast, Scope.toJson_recast, Cell.toJson_recast, Promise.toJson_recast, VariableRecord.toJson_recast,
    EventLoop.toJson_recast, Message.toJson_recast, hid]

@[simp] theorem Value.isShown_recast : (v.recast φ).isShown = v.isShown := by cases v <;> rfl

theorem Value.toJsonWithin_recast (depth : Nat) (path : List Address) :
    (v.recast φ).toJsonWithin (heap.recast φ) depth path = v.toJsonWithin heap depth path := by
  induction depth generalizing path v with
  | zero => rfl
  | succ depth ih =>
    cases v with
    | object a =>
      simp only [recast, toJsonWithin, Heap.get?_recast]
      cases heap.get? a with
      | none => rfl
      | some c =>
        simp only [Option.map_some, Cell.recast, Dict.mapValues, List.mapM_map, List.filter_map, Function.comp_def, ih,
          isShown_recast]
    | _ => rfl

theorem Value.structureText_recast : (v.recast φ).structureText (heap.recast φ) = v.structureText heap := by
  have hsize : (heap.recast φ).size = heap.size := Dict.size_mapValues _ heap
  unfold structureText toJson?
  rw [hsize, toJsonWithin_recast]

theorem Value.toConsole_recast : (v.recast φ).toConsole (heap.recast φ) = v.toConsole heap := by
  have htext := v.structureText_recast φ heap
  cases v with
  | object a => exact htext
  | _ => rfl

theorem Message.toText_recast (m : Message) : (m.recast φ).toText (heap.recast φ) = m.toText heap := by
  unfold toText recast
  simp only [List.map_map, Function.comp_def, Value.toConsole_recast]

end Shown

end Stepwise
