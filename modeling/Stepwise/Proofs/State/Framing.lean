import Stepwise.Proofs.State.Operation
import Stepwise.Proofs.State.Storage
/-!
Calls in progress stand on open scopes, each on the scope that was opened for it.
-/

namespace Stepwise

/-- Calls in progress and open scopes, innermost first: a global scope, and on it a scope of its own for every
call and any blocks. -/
inductive Framing (kind? : Nat → Option ScopeKind) : List Frame → List Nat → Prop
  | global {id : Nat} : kind? id = some .global → Framing kind? [] [id]
  | block {frames : List Frame} {ids : List Nat} {id : Nat} :
      kind? id = some .block → Framing kind? frames ids → Framing kind? frames (id :: ids)
  | call {frames : List Frame} {ids : List Nat} {frame : Frame} {id : Nat} :
      kind? id = some .function → frame.scope = some id → frame.depth = ids.length → Framing kind? frames ids →
      Framing kind? (frame :: frames) (id :: ids)

/-- Where a call stands on the open scopes. -/
def Frame.footing (frame : Frame) : Option Nat × Nat := (frame.scope, frame.depth)

namespace Framing

variable {kind? kind?' : Nat → Option ScopeKind} {frames : List Frame} {ids : List Nat} {id : Nat}

theorem ne_nil (h : Framing kind? frames ids) : ids ≠ [] := by
  cases h <;> exact List.cons_ne_nil _ _

theorem mono (h : Framing kind? frames ids) (hk : ∀ id kind, kind? id = some kind → kind?' id = some kind) :
    Framing kind?' frames ids := by
  induction h with
  | global hid => exact .global (hk _ _ hid)
  | block hid _ ih => exact .block (hk _ _ hid) ih
  | call hid hscope hdepth _ ih => exact .call (hk _ _ hid) hscope hdepth ih

/-- What else is noted down in the frames does not matter. -/
theorem of_footing (h : Framing kind? frames ids) {frames' : List Frame}
    (hf : frames'.map Frame.footing = frames.map Frame.footing) : Framing kind? frames' ids := by
  induction h generalizing frames' with
  | global hid =>
    obtain rfl := List.map_eq_nil_iff.mp hf
    exact .global hid
  | block hid _ ih => exact .block hid (ih hf)
  | call hid hscope hdepth _ ih =>
    obtain ⟨frame', rest, rfl, hframe, hrest⟩ := List.map_eq_cons_iff.mp hf
    have hscope' := (congrArg Prod.fst hframe).trans hscope
    have hdepth' := (congrArg Prod.snd hframe).trans hdepth
    exact .call hid hscope' hdepth' (ih hrest)

theorem of_block (h : Framing kind? frames (id :: ids)) (hid : kind? id = some .block) : Framing kind? frames ids := by
  cases h with
  | global hid' => cases hid.symm.trans hid'
  | block _ h => exact h
  | call hid' => cases hid.symm.trans hid'

theorem exists_kind (h : Framing kind? frames ids) : ∀ id ∈ ids, ∃ kind, kind? id = some kind := by
  induction h with
  | global hid => exact List.forall_mem_singleton.mpr ⟨_, hid⟩
  | block hid _ ih => exact List.forall_mem_cons.mpr ⟨⟨_, hid⟩, ih⟩
  | call hid _ _ _ ih => exact List.forall_mem_cons.mpr ⟨⟨_, hid⟩, ih⟩

theorem exists_depth (h : Framing kind? frames ids) : ∀ frame ∈ frames, ∃ inner id outer,
    ids = inner ++ id :: outer ∧ frame.scope = some id ∧ frame.depth = outer.length := by
  induction h with
  | global hid => exact List.forall_mem_nil _
  | @block frames ids id hid _ ih =>
    intro frame hframe
    obtain ⟨inner, id', outer, rfl, hscope, hdepth⟩ := ih frame hframe
    exact ⟨id :: inner, id', outer, rfl, hscope, hdepth⟩
  | @call frames ids frame id hid hscope hdepth _ ih =>
    refine List.forall_mem_cons.mpr ⟨⟨[], id, ids, rfl, hscope, hdepth⟩, fun frame' hframe ↦ ?_⟩
    obtain ⟨inner, id', outer, rfl, hscope', hdepth'⟩ := ih frame' hframe
    exact ⟨id :: inner, id', outer, rfl, hscope', hdepth'⟩

end Framing

namespace State

variable {s t u : State} {id : Nat} {kind : ScopeKind} {frames : List Frame} {ids : List Nat}

def kind? (s : State) (id : Nat) : Option ScopeKind := (s.scope? id).map (·.kind)

/-- The calls in progress and the open scopes correspond: only the outermost open scope is global, the scopes of
functions are those of the calls in the same order, and each call notes down how many scopes are outside of its
own. -/
structure Framed (s : State) : Prop where
  opened : s.openScopes.map (·.id) = s.chain
  distinct : s.chain.Nodup
  outermost : ∃ inner global, s.openScopes = inner ++ [global] ∧ global.kind = .global ∧
    ∀ scope ∈ inner, scope.kind ≠ .global
  functions : (s.openScopes.filter (·.kind = .function)).map (fun scope ↦ some scope.id) = s.frames.map (·.scope)
  depths : ∀ frame ∈ s.frames, ∃ inner id outer,
    s.chain = inner ++ id :: outer ∧ frame.scope = some id ∧ frame.depth = outer.length
  length : s.chain.length = 1 + s.frames.length + (s.openScopes.filter (·.kind = .block)).length

theorem exists_filterMap_scope? (h : s.kind? id = some kind) (ids : List Nat) : ∃ scope : Scope,
    scope.id = id ∧ scope.kind = kind ∧ (id :: ids).filterMap s.scope? = scope :: ids.filterMap s.scope? := by
  obtain ⟨scope, hscope, hkind⟩ := Option.map_eq_some_iff.mp h
  exact ⟨scope, id_of_scope? hscope, hkind, List.filterMap_cons_some hscope⟩

theorem map_id_of_framing (h : Framing s.kind? frames ids) : (ids.filterMap s.scope?).map (·.id) = ids := by
  have hcons {id : Nat} {kind : ScopeKind} {ids : List Nat} (hid : s.kind? id = some kind)
      (ih : (ids.filterMap s.scope?).map (·.id) = ids) :
      ((id :: ids).filterMap s.scope?).map (·.id) = id :: ids := by
    obtain ⟨scope, rfl, -, heq⟩ := exists_filterMap_scope? hid ids
    rw [heq, List.map_cons, ih]
  induction h with
  | global hid => exact hcons hid rfl
  | block hid _ ih => exact hcons hid ih
  | call hid _ _ _ ih => exact hcons hid ih

theorem exists_outermost (h : Framing s.kind? frames ids) : ∃ inner global,
    ids.filterMap s.scope? = inner ++ [global] ∧ global.kind = .global ∧ ∀ scope ∈ inner, scope.kind ≠ .global := by
  have hcons {id : Nat} {kind : ScopeKind} {ids : List Nat} (hid : s.kind? id = some kind) (hkind : kind ≠ .global)
      (ih : ∃ inner global, ids.filterMap s.scope? = inner ++ [global] ∧ global.kind = .global ∧
        ∀ scope ∈ inner, scope.kind ≠ .global) :
      ∃ inner global, (id :: ids).filterMap s.scope? = inner ++ [global] ∧ global.kind = .global ∧
        ∀ scope ∈ inner, scope.kind ≠ .global := by
    obtain ⟨scope, -, rfl, heq⟩ := exists_filterMap_scope? hid ids
    obtain ⟨inner, global, hids, hglobal, hinner⟩ := ih
    exact ⟨scope :: inner, global, by rw [heq, hids, List.cons_append], hglobal,
      List.forall_mem_cons.mpr ⟨hkind, hinner⟩⟩
  induction h with
  | global hid =>
    obtain ⟨scope, -, hkind, heq⟩ := exists_filterMap_scope? hid []
    exact ⟨[], scope, heq, hkind, List.forall_mem_nil _⟩
  | block hid _ ih => exact hcons hid (by decide) ih
  | call hid _ _ _ ih => exact hcons hid (by decide) ih

theorem functions_of_framing (h : Framing s.kind? frames ids) :
    ((ids.filterMap s.scope?).filter (·.kind = .function)).map (fun scope ↦ some scope.id) =
      frames.map (·.scope) := by
  induction h with
  | global hid =>
    obtain ⟨scope, -, hkind, heq⟩ := exists_filterMap_scope? hid []
    rw [heq]
    simp [hkind]
  | @block frames ids id hid _ ih =>
    obtain ⟨scope, -, hkind, heq⟩ := exists_filterMap_scope? hid ids
    rw [heq]
    simp [hkind, ih]
  | @call frames ids frame id hid hscope _ _ ih =>
    obtain ⟨scope, rfl, hkind, heq⟩ := exists_filterMap_scope? hid ids
    rw [heq]
    simp [hkind, ih, hscope]

theorem length_of_framing (h : Framing s.kind? frames ids) :
    ids.length = 1 + frames.length + ((ids.filterMap s.scope?).filter (·.kind = .block)).length := by
  induction h with
  | global hid =>
    obtain ⟨scope, -, hkind, heq⟩ := exists_filterMap_scope? hid []
    rw [heq]
    simp [hkind]
  | @block frames ids id hid _ ih =>
    obtain ⟨scope, -, hkind, heq⟩ := exists_filterMap_scope? hid ids
    rw [heq, List.length_cons, ih]
    simp [hkind]
    omega
  | @call frames ids frame id hid hscope _ _ ih =>
    obtain ⟨scope, rfl, hkind, heq⟩ := exists_filterMap_scope? hid ids
    rw [heq, List.length_cons, ih]
    simp [hkind]
    omega

theorem framed_of_framing (h : Framing s.kind? s.frames s.chain) (hdistinct : s.chain.Nodup) : s.Framed :=
  ⟨map_id_of_framing h, hdistinct, exists_outermost h, functions_of_framing h, h.exists_depth, length_of_framing h⟩

/-- What a state has to satisfy for the correspondence to go on. -/
structure Founded (s : State) : Prop where
  framing : Framing s.kind? s.frames s.chain
  distinct : s.chain.Nodup
  fresh : ∀ scope ∈ s.scopes, scope.id ≤ s.lastId

/-- The calls in progress and the open scopes are the same, and no scope changed its kind. -/
structure Rests (s t : State) : Prop where
  frames : t.frames = s.frames
  chain : t.chain = s.chain
  kinds : t.scopes.map (fun scope ↦ (scope.id, scope.kind)) = s.scopes.map (fun scope ↦ (scope.id, scope.kind))
  lastId : s.lastId ≤ t.lastId

namespace Rests

theorem of_eq (hframes : t.frames = s.frames) (hchain : t.chain = s.chain) (hscopes : t.scopes = s.scopes)
    (hlastId : s.lastId ≤ t.lastId) : s.Rests t := ⟨hframes, hchain, by rw [hscopes], hlastId⟩

theorem refl (s : State) : s.Rests s := .of_eq rfl rfl rfl (Nat.le_refl _)

theorem trans (h : s.Rests t) (h' : t.Rests u) : s.Rests u :=
  ⟨h'.frames.trans h.frames, h'.chain.trans h.chain, h'.kinds.trans h.kinds, Nat.le_trans h.lastId h'.lastId⟩

theorem kind?_eq (h : s.Rests t) : t.kind? = s.kind? := by
  have hkind (u : State) (id : Nat) : u.kind? id =
      ((u.scopes.map fun scope ↦ (scope.id, scope.kind)).find? (·.1 == id)).map Prod.snd := by
    rw [List.find?_map, Option.map_map]
    rfl
  funext id
  rw [hkind, hkind, h.kinds]

theorem founded (h : s.Rests t) (hs : s.Founded) : t.Founded where
  framing := by
    rw [h.kind?_eq, h.frames, h.chain]
    exact hs.framing
  distinct := h.chain ▸ hs.distinct
  fresh scope hscope := by
    have hmem : (scope.id, scope.kind) ∈ s.scopes.map fun scope ↦ (scope.id, scope.kind) :=
      h.kinds ▸ List.mem_map_of_mem hscope
    obtain ⟨old, hold, heq⟩ := List.mem_map.mp hmem
    have hid : old.id = scope.id := congrArg Prod.fst heq
    exact hid ▸ Nat.le_trans (hs.fresh old hold) h.lastId

end Rests

theorem rests_bind (s : State) (scope : Scope) (name : String) (v : Value) : s.Rests (s.bind scope name v) := by
  rw [bind_eq]
  refine ⟨rfl, rfl, ?_, Nat.le_refl _⟩
  unfold updateScope
  rw [List.map_map]
  refine List.map_congr_left fun old _ ↦ ?_
  rw [Function.comp_apply]
  split <;> rfl

theorem Founded.kind?_openScope (hs : s.Founded) {scope : Scope} (hid : s.lastId < scope.id) {rest : List Nat}
    (hkind : s.kind? id = some kind) : (s.openScope scope rest frames).kind? id = some kind := by
  obtain ⟨old, hold, hkind⟩ := Option.map_eq_some_iff.mp hkind
  have hle : old.id ≤ s.lastId := hs.fresh old (List.mem_of_find?_eq_some hold)
  have hne : id ≠ scope.id := by
    rintro rfl
    rw [id_of_scope? hold] at hle
    omega
  unfold kind?
  rw [scope?_openScope, if_neg hne, hold]
  exact congrArg some hkind

theorem kind?_openScope_self {scope : Scope} {rest : List Nat} :
    (s.openScope scope rest frames).kind? scope.id = some scope.kind := by
  unfold kind?
  rw [scope?_openScope, if_pos rfl]
  rfl

theorem Founded.not_mem (hs : s.Founded) (hid : s.lastId < id) : id ∉ s.chain := by
  intro hmem
  obtain ⟨kind, hkind⟩ := hs.framing.exists_kind id hmem
  obtain ⟨scope, hscope, -⟩ := Option.map_eq_some_iff.mp hkind
  have hle := hs.fresh scope (List.mem_of_find?_eq_some hscope)
  rw [id_of_scope? hscope] at hle
  omega

/-- A scope that was not there before is opened, with a call or without, on scopes that are open. -/
theorem Founded.openScope (hs : s.Founded) {scope : Scope} (hid : s.lastId < scope.id) {rest : List Nat}
    (hrest : rest.Sublist s.chain)
    (hframing : Framing (s.openScope scope rest frames).kind? frames (scope.id :: rest)) :
    (s.openScope scope rest frames).Founded where
  framing := hframing
  distinct := List.nodup_cons.mpr ⟨fun hmem ↦ hs.not_mem hid (hrest.subset hmem), hs.distinct.sublist hrest⟩
  fresh := List.forall_mem_cons.mpr ⟨Nat.le_refl _, fun old hold ↦ Nat.le_trans (hs.fresh old hold) (Nat.le_of_lt hid)⟩

theorem Founded.withFrames (hs : s.Founded) (hf : frames.map Frame.footing = s.frames.map Frame.footing) :
    { s with frames }.Founded := ⟨hs.framing.of_footing hf, hs.distinct, hs.fresh⟩

theorem Founded.framed (hs : s.Founded) : s.Framed := framed_of_framing hs.framing hs.distinct

end State

namespace Engine

open State

variable {α : Type} {x : Engine α} {A : α → Prop}

theorem rests_declare (name : String) (v : Value) (kind : BindingKind) (scope : Option Nat) (s : State) :
    s.Rests (after (declare name v kind scope s)) := by
  rw [declare_apply]
  cases scope.elim s.headId .ok with
  | error f => exact .refl s
  | ok id =>
    dsimp only
    cases s.scope? id with
    | none => exact .refl s
    | some scope => exact (s.rests_bind scope name v).trans (.of_eq rfl rfl rfl (Nat.le_refl _))

theorem rests_assign (name : String) (v : Value) (s : State) : s.Rests (after (assign name v s)) := by
  rw [assign_apply]
  cases s.binder? name with
  | error f => exact .refl s
  | ok scope =>
    cases scope with
    | none => exact rests_declare name v .blockScoped none s
    | some scope => exact s.rests_bind scope name v

end Engine

theorem Evaluator.footing_keepLocals (scope : Nat) (s : State) : ∃ frames,
    Evaluator.keepLocals scope s = .ok () { s with frames } ∧
      frames.map Frame.footing = s.frames.map Frame.footing ∧ frames.tail = s.frames.tail := by
  refine ⟨_, rfl, ?_⟩
  split
  next hframes _ =>
    rw [hframes]
    exact ⟨rfl, rfl⟩
  next => exact ⟨rfl, rfl⟩

end Stepwise
