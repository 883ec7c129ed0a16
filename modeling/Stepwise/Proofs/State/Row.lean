import Stepwise.Proofs.Assignment
/-!
Rows of declarations. Names that are declared in one scope one after the other change the bindings of that scope and
nothing that a look-up depends on besides; of several declarations of a name the last one counts.
-/

namespace Stepwise

theorem Heap.Recounts.trans {a b c : Heap} (h : a.Recounts b) (h' : b.Recounts c) : a.Recounts c :=
  ⟨h'.keys.trans h.keys, fun address ↦ (h'.content address).trans (h.content address)⟩

namespace State

variable {s t u : State} {kind : BindingKind} {id : Nat} {row row' : List (String × Value)} {scope : Scope}

/-- The scope that a declaration goes to. -/
def home (s : State) (kind : BindingKind) : Except Fault Nat :=
  if kind = .functionScoped then s.functionScope else s.headId

/-- A scope with a row of names bound in it, if it is the scope in question. -/
def withRow (id : Nat) (row : List (String × Value)) (scope : Scope) : Scope :=
  if scope.id = id then { scope with bindings := scope.bindings.setAll row } else scope

/-- A row of names is declared in a scope. Counts of references aside nothing else is different. -/
structure Declares (s : State) (kind : BindingKind) (id : Nat) (row : List (String × Value)) (t : State) : Prop where
  state : t = { s with
    heap := t.heap
    scopes := s.scopes.map (withRow id row)
    declared := s.declared ++ row.map fun e ↦
      { name := e.1, value := e.2, scope := id, isConstant := kind = .constant, isBlockScoped := kind = .blockScoped } }
  heap : s.heap.Recounts t.heap

theorem id_withRow (id : Nat) (row : List (String × Value)) (scope : Scope) : (withRow id row scope).id = scope.id := by
  unfold withRow
  split <;> rfl

theorem kind_withRow (id : Nat) (row : List (String × Value)) (scope : Scope) :
    (withRow id row scope).kind = scope.kind := by
  unfold withRow
  split <;> rfl

theorem withRow_nil (id : Nat) (scope : Scope) : withRow id [] scope = scope := by
  unfold withRow
  split <;> rfl

theorem withRow_append (scope : Scope) : withRow id (row ++ row') scope = withRow id row' (withRow id row scope) := by
  unfold withRow
  by_cases hid : scope.id = id
  · rw [if_pos hid, if_pos hid, if_pos hid, Dict.setAll_append]
  · rw [if_neg hid, if_neg hid, if_neg hid]

theorem declares_nil (s : State) (kind : BindingKind) (id : Nat) : s.Declares kind id [] s := by
  have hscopes : s.scopes.map (withRow id []) = s.scopes := by
    rw [funext (withRow_nil id)]
    exact List.map_id s.scopes
  refine ⟨?_, .refl s.heap⟩
  rw [hscopes, List.map_nil, List.append_nil]

theorem declares_bind (hscope : s.scope? id = some scope) (kind : BindingKind) (name : String) (v : Value) :
    s.Declares kind id [(name, v)] ((s.bind scope name v).recordVariable name v kind id) := by
  obtain rfl := id_of_scope? hscope
  refine ⟨?_, s.recounts_bind scope name v⟩
  rw [bind_eq]
  rfl

namespace Declares

theorem append (h : s.Declares kind id row t) (h' : t.Declares kind id row' u) :
    s.Declares kind id (row ++ row') u := by
  refine ⟨?_, h.heap.trans h'.heap⟩
  have hu := h'.state
  have ht := h.state
  generalize t.heap = heap at ht
  generalize u.heap = heap' at hu ⊢
  subst ht
  rw [hu, List.map_append, ← List.append_assoc, List.map_map]
  congr 2
  exact funext fun scope ↦ (withRow_append scope).symm

variable (h : s.Declares kind id row t)
include h

theorem frames_eq : t.frames = s.frames := by rw [h.state]

theorem headId_eq : t.headId = s.headId := by
  rw [h.state]
  rfl

theorem scope?_eq (i : Nat) : t.scope? i = (s.scope? i).map (withRow id row) := by
  have hfind : (fun scope : Scope ↦ scope.id == i) ∘ withRow id row = fun scope : Scope ↦ scope.id == i :=
    funext fun scope ↦ by
      rw [Function.comp_apply, id_withRow]
  rw [h.state]
  change (s.scopes.map (withRow id row)).find? (·.id == i) = _
  rw [List.find?_map, hfind]
  rfl

theorem visible_eq : t.visible = s.visible.map (List.map (withRow id row)) := by
  have hids : t.visibleIds = s.visibleIds := by
    rw [h.state]
    rfl
  unfold visible
  rw [hids]
  cases s.visibleIds with
  | error f => rfl
  | ok ids =>
    have hscopes : ids.filterMap t.scope? = (ids.filterMap s.scope?).map (withRow id row) := by
      rw [List.map_filterMap]
      exact List.filterMap_congr fun i _ ↦ h.scope?_eq i
    exact congrArg Except.ok hscopes

theorem functionScope_eq : t.functionScope = s.functionScope := by
  unfold functionScope
  rw [h.visible_eq]
  cases s.visible with
  | error f => rfl
  | ok scopes =>
    have hkind : (fun scope : Scope ↦ decide (scope.kind = .function) || decide (scope.kind = .global)) ∘
        withRow id row = fun scope : Scope ↦ decide (scope.kind = .function) || decide (scope.kind = .global) :=
      funext fun scope ↦ by
        rw [Function.comp_apply, kind_withRow]
    simp only [Except.map, Bind.bind, Except.bind]
    rw [List.find?_map, hkind]
    cases scopes.find? fun scope ↦ decide (scope.kind = .function) || decide (scope.kind = .global) with
    | none => rfl
    | some scope => exact congrArg Except.ok (id_withRow id row scope)

theorem home_eq (kind' : BindingKind) : t.home kind' = s.home kind' := by
  unfold home
  rw [h.functionScope_eq, h.headId_eq]

theorem exists_scope? (hscope : s.scope? id = some scope) : ∃ scope, t.scope? id = some scope := by
  rw [h.scope?_eq, hscope]
  exact ⟨_, rfl⟩

omit h in
theorem get?_of_last {before behind : List (String × Value)} {name : String} {v : Value}
    (h : s.Declares kind id (before ++ (name, v) :: behind) t) (hscope : s.scope? id = some scope)
    (hlast : name ∉ behind.map Prod.fst) : ∃ scope, t.scope? id = some scope ∧ scope.bindings.get? name = some v := by
  refine ⟨_, (h.scope?_eq id).trans (congrArg _ hscope), ?_⟩
  rw [withRow, if_pos (id_of_scope? hscope)]
  exact Dict.get?_setAll_of_last _ v hlast

end Declares

theorem resolve_of_head {scopes : List Scope} {name : String} {v : Value} (hvisible : s.visible = .ok (scope :: scopes))
    (hget : scope.bindings.get? name = some v) : s.resolve name = .ok v := by
  have hbound : scope.bindings.contains name = true := by
    rw [Dict.contains, hget, Option.isSome_some]
  unfold resolve binder?
  rw [hvisible]
  simp only [Bind.bind, Except.bind, Pure.pure, Except.pure]
  rw [List.find?_cons_of_pos (p := fun scope : Scope ↦ scope.bindings.contains name) hbound, Option.bind_some, hget]

theorem Declares.resolve_of_last {scopes : List Scope} {before behind : List (String × Value)} {name : String}
    {v : Value} (h : s.Declares kind id (before ++ (name, v) :: behind) t) (hvisible : s.visible = .ok (scope :: scopes))
    (hid : scope.id = id) (hlast : name ∉ behind.map Prod.fst) : t.resolve name = .ok v := by
  have hhead := h.visible_eq
  rw [hvisible] at hhead
  refine resolve_of_head hhead ?_
  rw [withRow, if_pos hid]
  exact Dict.get?_setAll_of_last _ v hlast

end State

end Stepwise
