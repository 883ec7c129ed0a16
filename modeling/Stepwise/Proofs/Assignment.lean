import Stepwise.Proofs.LexicalScoping
import Stepwise.Proofs.StackDiscipline
import Stepwise.Proofs.State.Content
import Mathlib.Data.List.Find
/-!
Assigning to a name sets one value of one scope. Whoever finds the name in that scope finds the new value
there, the running call, the calls around it and every function that captured the scope, and nobody else does.
-/

namespace Stepwise

namespace State

variable {s t : State} {id i : Nat} {ids : List Nat} {name x : String} {v : Value} {scope old : Scope}

/-- What a scope binds a name to. -/
def cell? (s : State) (id : Nat) (name : String) : Option Value := (s.scope? id).bind (·.bindings.get? name)

/-- The first of some scopes that binds a name. -/
def binderAmong? (s : State) (ids : List Nat) (name : String) : Option Scope :=
  (ids.filterMap s.scope?).find? (·.bindings.contains name)

/-- What a name means to someone who sees some scopes. -/
def lookup? (s : State) (ids : List Nat) (name : String) : Option Value :=
  (s.binderAmong? ids name).bind (·.bindings.get? name)

section Lookup

variable (hids : s.visible = .ok (ids.filterMap s.scope?)) (name)
include hids

theorem binder?_of_visible : s.binder? name = .ok (s.binderAmong? ids name) := by
  unfold binder?
  rw [hids]
  rfl

theorem resolve_of_visible : s.resolve name = (s.lookup? ids name).elim (.error (.unresolved name)) .ok := by
  unfold resolve lookup?
  rw [binder?_of_visible name hids]
  simp only [Bind.bind, Except.bind]
  cases (s.binderAmong? ids name).bind (·.bindings.get? name) <;> rfl

theorem isDeclared_of_visible : ∃ b, s.isDeclared name = .ok b ∧ (b = true ↔ ∃ v, s.resolve name = .ok v) := by
  refine ⟨(s.binderAmong? ids name).isSome, ?_, ?_⟩
  · unfold isDeclared
    rw [binder?_of_visible name hids]
    rfl
  · rw [resolve_of_visible name hids]
    unfold lookup?
    cases h : s.binderAmong? ids name with
    | none => exact ⟨nofun, fun ⟨_, hv⟩ ↦ nomatch hv⟩
    | some scope =>
      have hbound := List.find?_some (p := fun scope : Scope ↦ scope.bindings.contains name) h
      obtain ⟨v, hv⟩ := Option.isSome_iff_exists.mp hbound
      exact ⟨fun _ ↦ ⟨v, by rw [Option.bind_some, hv, Option.elim_some]⟩, fun _ ↦ rfl⟩

end Lookup

/-- One value of one scope is different: a state in which a scope binds a name to a value. -/
structure Sets (s : State) (id : Nat) (name : String) (v : Value) (t : State) : Prop where
  here : t.cell? id name = some v
  elsewhere : ∀ i x, i ≠ id ∨ x ≠ name → t.cell? i x = s.cell? i x
  scopes : t.scopes.map (fun scope ↦ { scope with bindings := ∅ }) = s.scopes.map (fun scope ↦ { scope with bindings := ∅ })
  heap : s.heap.Recounts t.heap

/-- What assigning to a name makes of a state. -/
structure Assigns (s : State) (name : String) (v : Value) (t : State) : Prop where
  /-- what is bound is bound anew in the scope where it is found, and whoever finds it there finds the new value -/
  bound : ∀ scope, s.binder? name = .ok (some scope) → s.Sets scope.id name v t ∧
    t = { s with heap := t.heap, scopes := t.scopes } ∧
    ∀ ids x, t.lookup? ids x = if (s.binderAmong? ids x).map (·.id) = some scope.id ∧ x = name then some v
      else s.lookup? ids x
  /-- what is bound nowhere is declared in the innermost scope -/
  unbound : s.binder? name = .ok none → ∃ id, s.headId = .ok id ∧ s.cell? id name = none ∧ s.Sets id name v t ∧
    t = { s with
      heap := t.heap, scopes := t.scopes
      declared := s.declared ++ [{ name, value := v, scope := id, isConstant := false, isBlockScoped := true }] }
  resolved : t.resolve name = .ok v
  others : ∀ x, x ≠ name → t.resolve x = s.resolve x

/-- Assigning to any name succeeds and does what it should, and the names declared are those that resolve. -/
structure Assignable (s : State) : Prop where
  found : ∀ name, ∃ scope?, s.binder? name = .ok scope?
  assigns : ∀ name v, ∃ t, Engine.assign name v s = .ok () t ∧ s.Assigns name v t
  declares : ∀ name, ∃ b, s.isDeclared name = .ok b ∧ (b = true ↔ ∃ v, s.resolve name = .ok v)

section Bind

/-- A scope as it is after a name was bound in one of a number. -/
def rebound (id : Nat) (name : String) (v : Value) (scope : Scope) : Scope :=
  if scope.id = id then { scope with bindings := scope.bindings.set name v } else scope

theorem get?_rebound : (rebound id name v scope).bindings.get? x =
    if scope.id = id ∧ x = name then some v else scope.bindings.get? x := by
  unfold rebound
  by_cases hid : scope.id = id
  · rw [if_pos hid, Dict.get?_set]
    by_cases hx : x = name
    · rw [if_pos hx, if_pos ⟨hid, hx⟩]
    · rw [if_neg hx, if_neg fun h ↦ hx h.2]
  · rw [if_neg hid, if_neg fun h ↦ hid h.1]

variable (ht : ∀ i, t.scope? i = (s.scope? i).map (rebound id name v))
include ht

theorem cell?_of_rebound : t.cell? i x = if i = id ∧ x = name then (s.scope? i).map fun _ ↦ v else s.cell? i x := by
  unfold cell?
  rw [ht]
  cases hs : s.scope? i with
  | none => split <;> rfl
  | some scope =>
    rw [Option.map_some, Option.bind_some, Option.bind_some, Option.map_some, get?_rebound, id_of_scope? hs]

theorem filterMap_of_rebound (ids : List Nat) :
    ids.filterMap t.scope? = (ids.filterMap s.scope?).map (rebound id name v) := by
  rw [List.map_filterMap]
  exact List.filterMap_congr fun i _ ↦ ht i

theorem visible_of_rebound (hvisible : t.visibleIds = s.visibleIds) (hids : s.visible = .ok (ids.filterMap s.scope?)) :
    t.visible = .ok (ids.filterMap t.scope?) := by
  unfold visible at hids ⊢
  rw [hvisible]
  cases h : s.visibleIds with
  | error f =>
    rw [h] at hids
    cases hids
  | ok ids' =>
    rw [h] at hids
    have hscopes : ids'.filterMap s.scope? = ids.filterMap s.scope? := Except.ok.inj hids
    rw [filterMap_of_rebound ht, ← hscopes, ← filterMap_of_rebound ht]
    rfl

/-- Where the scope had the name before, or the name is another one, the same scope is found. -/
theorem binderAmong?_of_rebound (h : x = name → (s.cell? id name).isSome) :
    t.binderAmong? ids x = (s.binderAmong? ids x).map (rebound id name v) := by
  unfold binderAmong?
  rw [filterMap_of_rebound ht, List.find?_map]
  refine congrArg _ (List.find?_congr fun scope hscope ↦ ?_)
  obtain ⟨i, -, hs⟩ := List.mem_filterMap.mp hscope
  have hid := id_of_scope? hs
  rw [Function.comp_apply, Dict.contains, Dict.contains, get?_rebound]
  split
  next hcell =>
    have hbound := h hcell.2
    unfold cell? at hbound
    rw [← hcell.1, hid, hs, ← hcell.2] at hbound
    exact hbound.symm
  next => rfl

theorem lookup?_of_rebound (h : x = name → (s.cell? id name).isSome) : t.lookup? ids x =
    if (s.binderAmong? ids x).map (·.id) = some id ∧ x = name then some v else s.lookup? ids x := by
  unfold lookup?
  rw [binderAmong?_of_rebound ht h]
  cases hs : s.binderAmong? ids x with
  | none =>
    rw [if_neg]
    · rfl
    · exact fun hnone ↦ nomatch hnone.1
  | some scope =>
    rw [Option.map_some, Option.bind_some, get?_rebound, Option.map_some, Option.bind_some]
    exact if_congr (and_congr_left' Option.some_inj.symm) rfl rfl

theorem lookup?_of_head (hhead : ids.head? = some id) (hscope : s.scope? id = some scope) :
    t.lookup? ids name = some v := by
  obtain ⟨ids, rfl⟩ := List.head?_eq_some_iff.mp hhead
  have hrebound : t.scope? id = some (rebound id name v scope) := by
    rw [ht, hscope, Option.map_some]
  have hget : (rebound id name v scope).bindings.get? name = some v := by
    rw [get?_rebound, if_pos ⟨id_of_scope? hscope, rfl⟩]
  unfold lookup? binderAmong?
  rw [List.filterMap_cons_some hrebound, List.find?_cons_of_pos, Option.bind_some, hget]
  rw [Dict.contains, hget, Option.isSome_some]

end Bind

theorem scope?_bind_rebound (s : State) (scope : Scope) (name : String) (v : Value) (i : Nat) :
    (s.bind scope name v).scope? i = (s.scope? i).map (rebound scope.id name v) := s.scope?_bind scope name v

theorem visibleIds_bind (s : State) (scope : Scope) (name : String) (v : Value) :
    (s.bind scope name v).visibleIds = s.visibleIds := by
  rw [bind_eq]
  rfl

theorem recounts_bind (s : State) (scope : Scope) (name : String) (v : Value) :
    s.heap.Recounts (s.bind scope name v).heap := by
  rw [bind_eq]
  refine Heap.Recounts.retain ?_ v
  cases scope.bindings.get? name with
  | none => exact .refl s.heap
  | some old => exact (Heap.Recounts.refl s.heap).release old

theorem sets_bind (hscope : s.scope? id = some scope) (name : String) (v : Value) :
    s.Sets id name v (s.bind scope name v) := by
  have hid := id_of_scope? hscope
  have hcell (i : Nat) (x : String) := cell?_of_rebound (x := x) (s.scope?_bind_rebound scope name v) (i := i)
  rw [hid] at hcell
  refine ⟨?_, fun i x h ↦ ?_, ?_, s.recounts_bind scope name v⟩
  · rw [hcell, if_pos ⟨rfl, rfl⟩, hscope, Option.map_some]
  · rw [hcell, if_neg]
    rintro ⟨rfl, rfl⟩
    exact h.elim (· rfl) (· rfl)
  · rw [bind_eq]
    dsimp only [updateScope]
    rw [List.map_map]
    refine List.map_congr_left fun old _ ↦ ?_
    rw [Function.comp_apply]
    split <;> rfl

section Assigns

variable (hids : s.visible = .ok (ids.filterMap s.scope?))
include hids

theorem resolve_of_rebound (ht : ∀ i, t.scope? i = (s.scope? i).map (rebound id name v))
    (hvisible : t.visibleIds = s.visibleIds) (hx : x ≠ name) : t.resolve x = s.resolve x := by
  rw [resolve_of_visible x (visible_of_rebound ht hvisible hids), resolve_of_visible x hids,
    lookup?_of_rebound ht fun h ↦ absurd h hx, if_neg fun h ↦ hx h.2]

theorem assigns_bind (hb : s.binderAmong? ids name = some scope) (v : Value) :
    s.Assigns name v (s.bind scope name v) := by
  have hbinder := binder?_of_visible name hids
  rw [hb] at hbinder
  obtain ⟨i, -, hscope⟩ := List.mem_filterMap.mp (List.mem_of_find?_eq_some hb)
  obtain rfl := id_of_scope? hscope
  have ht := s.scope?_bind_rebound scope name v
  have hvisible := s.visibleIds_bind scope name v
  have hcell : (s.cell? scope.id name).isSome := by
    rw [cell?, hscope, Option.bind_some]
    exact List.find?_some (p := fun scope : Scope ↦ scope.bindings.contains name) hb
  refine ⟨fun scope' hscope' ↦ ?_, fun hnone ↦ ?_, ?_, fun x ↦ resolve_of_rebound hids ht hvisible⟩
  · cases hbinder.symm.trans hscope'
    refine ⟨sets_bind hscope name v, ?_, fun ids x ↦ lookup?_of_rebound ht fun _ ↦ hcell⟩
    rw [bind_eq]
  · cases hbinder.symm.trans hnone
  · rw [resolve_of_visible name (visible_of_rebound ht hvisible hids), lookup?_of_rebound ht fun _ ↦ hcell, hb,
      Option.map_some, if_pos ⟨rfl, rfl⟩, Option.elim_some]

theorem assigns_declare (hb : s.binderAmong? ids name = none) (hhead : ids.head? = some id) (hheadId : s.headId = .ok id)
    (hscope : s.scope? id = some scope) (v : Value) :
    s.Assigns name v ((s.bind scope name v).recordVariable name v .blockScoped id) := by
  have hbinder := binder?_of_visible name hids
  rw [hb] at hbinder
  obtain rfl := id_of_scope? hscope
  have ht (i : Nat) : ((s.bind scope name v).recordVariable name v .blockScoped scope.id).scope? i =
      (s.scope? i).map (rebound scope.id name v) := s.scope?_bind_rebound scope name v i
  have hvisible : ((s.bind scope name v).recordVariable name v .blockScoped scope.id).visibleIds = s.visibleIds :=
    s.visibleIds_bind scope name v
  have hmem : scope ∈ ids.filterMap s.scope? :=
    List.mem_filterMap.mpr ⟨scope.id, List.mem_of_head? hhead, hscope⟩
  have hsets := sets_bind hscope name v
  refine ⟨fun scope' hscope' ↦ ?_, fun _ ↦ ⟨scope.id, hheadId, ?_, ⟨hsets.here, hsets.elsewhere, hsets.scopes, hsets.heap⟩, ?_⟩,
    ?_, fun x ↦ resolve_of_rebound hids ht hvisible⟩
  · cases hbinder.symm.trans hscope'
  · have hnone := List.find?_eq_none.mp hb scope hmem
    rw [cell?, hscope, Option.bind_some]
    exact Option.not_isSome_iff_eq_none.mp hnone
  · rw [bind_eq]
    rfl
  · rw [resolve_of_visible name (visible_of_rebound ht hvisible hids), lookup?_of_head ht hhead hscope, Option.elim_some]

end Assigns

theorem exists_of_visible {scopes : List Scope} (h : s.visible = .ok scopes) (hscope : scope ∈ scopes) :
    ∃ id, s.scope? id = some scope := by
  unfold visible at h
  cases hids : s.visibleIds with
  | error f =>
    rw [hids] at h
    cases h
  | ok ids =>
    rw [hids] at h
    cases h
    obtain ⟨id, -, hid⟩ := List.mem_filterMap.mp hscope
    exact ⟨id, hid⟩

/-- Names are looked up in the scopes of some numbers, the first of which is the innermost open one. -/
structure Sees (s : State) (ids : List Nat) : Prop where
  visible : s.visible = .ok (ids.filterMap s.scope?)
  innermost : ∃ id scope, ids.head? = some id ∧ s.headId = .ok id ∧ s.scope? id = some scope

namespace Sees

variable (h : s.Sees ids)
include h

theorem of_rebound (ht : ∀ i, t.scope? i = (s.scope? i).map (rebound id name v)) (hvisible : t.visibleIds = s.visibleIds)
    (hhead : t.headId = s.headId) : t.Sees ids := by
  obtain ⟨innermost, scope, hids, hheadId, hscope⟩ := h.innermost
  refine ⟨visible_of_rebound ht hvisible h.visible, innermost, rebound id name v scope, hids, hhead.trans hheadId, ?_⟩
  rw [ht, hscope, Option.map_some]

/-- Any name can be assigned to, and the same scopes are seen from there on. -/
theorem exists_assign (name : String) (v : Value) :
    ∃ t, Engine.assign name v s = .ok () t ∧ s.Assigns name v t ∧ t.Sees ids := by
  obtain ⟨id, innermost, hids, hheadId, hscope⟩ := h.innermost
  have hbound (scope : Scope) : (s.bind scope name v).Sees ids := by
    apply h.of_rebound (s.scope?_bind_rebound scope name v) (s.visibleIds_bind scope name v)
    rw [bind_eq]
    rfl
  rw [Engine.assign_apply, binder?_of_visible name h.visible]
  cases hb : s.binderAmong? ids name with
  | some scope => exact ⟨_, rfl, assigns_bind h.visible hb v, hbound scope⟩
  | none =>
    refine ⟨_, Engine.declare_of_headId hheadId hscope name v .blockScoped,
      assigns_declare h.visible hb hids hheadId hscope v, ?_⟩
    exact ⟨(hbound innermost).visible, (hbound innermost).innermost⟩

end Sees

namespace LexicallyScoped

variable (h : s.LexicallyScoped)
include h

/-- The innermost open scope is the first of those in which names are looked up. -/
theorem exists_visible : ∃ id outer scope, s.visible = .ok ((id :: outer).filterMap s.scope?) ∧ s.headId = .ok id ∧
    s.scope? id = some scope := by
  obtain ⟨scopes, hvisible, hline, hhead, -⟩ := h.line
  have hscopes : (scopes.map (·.id)).filterMap s.scope? = scopes := by
    rw [List.filterMap_map]
    refine (List.filterMap_congr fun scope hscope ↦ ?_).trans (List.filterMap_some)
    obtain ⟨i, hi⟩ := exists_of_visible hvisible hscope
    rw [Function.comp_apply, id_of_scope? hi, hi]
  obtain ⟨id, outer, hids⟩ := List.exists_cons_of_ne_nil hline.ne_nil
  obtain ⟨scope, hscope⟩ := hline.exists_scope id (hids ▸ List.mem_cons_self)
  rw [hids, List.head?_cons, eq_comm] at hhead
  obtain ⟨rest, hchain⟩ := List.head?_eq_some_iff.mp hhead
  refine ⟨id, outer, scope, ?_, ?_, hscope⟩
  · rw [← hids, hscopes, hvisible]
  · unfold headId
    rw [hchain]

theorem exists_sees : ∃ ids, s.Sees ids := by
  obtain ⟨id, outer, scope, hvisible, hhead, hscope⟩ := h.exists_visible
  exact ⟨id :: outer, hvisible, id, scope, rfl, hhead, hscope⟩

theorem assignable : s.Assignable := by
  obtain ⟨ids, hsees⟩ := h.exists_sees
  refine ⟨fun name ↦ ⟨_, binder?_of_visible name hsees.visible⟩, fun name v ↦ ?_,
    fun name ↦ isDeclared_of_visible name hsees.visible⟩
  obtain ⟨t, ht, hassigns, -⟩ := hsees.exists_assign name v
  exact ⟨t, ht, hassigns⟩

end LexicallyScoped

end State

namespace Correspondence.Scoping

variable {settings : Settings}

theorem faithful_inCase {P : State → Prop} (hP : ∀ s : State, s.LexicallyScoped → P s) (other : Names) :
    Faithful True (.inCase P .ofScopes other) := by
  intro p hp
  refine Names.inCase_agreeAt .ofScopes other ?_
  rw [eq_of_holds hp]
  exact hP _ hp.1.lexicallyScoped

theorem sound_ofScopes (hs : settings.names = .ofScopes) : (scoping True).SoundRun settings settings :=
  soundRun hs (fun _ _ ↦ hs ▸ Names.AgreeAt.refl _ _) (.inl ⟨trivial, rfl⟩) rfl

theorem lexicallyScoped_of_ends {k : Stretch} {α : Type} {A : Machines → α → Prop} {p : Machines}
    {a b : EStateM.Result Stop (Machine Journal) α} (h : (scoping True).Ends k A p a b) : (after a).state.LexicallyScoped := by
  cases h with
  | ok hq _ _ => exact hq.1.lexicallyScoped
  | error hq _ _ => exact hq.1.lexicallyScoped

end Correspondence.Scoping

open Correspondence.Scoping in
/-- Wherever a run looks up, declares or assigns to a name, evaluates a form, records a step or ends, assigning any value
to any name would set one value of one scope: it makes no difference to a run what is done at other points. -/
theorem assignment_sets_one (ceiling : Int) (prunes : Bool) (names : Names) (other : Evaluator) (depth : Nat)
    (program : Program) :
    let settings : Settings := { ceiling, prunes }
    { settings with names := .inCase State.Assignable .ofScopes names }.run depth program = settings.run depth program ∧
    (Evaluator.watched (fun m ↦ m.state.Assignable) other settings depth).program settings program .initial =
      settings.run depth program ∧
    (∀ step ∈ (after (settings.run depth program)).journal.steps, step.snapshot.Assignable) ∧
    (after (settings.run depth program)).state.Assignable := by
  intro settings
  have hs : settings.names = .ofScopes := rfl
  have hassignable (s : State) (h : s.LexicallyScoped) : s.Assignable := h.assignable
  have hnamed := related_run (t := { settings with names := .inCase State.Assignable .ofScopes names }) hs
    (faithful_inCase hassignable names) (.inl ⟨trivial, rfl⟩) rfl depth program
  have hsound := sound_ofScopes hs
  have hparts := hsound.watched (P := fun m ↦ m.state.Assignable) (fun hp ↦ ?_) other depth
  · have hwatched := hparts.program hsound program (holds_initial True) rfl
    obtain ⟨hrun, hsteps⟩ := eq_of_ends hnamed
    exact ⟨hrun, (eq_of_ends hwatched).1, fun step hstep ↦ (hsteps step hstep).assignable,
      (lexicallyScoped_of_ends hnamed).assignable⟩
  · rw [eq_of_holds hp]
    exact hp.1.lexicallyScoped.assignable

end Stepwise
