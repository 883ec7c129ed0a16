import Stepwise.Proofs.Run.Stacking
/-!
Scopes out of reach. A scope that is closed and that no call in progress captured is neither found under a name
nor opened again: whatever is declared, assigned, opened or closed meanwhile, it binds what it did.
-/

namespace Stepwise

namespace State

/-- A scope was opened and is closed, and no call in progress captured it. -/
structure Sealed (s : State) (i : Nat) : Prop where
  grounded : s.Grounded
  made : i ≤ s.lastId
  closed : i ∉ s.chain
  uncaptured : ∀ frame ∈ s.frames, i ∉ frame.closure

/-- A sealed scope is left as it was, and sealed. -/
structure Bypasses (i : Nat) (s t : State) : Prop where
  sealed : t.Sealed i
  scope : t.scope? i = s.scope? i

variable {s t u : State} {i id : Nat} {ids : List Nat} {scope : Scope} {name : String}

theorem Bypasses.trans (h : Bypasses i s t) (h' : Bypasses i t u) : Bypasses i s u := ⟨h'.sealed, h'.scope.trans h.scope⟩

namespace Sealed

variable (h : s.Sealed i)
include h

theorem bypasses : Bypasses i s s := ⟨h, rfl⟩

/-- Nothing happened to scopes and calls but that more numbers were given away. -/
theorem bypasses_of_eq (hframes : t.frames = s.frames) (hchain : t.chain = s.chain) (hscopes : t.scopes = s.scopes)
    (hlastId : s.lastId ≤ t.lastId) : Bypasses i s t := by
  have hids : t.scopeIds = s.scopeIds := congrArg (List.map _) hscopes
  refine ⟨⟨⟨hchain ▸ h.grounded.opened, ?_⟩, h.made.trans hlastId, hchain ▸ h.closed, hframes ▸ h.uncaptured⟩, ?_⟩
  · rw [hchain, hids]
    exact h.grounded.known
  · rw [scope?, scope?, hscopes]

theorem ne_of_mem_chain (hid : id ∈ s.chain) : id ≠ i := fun e ↦ h.closed (e ▸ hid)

theorem ne_of_mem_visibleIds (hids : s.visibleIds = .ok ids) (hid : id ∈ ids) : id ≠ i := by
  rintro rfl
  unfold visibleIds at hids
  split at hids
  · cases hids
    exact h.closed hid
  next frame frames hframes =>
    split at hids
    · cases hids
      rcases List.mem_append.mp hid with hid | hid
      · exact h.closed (List.mem_of_mem_take hid)
      · exact h.uncaptured frame (hframes ▸ List.mem_cons_self) (List.mem_of_mem_filter hid)
    · split at hids
      · cases hids
        cases hid
      · cases hids

theorem ne_of_mem_visible {scopes : List Scope} (hscopes : s.visible = .ok scopes) (hscope : scope ∈ scopes) :
    scope.id ≠ i := by
  unfold visible at hscopes
  cases hids : s.visibleIds with
  | error f =>
    rw [hids] at hscopes
    cases hscopes
  | ok ids =>
    rw [hids] at hscopes
    cases hscopes
    obtain ⟨id, hid, hs⟩ := List.mem_filterMap.mp hscope
    rw [id_of_scope? hs]
    exact h.ne_of_mem_visibleIds hids hid

theorem ne_of_binder? (hscope : s.binder? name = .ok (some scope)) : scope.id ≠ i := by
  unfold binder? at hscope
  cases hscopes : s.visible with
  | error f =>
    rw [hscopes] at hscope
    cases hscope
  | ok scopes =>
    rw [hscopes] at hscope
    exact h.ne_of_mem_visible hscopes (List.mem_of_find?_eq_some (Except.ok.inj hscope))

theorem ne_of_functionScope (hid : s.functionScope = .ok id) : id ≠ i := by
  unfold functionScope at hid
  cases hscopes : s.visible with
  | error f =>
    rw [hscopes] at hid
    cases hid
  | ok scopes =>
    rw [hscopes] at hid
    simp only [Bind.bind, Except.bind] at hid
    split at hid
    next scope hscope =>
      cases hid
      exact h.ne_of_mem_visible hscopes (List.mem_of_find?_eq_some hscope)
    next => cases hid

theorem ne_of_headId (hid : s.headId = .ok id) : id ≠ i := by
  unfold headId at hid
  split at hid
  next hchain =>
    cases hid
    exact h.ne_of_mem_chain (hchain ▸ List.mem_cons_self)
  next => cases hid

theorem bypasses_updateScope (hne : id ≠ i) {f : Scope → Scope} (hf : ∀ scope, (f scope).id = scope.id) :
    Bypasses i s (s.updateScope id f) := by
  refine ⟨⟨⟨h.grounded.opened, ?_⟩, h.made, h.closed, h.uncaptured⟩, ?_⟩
  · rw [scopeIds_updateScope hf]
    exact h.grounded.known
  · rw [scope?_updateScope s id i hf]
    cases hs : s.scope? i with
    | none => rfl
    | some old =>
      rw [Option.map_some, if_neg]
      rw [id_of_scope? hs]
      exact hne.symm

theorem bypasses_bind (hne : scope.id ≠ i) (name : String) (v : Value) : Bypasses i s (s.bind scope name v) := by
  have hupdate := h.bypasses_updateScope hne (f := fun old ↦ { old with bindings := old.bindings.set name v }) fun _ ↦ rfl
  rw [bind_eq]
  exact hupdate.trans (hupdate.sealed.bypasses_of_eq rfl rfl rfl (Nat.le_refl _))

/-- New scopes have other numbers. -/
theorem bypasses_openScope {rest : List Nat} {frames : List Frame} (hid : s.lastId < scope.id) (hrest : rest ⊆ s.chain)
    (hframes : ∀ frame ∈ frames, i ∉ frame.closure) : Bypasses i s (s.openScope scope rest frames) := by
  have hne : i ≠ scope.id := (h.made.trans_lt hid).ne
  have hknown : scope.id :: rest ⊆ scope.id :: s.scopeIds := List.cons_subset_cons _ fun _ h' ↦ h.grounded.known (hrest h')
  refine ⟨⟨⟨List.cons_ne_nil _ _, hknown⟩, h.made.trans hid.le, ?_, hframes⟩, ?_⟩
  · rintro hi
    exact (List.mem_cons.mp hi).elim hne fun hi ↦ h.closed (hrest hi)
  · rw [scope?_openScope, if_neg hne]

theorem bypasses_close {chain : List Nat} {frames : List Frame} (hne : chain ≠ []) (hchain : chain ⊆ s.chain)
    (hframes : ∀ frame ∈ frames, i ∉ frame.closure) : Bypasses i s { s with chain, frames } :=
  ⟨⟨⟨hne, fun _ hid ↦ h.grounded.known (hchain hid)⟩, h.made, fun hi ↦ h.closed (hchain hi), hframes⟩, rfl⟩

end Sealed

end State

namespace Engine

open State

variable {i : Nat} {α β : Type} {x : Engine α} {A : α → Prop}

/-- An operation that passes by a scope wherever that is sealed. -/
def Bypassing (i : Nat) (x : Engine α) : Prop := ∀ s : State, s.Sealed i → Bypasses i s (after (x s))

theorem Bypassing.bind {f : α → Engine β} (h : Bypassing i x) (hf : ∀ a, Bypassing i (f a)) : Bypassing i (x >>= f) := by
  intro s hs
  have hx := h s hs
  rw [bind_apply]
  cases hr : x s with
  | ok a t =>
    rw [hr] at hx
    exact hx.trans (hf a t hx.sealed)
  | error e t =>
    rw [hr] at hx
    exact hx

theorem Storing.bypassing (h : Storing (fun _ ↦ True) x A) : Bypassing i x := by
  intro s hs
  rw [← h.withScoping_after (holding_anything s)]
  exact hs.bypasses_of_eq rfl rfl rfl (h.develops (holding_anything s)).lastId

theorem bypassing_declare (name : String) (v : Value) (kind : BindingKind) {scope : Option Nat} {s : State}
    (hs : s.Sealed i) (hscope : ∀ id, scope = some id → id ≠ i) : Bypasses i s (after (declare name v kind scope s)) := by
  have hne (id : Nat) (hid : scope.elim s.headId .ok = .ok id) : id ≠ i := by
    cases scope with
    | none => exact hs.ne_of_headId hid
    | some _ =>
      cases hid
      exact hscope _ rfl
  rw [declare_apply]
  cases hid : scope.elim s.headId .ok with
  | error f => exact hs.bypasses
  | ok id =>
    dsimp only
    cases hold : s.scope? id with
    | none => exact hs.bypasses
    | some old =>
      have hother : old.id ≠ i := id_of_scope? hold ▸ hne id hid
      have hbind := hs.bypasses_bind hother name v
      exact hbind.trans (hbind.sealed.bypasses_of_eq rfl rfl rfl (Nat.le_refl _))

theorem bypassing_assign (name : String) (v : Value) : Bypassing i (assign name v) := by
  intro s hs
  rw [assign_apply]
  cases hscope : s.binder? name with
  | error f => exact hs.bypasses
  | ok scope? =>
    cases scope? with
    | none => exact bypassing_declare name v .blockScoped hs nofun
    | some scope => exact hs.bypasses_bind (hs.ne_of_binder? hscope) name v

theorem bypassing_capture : Bypassing i capture := by
  intro s hs
  obtain ⟨ids, captured, h, -⟩ | ⟨f, h, -⟩ := capture_cases s
  · rw [h]
    exact hs.bypasses_of_eq rfl rfl rfl (Nat.le_refl _)
  · rw [h]
    exact hs.bypasses

theorem bypassing_pushScope (kind : ScopeKind) (name : String) (parent : Option Nat) : Bypassing i (pushScope kind name parent) := by
  intro s hs
  rw [pushScope_apply]
  exact hs.bypasses_openScope (Nat.lt_succ_self s.lastId) (List.Subset.refl _) hs.uncaptured

theorem bypassing_popScope : Bypassing i popScope := by
  intro s hs
  unfold popScope
  rw [bind_apply, get_apply]
  dsimp only
  rcases hchain : s.chain with _ | ⟨id, _ | ⟨outer, rest⟩⟩
  · exact hs.bypasses
  · exact hs.bypasses
  · refine hs.bypasses_close (List.cons_ne_nil outer rest) (fun _ hid ↦ ?_) hs.uncaptured
    rw [hchain]
    exact List.mem_cons_of_mem id hid

theorem bypassing_closeScope : Bypassing i (popScope >>= fun _ ↦ pure () : Engine Unit) :=
  bypassing_popScope.bind fun _ _ hs ↦ hs.bypasses

theorem bypassing_renewScope : Bypassing i renewScope := by
  refine bypassing_popScope.bind fun id s hs ↦ ?_
  rw [bind_apply, get_apply]
  dsimp only
  cases hold : s.scope? id with
  | none => exact hs.bypasses
  | some old =>
    have hfill (fresh : Nat) (hfresh : fresh ≠ i) : Bypassing i (modify fun s : State ↦
        s.updateScope fresh fun scope ↦ { scope with bindings := old.bindings }) := fun s hs ↦
      hs.bypasses_updateScope hfresh fun _ ↦ rfl
    have hopen := bypassing_pushScope old.kind old.name old.parent s hs
    exact hopen.trans (hfill (s.lastId + 1) (hs.made.trans_lt (Nat.lt_succ_self _)).ne' _ hopen.sealed)

end Engine

namespace Evaluator

open State Engine

variable {i : Nat}

theorem bypassing_enter {f : Function} (hf : i ∉ f.closure) (arguments : List Value) (line : Int) (name : String) :
    Bypassing i (enter f arguments line name) := by
  intro s hs
  rw [enter_apply]
  exact hs.bypasses_openScope (s.lt_callScope f name) (List.Subset.refl _) (List.forall_mem_cons.mpr ⟨hf, hs.uncaptured⟩)

theorem bypassing_leave : Bypassing i leave := by
  refine bypassing_popScope.bind fun _ s hs ↦ ?_
  exact hs.bypasses_close hs.grounded.opened (List.Subset.refl _) fun frame hframe ↦
    hs.uncaptured frame (List.mem_of_mem_tail hframe)

theorem bypassing_keepLocals (scope : Nat) : Bypassing i (keepLocals scope) := by
  intro s hs
  obtain ⟨frames, h, hshape, -⟩ := keepLocals_apply scope s
  rw [h]
  refine hs.bypasses_close hs.grounded.opened (List.Subset.refl _) fun frame hframe ↦ ?_
  have hmem : frame.shape ∈ s.frames.map Frame.shape := hshape ▸ List.mem_map_of_mem hframe
  obtain ⟨old, hold, hsame⟩ := List.mem_map.mp hmem
  have hclosure : old.closure = frame.closure := congrArg Prod.snd hsame
  exact hclosure ▸ hs.uncaptured old hold

end Evaluator

end Stepwise
