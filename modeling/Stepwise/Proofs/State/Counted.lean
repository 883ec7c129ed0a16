import Stepwise.Proofs.Run.Stacking
import Stepwise.Proofs.State.Tallying
/-!
States in which no reference goes uncounted. Binding a name, opening and closing scopes, capturing and
forgetting them keep it so; renewing a scope does as long as no function captured it together with a
reference.
-/

namespace Stepwise

/-- A stored array or object. -/
def Value.isStored : Value → Bool
  | .object _ => true
  | _ => false

theorem Address.countIn_of_isStored {a : Address} {vs : List Value} (h : ∀ v ∈ vs, v.isStored = false) :
    a.countIn vs = 0 :=
  List.countP_eq_zero.mpr fun v hv ↦ by
    cases v with
    | object b => cases h _ hv
    | _ => exact Bool.false_ne_true

/-- The scope that a loop opens and renews for each iteration. -/
def Scope.isLoop (scope : Scope) : Bool := scope.kind = .block && scope.name = "for"

namespace State

variable {s t u : State} {a : Address} {id : Nat} {scope : Scope} {v : Value} {name : String} {k : Stretch}

theorem bound_le (hlive : t.liveIds ⊆ s.liveIds) (h : ∀ id ∈ t.liveIds, t.boundIn a id = s.boundIn a id) :
    t.bound a ≤ s.bound a := by
  unfold bound
  rw [Finset.sum_congr rfl h]
  exact Finset.sum_le_sum_of_subset hlive

theorem boundIn_bind (hscope : s.scope? scope.id = some scope) :
    (s.bind scope name v).boundIn a id =
      if id = scope.id then a.countIn (scope.bindings.set name v).values else s.boundIn a id := by
  unfold boundIn
  rw [scope?_bind]
  by_cases hid : id = scope.id
  · subst hid
    rw [if_pos rfl, hscope, Option.map_some, if_pos rfl]
    rfl
  · rw [if_neg hid]
    cases ho : s.scope? id with
    | none => rfl
    | some old =>
      have hold : old.id ≠ scope.id := (id_of_scope? ho).symm ▸ hid
      rw [Option.map_some, if_neg hold]

theorem bound_bind (hscope : s.scope? scope.id = some scope) (hlive : scope.id ∈ s.liveIds) (name : String)
    (v : Value) (a : Address) :
    (s.bind scope name v).bound a + a.countIn [(scope.bindings.get? name).getD .undefined] =
      s.bound a + a.countIn [v] := by
  have hids : (s.bind scope name v).liveIds = s.liveIds := by rw [bind_eq]; rfl
  have hothers : ∑ id ∈ s.liveIds.erase scope.id, (s.bind scope name v).boundIn a id =
      ∑ id ∈ s.liveIds.erase scope.id, s.boundIn a id :=
    Finset.sum_congr rfl fun id hid ↦ by rw [boundIn_bind hscope, if_neg (Finset.ne_of_mem_erase hid)]
  have hset := Address.countIn_values_set (a := a) scope.bindings name v
  have hbefore : s.boundIn a scope.id = a.countIn scope.bindings.values := by
    unfold boundIn
    rw [hscope]
    rfl
  unfold bound
  rw [hids, ← Finset.add_sum_erase _ _ hlive, ← Finset.add_sum_erase _ _ hlive, hothers, boundIn_bind hscope,
    if_pos rfl, hbefore]
  omega

theorem bound_openScope {rest : List Nat} {frames : List Frame} (hid : scope.id ∉ rest ++ s.captured) :
    (s.openScope scope rest frames).bound a =
      a.countIn scope.bindings.values + ∑ id ∈ (rest ++ s.captured).toFinset, s.boundIn a id := by
  have hids : (s.openScope scope rest frames).liveIds = insert scope.id (rest ++ s.captured).toFinset :=
    List.toFinset_cons
  have hnew : (s.openScope scope rest frames).boundIn a scope.id = a.countIn scope.bindings.values := by
    unfold boundIn
    rw [scope?_openScope, if_pos rfl]
    rfl
  have hold (i : Nat) (hi : i ∈ (rest ++ s.captured).toFinset) :
      (s.openScope scope rest frames).boundIn a i = s.boundIn a i := by
    unfold boundIn
    rw [scope?_openScope, if_neg]
    rintro rfl
    exact hid (List.mem_toFinset.mp hi)
  unfold bound
  rw [hids, Finset.sum_insert (fun h ↦ hid (List.mem_toFinset.mp h)), hnew, Finset.sum_congr rfl hold]

/-- References are counted, and every scope that is open or captured is there. -/
structure Counted (s : State) : Prop extends s.Grounded where
  nodup : s.chain.Nodup
  captured : s.captured ⊆ s.scopeIds
  fresh : ∀ id ∈ s.scopeIds, id ≤ s.lastId
  bindings : ∀ scope ∈ s.scopes, AllMade s.lastId scope.bindings.values
  tallied : s.Tallied s.bound

theorem mem_of_visibleIds {ids : List Nat} (h : s.visibleIds = .ok ids) (hid : id ∈ ids) :
    id ∈ s.chain ++ s.captured := by
  unfold visibleIds at h
  split at h
  · cases h
    exact List.mem_append_left _ hid
  · split at h
    next globalId hglobal =>
      cases h
      rcases List.mem_append.mp hid with hid | hid
      · exact List.mem_append_left _ (List.mem_of_mem_take hid)
      · have hkeep := List.of_mem_filter hid
        simp only [Bool.or_eq_true, decide_eq_true_eq] at hkeep
        rcases hkeep with rfl | hkeep
        · exact List.mem_append_left _ (List.mem_of_getLast? hglobal)
        · exact List.mem_append_right _ hkeep
    next =>
      split at h <;> cases h
      cases hid

theorem of_mem_visible {scopes : List Scope} (h : s.visible = .ok scopes) (hscope : scope ∈ scopes) :
    s.scope? scope.id = some scope ∧ scope.id ∈ s.liveIds := by
  obtain ⟨ids, hids, hscopes⟩ := Except.exists_of_bind_eq_ok h
  cases hscopes
  obtain ⟨id, hid, hfound⟩ := List.mem_filterMap.mp hscope
  rw [id_of_scope? hfound]
  exact ⟨hfound, List.mem_toFinset.mpr (mem_of_visibleIds hids hid)⟩

theorem of_binder? (h : s.binder? name = .ok (some scope)) : s.scope? scope.id = some scope ∧ scope.id ∈ s.liveIds := by
  obtain ⟨scopes, hscopes, hfound⟩ := Except.exists_of_bind_eq_ok h
  have hfind : scopes.find? (·.bindings.contains name) = some scope := Except.ok.inj hfound
  exact of_mem_visible hscopes (List.mem_of_find?_eq_some hfind)

theorem of_functionScope (h : s.functionScope = .ok id) : id ∈ s.liveIds := by
  obtain ⟨scopes, hscopes, hfound⟩ := Except.exists_of_bind_eq_ok h
  split at hfound
  next scope hfind =>
    cases hfound
    exact (of_mem_visible hscopes (List.mem_of_find?_eq_some hfind)).2
  next => cases hfound

theorem exists_of_resolve (h : s.resolve name = .ok v) :
    ∃ scope, s.scope? scope.id = some scope ∧ v ∈ scope.bindings.values := by
  obtain ⟨binder, hbinder, hv⟩ := Except.exists_of_bind_eq_ok h
  cases hb : binder.bind (·.bindings.get? name) with
  | none =>
    rw [hb] at hv
    cases hv
  | some w =>
    rw [hb] at hv
    cases hv
    obtain ⟨scope, rfl, hw⟩ := Option.bind_eq_some_iff.mp hb
    exact ⟨scope, (of_binder? hbinder).1, Dict.mem_values_of_get? hw⟩

/-- No scope of a loop that a function captured binds a stored array or object. -/
def sheltered (s : State) : Bool :=
  s.capturedScopes.all fun scope ↦ !scope.isLoop || scope.bindings.values.all fun v ↦ !v.isStored

theorem isStored_of_sheltered (h : s.sheltered = true) (hid : id ∈ s.captured) (hscope : s.scope? id = some scope)
    (hloop : scope.isLoop = true) : ∀ v ∈ scope.bindings.values, v.isStored = false := by
  have hall := List.all_eq_true.mp h scope (List.mem_filterMap.mpr ⟨id, hid, hscope⟩)
  rw [hloop, Bool.not_true, Bool.false_or, List.all_eq_true] at hall
  exact fun v hv ↦ by simpa using hall v hv

theorem sheltered_of_subset (h : s.sheltered = true) (hcaptured : t.captured ⊆ s.captured)
    (hscopes : ∀ id ∈ t.captured, t.scope? id = s.scope? id) : t.sheltered = true := by
  refine List.all_eq_true.mpr fun scope hscope ↦ ?_
  obtain ⟨id, hid, hfound⟩ := List.mem_filterMap.mp hscope
  rw [hscopes id hid] at hfound
  exact List.all_eq_true.mp h scope (List.mem_filterMap.mpr ⟨id, hcaptured hid, hfound⟩)

namespace Counted

theorem covered (h : s.Counted) : s.Covered := h.tallied.covered

theorem mem_scopeIds (h : s.Counted) (hid : id ∈ s.chain ++ s.captured) : id ∈ s.scopeIds :=
  (List.mem_append.mp hid).elim (h.known ·) (h.captured ·)

theorem made (h : s.Counted) (hscope : s.scope? id = some scope) {w : Value} (hw : w ∈ scope.bindings.values) :
    w.Made s.lastId := h.bindings scope (List.mem_of_find?_eq_some hscope) w hw

theorem bind (h : s.Counted) (hscope : s.scope? scope.id = some scope) (hlive : scope.id ∈ s.liveIds) (name : String)
    (hv : v.Made s.lastId) : (s.bind scope name v).Counted := by
  have hids := s.scopeIds_bind scope name v
  have htallied := h.tallied.rebound hv (bound_bind hscope hlive name v)
  have hheap : (scope.bindings.get? name).elim s.heap s.heap.release =
      s.heap.release ((scope.bindings.get? name).getD .undefined) := by
    cases scope.bindings.get? name <;> rfl
  let bound : State :=
    { s with scopes := (s.updateScope scope.id fun old ↦ { old with bindings := old.bindings.set name v }).scopes }
  rw [bind_eq, hheap] at htallied hids ⊢
  refine ⟨⟨h.opened, hids ▸ h.known⟩, h.nodup, hids ▸ h.captured, hids ▸ h.fresh, ?_, htallied.withScoping bound⟩
  intro new hnew w hw
  obtain ⟨old, hold, rfl⟩ := List.mem_map.mp hnew
  split at hw
  · rcases Dict.mem_values_of_mem_values_set hw with rfl | hw
    · exact hv
    · exact h.bindings old hold w hw
  · exact h.bindings old hold w hw

theorem recordVariable (h : s.Counted) (name : String) (v : Value) (kind : BindingKind) (id : Nat) :
    (s.recordVariable name v kind id).Counted :=
  ⟨⟨h.opened, h.known⟩, h.nodup, h.captured, h.fresh, h.bindings,
    ⟨h.tallied.covered, h.tallied.outside_eq, h.tallied.heap, h.tallied.promises, h.tallied.tasks⟩⟩

/-- Scopes may be closed, captured and forgotten, and frames do not matter. -/
theorem rescope (h : s.Counted) {chain captured : List Nat} (frames : List Frame) (hopened : chain ≠ [])
    (hchain : chain ⊆ s.chain) (hnodup : chain.Nodup) (hcaptured : captured ⊆ s.chain ++ s.captured) :
    { s with chain, captured, frames }.Counted where
  opened := hopened
  known _ hid := h.known (hchain hid)
  nodup := hnodup
  captured _ hid := h.mem_scopeIds (hcaptured hid)
  fresh := h.fresh
  bindings := h.bindings
  tallied := by
    have hbound (a : Address) : bound { s with chain, captured, frames } a ≤ s.bound a := by
      refine bound_le (fun id hid ↦ ?_) fun _ _ ↦ rfl
      rcases List.mem_append.mp (List.mem_toFinset.mp hid) with hid | hid
      · exact List.mem_toFinset.mpr (List.mem_append_left _ (hchain hid))
      · exact List.mem_toFinset.mpr (hcaptured hid)
    exact (h.tallied.mono hbound).withScoping { s with chain, captured, frames }

/-- A scope is opened whose bindings were counted before, in place of others or without any. -/
theorem openScope (h : s.Counted) {rest : List Nat} (frames : List Frame) (hid : s.lastId < scope.id)
    (hrest : rest ⊆ s.chain) (hnodup : rest.Nodup) (hmade : AllMade s.lastId scope.bindings.values)
    (hbound : ∀ a : Address, a.countIn scope.bindings.values + ∑ id ∈ (rest ++ s.captured).toFinset, s.boundIn a id ≤
      s.bound a) : (s.openScope scope rest frames).Counted := by
  have hnew (ids : List Nat) (hids : ids ⊆ s.chain ++ s.captured) : scope.id ∉ ids := fun hmem ↦ by
    have hle := h.fresh _ (h.mem_scopeIds (hids hmem))
    omega
  have hsub : rest ++ s.captured ⊆ s.chain ++ s.captured :=
    List.append_subset.mpr ⟨fun _ hi ↦ List.mem_append_left _ (hrest hi), fun _ hi ↦ List.mem_append_right _ hi⟩
  refine ⟨⟨List.cons_ne_nil _ _, List.cons_subset_cons _ fun _ hi ↦ h.known (hrest hi)⟩,
    List.nodup_cons.mpr ⟨hnew rest fun _ hi ↦ List.mem_append_left _ (hrest hi), hnodup⟩,
    fun _ hi ↦ List.mem_cons_of_mem _ (h.captured hi), List.forall_mem_cons.mpr ⟨Nat.le_refl _, fun i hi ↦ ?_⟩,
    List.forall_mem_cons.mpr ⟨fun v hv ↦ (hmade v hv).mono hid.le, fun old hold v hv ↦ ?_⟩, ?_⟩
  · exact (h.fresh i hi).trans hid.le
  · exact (h.bindings old hold v hv).mono hid.le
  · refine ((h.tallied.withLastId hid.le).mono fun a ↦ ?_).withScoping (s.openScope scope rest frames)
    rw [bound_openScope (hnew _ hsub)]
    exact hbound a

theorem openEmpty (h : s.Counted) (frames : List Frame) (hid : s.lastId < scope.id) (hempty : scope.bindings = ∅) :
    (s.openScope scope s.chain frames).Counted := by
  refine h.openScope frames hid (List.Subset.refl _) h.nodup ?_ fun a ↦ ?_
  · rw [hempty]
    exact List.forall_mem_nil _
  · rw [hempty]
    exact (Nat.zero_add _).le

/-- A loop's scope gives way to a new one with the same bindings. Had it been captured and stayed, none of the
bindings would be a reference. -/
theorem renew (h : s.Counted) (hs : s.sheltered = true) {outer : Nat} {rest : List Nat} {old : Scope} (parent : Option Nat)
    (hchain : s.chain = id :: outer :: rest) (hold : s.scope? id = some old) (hloop : old.isLoop = true) :
    (s.openScope { old with id := s.lastId + 1, parent } (outer :: rest) s.frames).Counted := by
  obtain ⟨hid, hnodup⟩ := List.nodup_cons.mp (hchain ▸ h.nodup)
  have hsub : outer :: rest ⊆ s.chain := hchain ▸ List.subset_cons_self id (outer :: rest)
  have hboundIn (a : Address) : s.boundIn a id = a.countIn old.bindings.values := by
    unfold boundIn
    rw [hold]
    rfl
  have hids : s.liveIds = insert id (outer :: rest ++ s.captured).toFinset := by
    unfold liveIds
    rw [hchain]
    exact List.toFinset_cons
  refine h.openScope s.frames (Nat.lt_succ_self _) hsub hnodup (fun v hv ↦ h.made hold hv) fun a ↦ ?_
  dsimp only
  by_cases hcaptured : id ∈ s.captured
  · rw [Address.countIn_of_isStored (isStored_of_sheltered hs hcaptured hold hloop), Nat.zero_add]
    unfold bound
    rw [hids]
    exact Finset.sum_le_sum_of_subset (Finset.subset_insert ..)
  · have hnew : id ∉ (outer :: rest ++ s.captured).toFinset := fun hmem ↦
      (List.mem_append.mp (List.mem_toFinset.mp hmem)).elim hid hcaptured
    unfold bound
    rw [hids, Finset.sum_insert hnew, hboundIn]

/-- What works on stored data leaves frames and scopes alone. -/
theorem of_tallied (h : s.Counted) (ht : t.Tallied s.bound) (hle : s.lastId ≤ t.lastId) (hs : t = t.withScoping s) :
    t.Counted := by
  have hbound : t.bound = s.bound := by
    rw [hs]
    rfl
  rw [hs] at ht ⊢
  refine ⟨⟨h.opened, h.known⟩, h.nodup, h.captured, fun id hid ↦ (h.fresh id hid).trans hle,
    fun scope hscope v hv ↦ (h.bindings scope hscope v hv).mono hle, ?_⟩
  rw [← hs, hbound, hs]
  exact ht

end Counted

end State

end Stepwise
