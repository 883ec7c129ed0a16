import Stepwise.Proofs.State.Lexical
import Stepwise.Run.Evaluator
/-!
Operations on names and scopes keep states lexical.
-/

namespace Stepwise

namespace State

variable {s t : State} {id : Nat} {ids : List Nat} {frames : List Frame} {chain rest : List Nat}
variable {scope : Scope}

theorem scope?_updateScope (s : State) (i id : Nat) {f : Scope → Scope} (hf : ∀ scope, (f scope).id = scope.id) :
    (s.updateScope i f).scope? id =
      (s.scope? id).map fun scope ↦ if scope.id = i then f scope else scope := by
  simp only [scope?, updateScope, List.find?_map]
  congr 2
  funext scope
  simp only [Function.comp_apply]
  split
  · rw [hf]
  · rfl

/-- Binding changes the counts of references and the bindings of one scope. -/
theorem bind_eq (s : State) (scope : Scope) (name : String) (v : Value) :
    s.bind scope name v = { s with
      heap := ((scope.bindings.get? name).elim s.heap s.heap.release).retain v
      scopes := (s.updateScope scope.id fun scope ↦
        { scope with bindings := scope.bindings.set name v }).scopes } := by
  unfold bind
  cases scope.bindings.get? name <;> rfl

theorem scope?_bind (s : State) (scope : Scope) (name : String) (v : Value) :
    (s.bind scope name v).scope? id = (s.scope? id).map fun old ↦
      if old.id = scope.id then { old with bindings := old.bindings.set name v } else old := by
  rw [bind_eq]
  exact s.scope?_updateScope scope.id id (fun _ ↦ rfl)

theorem exists_of_scope?_bind {name : String} {v : Value} {scope' : Scope}
    (h : (s.bind scope name v).scope? id = some scope') :
    ∃ old, s.scope? id = some old ∧ scope'.kind = old.kind ∧ scope'.parent = old.parent ∧
      ∀ w ∈ scope'.bindings.values, w = v ∨ w ∈ old.bindings.values := by
  rw [scope?_bind] at h
  obtain ⟨old, ho, rfl⟩ := Option.map_eq_some_iff.mp h
  refine ⟨old, ho, ?_⟩
  split
  · exact ⟨rfl, rfl, fun w hw ↦ Dict.mem_values_of_mem_values_set hw⟩
  · exact ⟨rfl, rfl, fun w hw ↦ .inr hw⟩

theorem persists_bind (s : State) (scope : Scope) (name : String) (v : Value) :
    s.Persists (s.bind scope name v) := by
  intro id old ho
  rw [scope?_bind, ho]
  refine ⟨_, rfl, ?_⟩
  dsimp only
  split <;> rfl

theorem Lexical.bind {name : String} {v : Value} (h : s.Lexical) (hv : v.Within s.Captures) :
    (s.bind scope name v).Lexical := by
  have hp := s.persists_bind scope name v
  have hheld : (s.bind scope name v).Holding s.Captures := by
    rw [bind_eq]
    refine ⟨Heap.All.retain ?_ v, h.held.promises, h.held.tasks⟩
    cases scope.bindings.get? name with
    | none => exact h.held.heap
    | some old => exact h.held.heap.release old
  have hscope (id : Nat) (scope' : Scope) (hs : (s.bind scope name v).scope? id = some scope') :=
    exists_of_scope?_bind hs
  rw [bind_eq] at hp hheld hscope ⊢
  refine h.of_extends hp rfl (fun _ ↦ id) (Nat.le_refl _) (fun id scope' hs ↦ ?_)
    (h.stacked.mono hp (fun _ _ hk ↦ hk) rfl) (fun id scope' hs hid w hw ↦ ?_) hheld
  · obtain ⟨old, ho, hkind, hparent, -⟩ := hscope id scope' hs
    exact .inl ⟨old, ho, hkind, hparent⟩
  · obtain ⟨old, ho, -, -, hbindings⟩ := hscope id scope' hs
    rcases hbindings w hw with rfl | hw
    · exact hv
    · exact h.bound id old ho hid w hw

theorem Lexical.recordVariable {name : String} {v : Value} {kind : BindingKind} (h : s.Lexical) :
    (s.recordVariable name v kind id).Lexical :=
  h.of_extends (.of_scopes_eq rfl) rfl (fun _ ↦ fun h ↦ h) (Nat.le_refl _)
    (fun _ scope hs ↦ .inl ⟨scope, hs, rfl, rfl⟩)
    (h.stacked.mono (.of_scopes_eq rfl) (fun _ _ hk ↦ hk) rfl) h.bound
    ⟨h.held.heap, h.held.promises, h.held.tasks⟩

/-- A state with other captured scopes. -/
def withCaptured (s : State) (captured : List Nat) : State := { s with captured }

@[simp]
theorem scope?_withCaptured (captured : List Nat) : (s.withCaptured captured).scope? id = s.scope? id := rfl

@[simp]
theorem headId_withCaptured (captured : List Nat) : (s.withCaptured captured).headId = s.headId := rfl

theorem Stacked.withCaptured {captured : List Nat} (h : s.Stacked frames chain) (hc : s.captured ⊆ captured) :
    (s.withCaptured captured).Stacked frames chain :=
  h.mono (.of_scopes_eq rfl) (fun _ _ hk ↦ hk.mono rfl hc) rfl

/-- Captured scopes that nothing needs are not visible either. -/
theorem visible_withCaptured {captured : List Nat} (h : s.Lexical) (hc : s.captured ⊆ captured) :
    (s.withCaptured captured).visible = s.visible :=
  (h.stacked.withCaptured hc : (s.withCaptured captured).Stacked s.frames s.chain).visible_eq.trans
    h.visible_eq.symm

/-- More captured scopes, all of them visible before. -/
theorem Lexical.withCaptured {captured : List Nat} (h : s.Lexical) (hc : s.captured ⊆ captured)
    (hids : ∀ id ∈ captured, id ∈ s.captured ∨ id ∈ s.lexicalIds) : (s.withCaptured captured).Lexical := by
  refine h.of_extends (t := s.withCaptured captured) (.of_scopes_eq rfl) rfl hc (Nat.le_refl _)
    (fun _ scope hs ↦ .inl ⟨scope, hs, rfl, rfl⟩)
    (h.stacked.withCaptured hc) (fun id scope hs hid ↦ ?_) ⟨h.held.heap, h.held.promises, h.held.tasks⟩
  refine h.bound id scope hs ?_
  rcases hid with hid | hid
  · exact .inl hid
  · rcases hids id hid with hid | hid
    · exact .inr hid
    · rcases mem_lexicalIds h.stacked hid with hid | hid | hid
      · exact .inl hid
      · exact .inl (List.mem_of_getLast? hid)
      · exact .inr hid

/-- A state with an innermost scope that was not there before. -/
def openScope (s : State) (scope : Scope) (rest : List Nat) (frames : List Frame) : State :=
  { s with lastId := scope.id, frames, chain := scope.id :: rest, scopes := scope :: s.scopes }

theorem scope?_openScope : (s.openScope scope rest frames).scope? id =
    if id = scope.id then some scope else s.scope? id := by
  simp only [scope?, openScope, List.find?_cons]
  by_cases hid : id = scope.id
  · rw [if_pos hid, beq_iff_eq.mpr hid.symm]
  · rw [if_neg hid, beq_eq_false_iff_ne.mpr (Ne.symm hid)]

theorem persists_openScope (h : s.Lexical) (hid : s.lastId < scope.id) :
    s.Persists (s.openScope scope rest frames) := by
  intro id old ho
  have hle := h.fresh id old ho
  rw [scope?_openScope, if_neg (by omega)]
  exact ⟨old, ho, rfl⟩

theorem Stacked.open (h : s.Stacked frames rest) (hp : s.Persists t) (hk : ∀ id, s.Keeps id → t.Keeps id)
    (hs : t.scope? id = some scope) (hparent : scope.parent = rest.head?) :
    t.Stacked frames (id :: rest) := by
  have h := h.mono hp (fun _ ↦ hk) rfl
  cases frames with
  | nil =>
    obtain ⟨parent, ids, rfl⟩ := List.exists_cons_of_ne_nil h.ne_nil
    exact .child hs hparent h
  | cons frame frames =>
    obtain ⟨own, rest, rfl, hown, hd, hl, hc, hrest⟩ := h
    obtain ⟨parent, own, rfl⟩ := List.exists_cons_of_ne_nil hown
    exact ⟨id :: parent :: own, rest, rfl, List.cons_ne_nil _ _, hd, .child hs hparent hl, hc, hrest⟩

theorem Stacked.parent_eq (h : s.Stacked frames (id :: rest)) (hrest : s.Stacked frames rest)
    (hs : s.scope? id = some scope) : scope.parent = rest.head? := by
  have hline {ids : List Nat} {parent : Nat} (hl : s.Lineage (id :: parent :: ids)) :
      scope.parent = some parent := by
    cases hl with
    | child hs' hp _ =>
      rw [hs] at hs'
      cases hs'
      exact hp
  cases frames with
  | nil =>
    obtain ⟨parent, ids, rfl⟩ := List.exists_cons_of_ne_nil hrest.ne_nil
    exact hline h
  | cons frame frames =>
    obtain ⟨own, outer, hchain, hown, hd, hl, -⟩ := h
    obtain ⟨own', outer', rfl, hown', hd', -⟩ := hrest
    obtain ⟨parent, own', rfl⟩ := List.exists_cons_of_ne_nil hown'
    have hown : own = id :: parent :: own' := by
      rw [← List.cons_append] at hchain
      exact (List.append_inj_left' hchain (hd'.symm.trans hd)).symm
    subst hown
    exact hline hl

theorem globalId?_openScope (hrest : rest ≠ []) :
    (s.openScope scope rest frames).globalId? = rest.getLast? := by
  obtain ⟨parent, rest, rfl⟩ := List.exists_cons_of_ne_nil hrest
  exact List.getLast?_cons_cons

theorem Lexical.openScope (h : s.Lexical) (hid : s.lastId < scope.id)
    (hlast : rest.getLast? = s.chain.getLast?) (hsub : rest ⊆ s.chain) (hkind : scope.kind ≠ .global)
    (hparent : scope.parent ≠ none) (hbindings : AllWithin s.Captures scope.bindings.values)
    (hstacked : (s.openScope scope rest frames).Stacked frames (scope.id :: rest)) :
    (s.openScope scope rest frames).Lexical := by
  have hne : rest ≠ [] := by
    rintro rfl
    exact h.stacked.ne_nil (List.getLast?_eq_none_iff.mp hlast.symm)
  have hg : (s.openScope scope rest frames).globalId? = s.globalId? := (globalId?_openScope hne).trans hlast
  refine h.of_extends (persists_openScope h hid) hg (fun _ hc ↦ hc) (Nat.le_of_lt hid) (fun id scope' hs ↦ ?_)
    hstacked (fun id scope' hs hid' ↦ ?_) ⟨h.held.heap, h.held.promises, h.held.tasks⟩
  · rw [scope?_openScope] at hs
    split at hs
    next e =>
      cases hs
      exact .inr ⟨e ▸ hid, Nat.le_of_eq e, hkind, hparent⟩
    next => exact .inl ⟨scope', hs, rfl, rfl⟩
  · rw [scope?_openScope] at hs
    split at hs
    next => cases hs; exact hbindings
    next hne =>
      refine h.bound id scope' hs ?_
      rcases hid' with hid' | hid'
      · exact .inl (hsub ((List.mem_cons.mp hid').resolve_left hne))
      · exact .inr hid'

/-- A scope opened in the innermost one, which may take the place of one that was closed. -/
theorem Lexical.openInner (h : s.Lexical) (hid : s.lastId < scope.id)
    (hlast : rest.getLast? = s.chain.getLast?) (hsub : rest ⊆ s.chain) (hkind : scope.kind ≠ .global)
    (hparent : scope.parent = rest.head?) (hbindings : AllWithin s.Captures scope.bindings.values)
    (hrest : s.Stacked s.frames rest) : (s.openScope scope rest s.frames).Lexical := by
  have hne := hrest.ne_nil
  have hkeep (id : Nat) (hk : s.Keeps id) : (s.openScope scope rest s.frames).Keeps id :=
    hk.mono ((globalId?_openScope hne).trans hlast) fun _ hc ↦ hc
  have hs : (s.openScope scope rest s.frames).scope? scope.id = some scope := by
    rw [scope?_openScope, if_pos rfl]
  refine h.openScope hid hlast hsub hkind ?_ hbindings (hrest.open (persists_openScope h hid) hkeep hs hparent)
  rw [hparent]
  exact fun e ↦ hne (List.head?_eq_none_iff.mp e)

/-- The scope of a call, whose parent is the innermost one that the function captured. -/
theorem Lexical.openCall {frame : Frame} (h : s.Lexical) (hid : s.lastId < scope.id) (hkind : scope.kind ≠ .global)
    (hd : frame.depth = s.chain.length) (hc : s.Closed frame.closure)
    (hparent : scope.parent = frame.closure.head?) (hbindings : AllWithin s.Captures scope.bindings.values) :
    (s.openScope scope s.chain (frame :: s.frames)).Lexical := by
  have hp : s.Persists (s.openScope scope s.chain (frame :: s.frames)) := persists_openScope h hid
  have hkeep (id : Nat) (hk : s.Keeps id) : (s.openScope scope s.chain (frame :: s.frames)).Keeps id :=
    hk.mono (globalId?_openScope h.stacked.ne_nil) fun _ hc ↦ hc
  have hs : (s.openScope scope s.chain (frame :: s.frames)).scope? scope.id = some scope := by
    rw [scope?_openScope, if_pos rfl]
  have hc' := hc.mono hp hkeep
  obtain ⟨parent, ids, hclosure⟩ := List.exists_cons_of_ne_nil hc.lineage.ne_nil
  have hparent' : scope.parent = some parent := by rw [hparent, hclosure]; rfl
  refine h.openScope hid rfl (fun _ hm ↦ hm) hkind (by rw [hparent']; exact nofun) hbindings
    ⟨[scope.id], s.chain, rfl, nofun, hd, ?_, hc', h.stacked.mono hp (fun _ ↦ hkeep) rfl⟩
  rw [hclosure] at hc' ⊢
  exact .child hs hparent' hc'.lineage

/-- A state in which scopes were closed, and perhaps calls left. -/
theorem Lexical.close (h : s.Lexical) (hlast : chain.getLast? = s.chain.getLast?) (hsub : chain ⊆ s.chain)
    (hstacked : s.Stacked frames chain) : { s with chain, frames }.Lexical :=
  h.of_extends (t := { s with chain, frames }) (.of_scopes_eq rfl) hlast (fun _ hc ↦ hc) (Nat.le_refl _)
    (fun _ scope hs ↦ .inl ⟨scope, hs, rfl, rfl⟩)
    (hstacked.mono (.of_scopes_eq rfl) (fun _ _ hk ↦ hk.imp (hlast.trans ·) (fun hc ↦ hc)) rfl)
    (fun id scope hs hid ↦ h.bound id scope hs (hid.imp_left (hsub ·)))
    ⟨h.held.heap, h.held.promises, h.held.tasks⟩

/-- What is noted down in the frames of calls does not matter. -/
theorem Lexical.withFrames (h : s.Lexical) (hshape : frames.map Frame.shape = s.frames.map Frame.shape) :
    { s with frames }.Lexical :=
  h.close rfl (fun _ hc ↦ hc) (h.stacked.mono (.refl s) (fun _ _ hk ↦ hk) hshape)

theorem mem_foldl_capture {globalId : Nat} {captured : List Nat} :
    id ∈ ids.foldl (fun captured id ↦ if id = globalId || id ∈ captured then captured else captured ++ [id])
      captured ↔ id ∈ captured ∨ id ∈ ids ∧ id ≠ globalId := by
  induction ids generalizing captured with
  | nil => simp
  | cons i ids ih =>
    rw [List.foldl_cons, ih, List.mem_cons]
    by_cases hi : i = globalId || i ∈ captured
    · rw [if_pos hi]
      simp only [Bool.or_eq_true, decide_eq_true_eq] at hi
      grind
    · rw [if_neg hi, List.mem_append, List.mem_singleton]
      simp only [Bool.or_eq_true, decide_eq_true_eq] at hi
      grind

end State

end Stepwise
