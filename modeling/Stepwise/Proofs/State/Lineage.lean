import Stepwise.State.Reachability
import Stepwise.State.Scoping
import Stepwise.Proofs.Dict
/-!
Scopes and their parents. The scopes that are visible at a point of a program form the line of
parents that starts at the innermost open scope, as long as the open scopes are stacked up from
such lines.
-/

namespace Stepwise

namespace State

variable {s t : State} {id : Nat} {ids : List Nat}

/-- A line of scopes, each followed by its parent, down to one without a parent. -/
inductive Lineage (s : State) : List Nat → Prop
  | root {id : Nat} {scope : Scope} :
      s.scope? id = some scope → scope.parent = none → Lineage s [id]
  | child {id parent : Nat} {ids : List Nat} {scope : Scope} :
      s.scope? id = some scope → scope.parent = some parent → Lineage s (parent :: ids) →
      Lineage s (id :: parent :: ids)

/-- The scopes that a name can be looked up in however far away they were opened. -/
def Keeps (s : State) (id : Nat) : Prop := s.globalId? = some id ∨ id ∈ s.captured

/-- A line of scopes none of which is skipped when a function that captured them is called. -/
structure Closed (s : State) (ids : List Nat) : Prop where
  lineage : s.Lineage ids
  kept : ∀ id ∈ ids, s.Keeps id

/-- The open scopes of nested calls: those that the innermost call opened continue the line that
its function captured, and below them come the open scopes of the calls around it. -/
def Stacked (s : State) : List Frame → List Nat → Prop
  | [], chain => s.Lineage chain
  | frame :: frames, chain => ∃ own rest, chain = own ++ rest ∧ own ≠ [] ∧
      frame.depth = rest.length ∧ s.Lineage (own ++ frame.closure) ∧ s.Closed frame.closure ∧
      Stacked s frames rest

theorem id_of_scope? {scope : Scope} (h : s.scope? id = some scope) : scope.id = id := by
  have hid := List.find?_some h
  simpa using hid

namespace Lineage

theorem ne_nil (h : s.Lineage ids) : ids ≠ [] := by cases h <;> exact nofun

theorem exists_scope (h : s.Lineage ids) : ∀ id ∈ ids, ∃ scope, s.scope? id = some scope := by
  induction h with
  | root hs _ => exact List.forall_mem_singleton.mpr ⟨_, hs⟩
  | child hs _ _ ih => exact List.forall_mem_cons.mpr ⟨⟨_, hs⟩, ih⟩

theorem exists_root (h : s.Lineage ids) :
    ∃ id scope, ids.getLast? = some id ∧ s.scope? id = some scope ∧ scope.parent = none := by
  induction h with
  | root hs hr => exact ⟨_, _, rfl, hs, hr⟩
  | child _ _ _ ih =>
    obtain ⟨id, scope, hid, hs⟩ := ih
    exact ⟨id, scope, by rw [List.getLast?_cons_cons]; exact hid, hs⟩

/-- The parents of a scope are determined by it. -/
theorem unique {ids' : List Nat} (h : s.Lineage ids) (h' : s.Lineage ids')
    (e : ids.head? = ids'.head?) : ids = ids' := by
  induction h generalizing ids' with
  | root hs hr =>
    cases h' with
    | root _ _ => simpa using e
    | child hs' hp' _ =>
      obtain rfl := Option.some.inj e
      rw [hs] at hs'
      cases hs'
      rw [hr] at hp'
      cases hp'
  | child hs hp _ ih =>
    cases h' with
    | root hs' hr' =>
      obtain rfl := Option.some.inj e
      rw [hs] at hs'
      cases hs'
      rw [hp] at hr'
      cases hr'
    | child hs' hp' hl' =>
      obtain rfl := Option.some.inj e
      rw [hs] at hs'
      cases hs'
      rw [hp] at hp'
      cases hp'
      rw [ih hl' rfl]

theorem filterMap_scope? (h : s.Lineage ids) : (ids.filterMap s.scope?).map (·.id) = ids := by
  have hscope := h.exists_scope
  clear h
  induction ids with
  | nil => rfl
  | cons id ids ih =>
    obtain ⟨⟨scope, hs⟩, hrest⟩ := List.forall_mem_cons.mp hscope
    rw [List.filterMap_cons_some hs, List.map_cons, ih hrest, id_of_scope? hs]

end Lineage

/-- Every scope is still there, with the same parent. -/
def Persists (s t : State) : Prop :=
  ∀ id scope, s.scope? id = some scope →
    ∃ scope', t.scope? id = some scope' ∧ scope'.parent = scope.parent

theorem Persists.refl (s : State) : s.Persists s := fun _ scope h ↦ ⟨scope, h, rfl⟩

theorem Persists.of_scopes_eq (h : t.scopes = s.scopes) : s.Persists t := fun id scope hs ↦
  ⟨scope, by rw [scope?, h]; exact hs, rfl⟩

theorem Persists.trans {u : State} (h : s.Persists t) (h' : t.Persists u) : s.Persists u := by
  intro id scope hs
  obtain ⟨scope₁, hs₁, hp₁⟩ := h id scope hs
  obtain ⟨scope₂, hs₂, hp₂⟩ := h' id scope₁ hs₁
  exact ⟨scope₂, hs₂, hp₂.trans hp₁⟩

theorem Lineage.mono (h : s.Lineage ids) (hp : s.Persists t) : t.Lineage ids := by
  induction h with
  | root hs hr =>
    obtain ⟨scope, hs', hp'⟩ := hp _ _ hs
    exact .root hs' (hp'.trans hr)
  | child hs hc _ ih =>
    obtain ⟨scope, hs', hp'⟩ := hp _ _ hs
    exact .child hs' (hp'.trans hc) ih

theorem Closed.mono (h : s.Closed ids) (hp : s.Persists t) (hk : ∀ id, s.Keeps id → t.Keeps id) :
    t.Closed ids := ⟨h.lineage.mono hp, fun id hid ↦ hk id (h.kept id hid)⟩

theorem Keeps.mono (h : s.Keeps id) (hg : t.globalId? = s.globalId?) (hc : s.captured ⊆ t.captured) :
    t.Keeps id := h.imp (hg.trans ·) (hc ·)

end State

/-- What the scopes of a call depend on. -/
def Frame.shape (frame : Frame) : Nat × List Nat := (frame.depth, frame.closure)

namespace State

variable {s t : State} {id : Nat} {frames : List Frame} {chain : List Nat}

theorem Stacked.ne_nil (h : s.Stacked frames chain) : chain ≠ [] := by
  cases frames with
  | nil => exact Lineage.ne_nil h
  | cons frame frames =>
    obtain ⟨own, rest, rfl, hown, -⟩ := h
    exact List.append_ne_nil_of_left_ne_nil hown rest

/-- Outside of calls nothing needs to be kept for the open scopes. -/
theorem Stacked.mono {frames' : List Frame} (h : s.Stacked frames chain) (hp : s.Persists t)
    (hk : frames ≠ [] → ∀ id, s.Keeps id → t.Keeps id)
    (hshape : frames'.map Frame.shape = frames.map Frame.shape) : t.Stacked frames' chain := by
  induction frames generalizing frames' chain with
  | nil =>
    obtain rfl := List.map_eq_nil_iff.mp hshape
    exact Lineage.mono h hp
  | cons frame frames ih =>
    obtain ⟨frame', frames', rfl, hf, hfs⟩ := List.map_eq_cons_iff.mp hshape
    obtain ⟨hdepth, hclosure⟩ := Prod.mk.inj hf
    obtain ⟨own, rest, rfl, hown, hd, hl, hc, hrest⟩ := h
    have hk' := hk (List.cons_ne_nil _ _)
    refine ⟨own, rest, rfl, hown, hdepth.trans hd, ?_, ?_, ih hrest (fun _ ↦ hk') hfs⟩
    · rw [hclosure]
      exact hl.mono hp
    · rw [hclosure]
      exact hc.mono hp hk'

/-- The scopes that are open in the innermost call and those that its function captured. -/
def lexicalIds (s : State) : List Nat :=
  match s.frames with
  | [] => s.chain
  | frame :: _ => s.ownIds frame ++ frame.closure

theorem ownIds_eq {frame : Frame} {own rest : List Nat} (hchain : s.chain = own ++ rest)
    (hd : frame.depth = rest.length) : s.ownIds frame = own := by
  simp only [ownIds, hchain, hd, List.length_append]
  rw [if_pos (by omega), Nat.add_sub_cancel]
  exact List.take_left

theorem lexicalIds_nil (hf : s.frames = []) : s.lexicalIds = s.chain := by
  simp only [lexicalIds, hf]

theorem lexicalIds_cons {frame : Frame} {own rest : List Nat} (hf : s.frames = frame :: frames)
    (hchain : s.chain = own ++ rest) (hd : frame.depth = rest.length) :
    s.lexicalIds = own ++ frame.closure := by
  simp only [lexicalIds, hf, ownIds_eq hchain hd]

/-- No scope that a function captured is skipped. -/
theorem Closed.filter_eq {globalId : Nat} {ids : List Nat} (h : s.Closed ids)
    (hg : s.globalId? = some globalId) :
    (ids.filter fun id ↦ id = globalId || id ∈ s.captured) = ids := by
  refine List.filter_eq_self.mpr fun id hid ↦ ?_
  rcases h.kept id hid with hk | hk
  · simp [Option.some.inj (hg.symm.trans hk)]
  · simp [hk]

theorem visibleIds_eq (h : s.Stacked s.frames s.chain) : s.visibleIds = .ok s.lexicalIds := by
  cases hf : s.frames with
  | nil => simp only [visibleIds, lexicalIds, hf]
  | cons frame frames =>
    have hg := List.getLast?_eq_some_getLast h.ne_nil
    rw [hf] at h
    obtain ⟨-, -, -, -, -, -, hc, -⟩ := h
    simp only [visibleIds, lexicalIds, hf, globalId?, hg, hc.filter_eq hg]

theorem lineage_lexicalIds (h : s.Stacked s.frames s.chain) : s.Lineage s.lexicalIds := by
  cases hf : s.frames with
  | nil =>
    rw [hf] at h
    rw [lexicalIds_nil hf]
    exact h
  | cons frame frames =>
    rw [hf] at h
    obtain ⟨own, rest, hchain, -, hd, hl, -, -⟩ := h
    rw [lexicalIds_cons hf hchain hd]
    exact hl

theorem head?_lexicalIds (h : s.Stacked s.frames s.chain) : s.lexicalIds.head? = s.chain.head? := by
  cases hf : s.frames with
  | nil => rw [lexicalIds_nil hf]
  | cons frame frames =>
    rw [hf] at h
    obtain ⟨own, rest, hchain, hown, hd, -⟩ := h
    obtain ⟨id, own, rfl⟩ := List.exists_cons_of_ne_nil hown
    rw [lexicalIds_cons hf hchain hd, hchain]
    rfl

theorem mem_lexicalIds (h : s.Stacked s.frames s.chain) (hid : id ∈ s.lexicalIds) :
    id ∈ s.chain ∨ s.Keeps id := by
  cases hf : s.frames with
  | nil => exact .inl (lexicalIds_nil hf ▸ hid)
  | cons frame frames =>
    rw [hf] at h
    obtain ⟨own, rest, hchain, -, hd, -, hc, -⟩ := h
    rw [lexicalIds_cons hf hchain hd] at hid
    rcases List.mem_append.mp hid with hid | hid
    · exact .inl (hchain ▸ List.mem_append_left rest hid)
    · exact .inr (hc.kept id hid)

end State

end Stepwise
