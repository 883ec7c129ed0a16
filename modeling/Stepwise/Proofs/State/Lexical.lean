import Stepwise.Proofs.State.Lineage
import Stepwise.Proofs.State.Storage
/-!
Lexical scoping as an invariant of states: the open scopes are stacked up from lines of parents,
and every function that can still be called captured such a line, none of which is forgotten.
-/

namespace Stepwise

namespace State

variable {s t : State} {id : Nat} {ids : List Nat}

/-- At this point of a run names are looked up where the text of the program says: the visible
scopes are the innermost open one, its parent and so on down to the only global scope, and no scope
that the running function captured is skipped. -/
structure LexicallyScoped (s : State) : Prop where
  line : ∃ scopes, s.visible = .ok scopes ∧ s.Lineage (scopes.map (·.id)) ∧
    (scopes.map (·.id)).head? = s.chain.head? ∧ (scopes.map (·.id)).getLast? = s.globalId?
  global : ∀ id scope, s.scope? id = some scope → (scope.kind = .global ↔ s.globalId? = some id)
  closure : ∀ frame ∈ s.frames.head?, ∀ id ∈ frame.closure, s.globalId? = some id ∨ id ∈ s.captured

/-- The functions whose captured scopes are all kept. -/
def Captures (s : State) (f : Function) : Prop := s.Closed f.closure

structure Lexical (s : State) : Prop where
  fresh : ∀ id scope, s.scope? id = some scope → id ≤ s.lastId
  root : ∀ id scope, s.scope? id = some scope → (scope.parent = none ↔ s.globalId? = some id)
  global : ∀ id scope, s.scope? id = some scope → (scope.kind = .global ↔ s.globalId? = some id)
  stacked : s.Stacked s.frames s.chain
  bound : ∀ id scope, s.scope? id = some scope → id ∈ s.chain ∨ id ∈ s.captured →
    AllWithin s.Captures scope.bindings.values
  held : s.Holding s.Captures

theorem Holding.mono {F G : Function → Prop} (h : s.Holding F) (hFG : ∀ f, F f → G f) : s.Holding G :=
  ⟨fun cell hc v hv ↦ (h.heap cell hc v hv).mono hFG, fun p hp v hv ↦ (h.promises p hp v hv).mono hFG,
    fun task ht v hv ↦ (h.tasks task ht v hv).mono hFG⟩

/-- Everything that is open stays within reach of the scope without a parent. -/
theorem Stacked.exists_root {frames : List Frame} {chain : List Nat} (h : s.Stacked frames chain) :
    ∃ id scope, chain.getLast? = some id ∧ s.scope? id = some scope ∧ scope.parent = none := by
  induction frames generalizing chain with
  | nil => exact Lineage.exists_root h
  | cons frame frames ih =>
    obtain ⟨own, rest, rfl, -, -, -, -, hrest⟩ := h
    obtain ⟨id, scope, hid, hs, hp⟩ := ih hrest
    exact ⟨id, scope, by rw [List.getLast?_append, hid]; rfl, hs, hp⟩

theorem Stacked.exists_scope {frames : List Frame} {chain : List Nat} (h : s.Stacked frames chain) :
    ∀ id ∈ chain, ∃ scope, s.scope? id = some scope := by
  induction frames generalizing chain with
  | nil => exact Lineage.exists_scope h
  | cons frame frames ih =>
    obtain ⟨own, rest, rfl, -, -, hl, -, hrest⟩ := h
    exact List.forall_mem_append.mpr ⟨(List.forall_mem_append.mp hl.exists_scope).1, ih hrest⟩

/-- So are the scopes that the functions called captured. -/
theorem Stacked.exists_scope_of_closure {frames : List Frame} {chain : List Nat} (h : s.Stacked frames chain) :
    ∀ frame ∈ frames, ∀ id ∈ frame.closure, ∃ scope, s.scope? id = some scope := by
  induction frames generalizing chain with
  | nil => exact List.forall_mem_nil _
  | cons frame frames ih =>
    obtain ⟨own, rest, -, -, -, -, hclosed, hrest⟩ := h
    exact List.forall_mem_cons.mpr ⟨hclosed.lineage.exists_scope, ih hrest⟩

theorem Stacked.visible_eq (h : s.Stacked s.frames s.chain) :
    s.visible = .ok (s.lexicalIds.filterMap s.scope?) := by
  unfold visible
  rw [visibleIds_eq h]
  rfl

namespace Lexical

theorem captures_mono {f : Function} (hp : s.Persists t) (hg : t.globalId? = s.globalId?)
    (hc : s.captured ⊆ t.captured) (hf : s.Captures f) : t.Captures f :=
  Closed.mono hf hp fun _ hk ↦ hk.mono hg hc

theorem globalId?_le (h : s.Lexical) (hg : s.globalId? = some id) : id ≤ s.lastId := by
  obtain ⟨id', scope, hid, hs, -⟩ := h.stacked.exists_root
  obtain rfl := Option.some.inj (hid.symm.trans hg)
  exact h.fresh _ scope hs

/-- A state that goes on from another one: its scopes are those of the other with their kinds and
parents, or new ones inside of them, and it binds and stores no other functions. -/
theorem of_extends (h : s.Lexical) (hp : s.Persists t) (hg : t.globalId? = s.globalId?)
    (hc : s.captured ⊆ t.captured) (hlast : s.lastId ≤ t.lastId)
    (hscope : ∀ id scope, t.scope? id = some scope →
      (∃ old, s.scope? id = some old ∧ scope.kind = old.kind ∧ scope.parent = old.parent) ∨
      (s.lastId < id ∧ id ≤ t.lastId ∧ scope.kind ≠ .global ∧ scope.parent ≠ none))
    (hstacked : t.Stacked t.frames t.chain)
    (hbound : ∀ id scope, t.scope? id = some scope → id ∈ t.chain ∨ id ∈ t.captured →
      AllWithin s.Captures scope.bindings.values)
    (hheld : t.Holding s.Captures) : t.Lexical := by
  have hmono (f : Function) (hf : s.Captures f) : t.Captures f := captures_mono hp hg hc hf
  have hnew {id : Nat} (hid : s.lastId < id) : t.globalId? ≠ some id := fun e ↦
    absurd (h.globalId?_le (hg.symm.trans e)) (by omega)
  refine ⟨fun id scope hs ↦ ?_, fun id scope hs ↦ ?_, fun id scope hs ↦ ?_, hstacked,
    fun id scope hs hid v hv ↦ ?_, hheld.mono hmono⟩
  · rcases hscope id scope hs with ⟨old, ho, -⟩ | ⟨-, hid, -⟩
    · exact Nat.le_trans (h.fresh id old ho) hlast
    · exact hid
  · rcases hscope id scope hs with ⟨old, ho, -, hparent⟩ | ⟨hid, -, -, hparent⟩
    · rw [hparent, hg]
      exact h.root id old ho
    · exact iff_of_false hparent (hnew hid)
  · rcases hscope id scope hs with ⟨old, ho, hkind, -⟩ | ⟨hid, -, hkind, -⟩
    · rw [hkind, hg]
      exact h.global id old ho
    · exact iff_of_false hkind (hnew hid)
  · exact (hbound id scope hs hid v hv).mono hmono

theorem withScoping (h : s.Lexical) (hlast : s.lastId ≤ t.lastId) (hheld : t.Holding s.Captures) :
    (t.withScoping s).Lexical :=
  h.of_extends (.of_scopes_eq rfl) rfl (fun _ ↦ id) hlast (fun _ scope hs ↦ .inl ⟨scope, hs, rfl, rfl⟩)
    (h.stacked.mono (.of_scopes_eq rfl) (fun _ _ hk ↦ hk) rfl) h.bound (hheld.withScoping s)

theorem visible_eq (h : s.Lexical) : s.visible = .ok (s.lexicalIds.filterMap s.scope?) :=
  h.stacked.visible_eq

theorem lexicallyScoped (h : s.Lexical) : s.LexicallyScoped := by
  have hl := lineage_lexicalIds h.stacked
  refine ⟨⟨_, h.visible_eq, ?_⟩, h.global, fun frame hframe id hid ↦ ?_⟩
  · rw [hl.filterMap_scope?]
    refine ⟨hl, head?_lexicalIds h.stacked, ?_⟩
    obtain ⟨id, scope, hid, hs, hr⟩ := hl.exists_root
    rw [hid]
    exact ((h.root id scope hs).mp hr).symm
  · obtain ⟨frames, hf⟩ := List.head?_eq_some_iff.mp hframe
    have hstacked := h.stacked
    rw [hf] at hstacked
    obtain ⟨own, rest, -, -, -, -, hclosed, -⟩ := hstacked
    exact hclosed.kept id hid

theorem captures_of_mem_visible (h : s.Lexical) {scope : Scope}
    (hs : scope ∈ s.lexicalIds.filterMap s.scope?) : AllWithin s.Captures scope.bindings.values := by
  obtain ⟨id, hid, hs⟩ := List.mem_filterMap.mp hs
  refine h.bound id scope hs ?_
  rcases mem_lexicalIds h.stacked hid with hid | hid | hid
  · exact .inl hid
  · exact .inl (List.mem_of_getLast? hid)
  · exact .inr hid

end Lexical

end State

end Stepwise
