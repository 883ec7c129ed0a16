import Stepwise.Proofs.State.Numbering
import Stepwise.Proofs.State.Operation
/-!
Where variables are at home: in the scope of the innermost call, or in the global one outside of calls, as long
as only blocks are open inside of it. What is hoisted there stays bound there.
-/

namespace Stepwise

theorem Dict.keys_set_of_mem {κ α : Type} [DecidableEq κ] {d : Dict κ α} {k : κ} (h : k ∈ d.keys) (a : α) :
    (d.set k a).keys = d.keys := by
  cases hk : d.get? k with
  | none => exact absurd h (Dict.get?_eq_none_iff.mp hk)
  | some b =>
    have hmodify : d.modify k (fun _ ↦ a) = d.set k a := by
      unfold modify
      rw [hk]
    rw [← hmodify, keys_modify]

theorem Dict.mem_keys_set {κ α : Type} [DecidableEq κ] (d : Dict κ α) (k : κ) (a : α) : k ∈ (d.set k a).keys := by
  by_contra h
  have hnone := Dict.get?_eq_none_iff.mpr h
  rw [Dict.get?_set, if_pos rfl] at hnone
  cases hnone

theorem Dict.mem_keys_of_contains {κ α : Type} [DecidableEq κ] {d : Dict κ α} {k : κ} (h : d.contains k = true) :
    k ∈ d.keys := by
  by_contra hk
  rw [contains, Dict.get?_eq_none_iff.mpr hk] at h
  cases h

namespace State

variable {s t u : State} {home id : Nat} {names : List String} {name : String} {v : Value} {scope : Scope}

/-- The names that a scope binds. -/
def namesIn? (s : State) (id : Nat) : Option (List String) := (s.scope? id).map (·.bindings.keys)

/-- Binding what a scope binds already brings in no name. -/
theorem namesIn?_bind (hscope : s.scope? id = some scope) (hname : name ∈ scope.bindings.keys) (v : Value) (i : Nat) :
    (s.bind scope name v).namesIn? i = s.namesIn? i := by
  unfold namesIn?
  rw [scope?_bind]
  cases hold : s.scope? i with
  | none => rfl
  | some old =>
    rw [Option.map_some, Option.map_some, Option.map_some, Option.some_inj]
    split
    next hid =>
      have hsame : old = scope := by
        rw [id_of_scope? hold, id_of_scope? hscope] at hid
        subst hid
        exact Option.some.inj (hold.symm.trans hscope)
      exact Dict.keys_set_of_mem (hsame ▸ hname) v
    next => rfl

/-- A name is a variable at home in a scope: that is the one that a declaration of the variable goes to, and the name is
bound there. -/
structure Hoisted (s : State) (home : Nat) (name : String) : Prop where
  functionScope : s.functionScope = .ok home
  bound : ∃ names, s.namesIn? home = some names ∧ name ∈ names

/-- Variables of the running function, or of the top level, belong to a scope that binds certain names, and only blocks
are open inside of it. -/
structure Houses (s : State) (home : Nat) (names : List String) : Prop where
  line : ∃ blocks outer, s.chain = blocks ++ home :: outer ∧ (∀ frame ∈ s.frames.head?, frame.depth = outer.length) ∧
    ∀ id ∈ blocks, ∃ scope, s.scope? id = some scope ∧ scope.kind = .block
  scope : ∃ scope, s.scope? home = some scope ∧ (scope.kind = .function ∨ scope.kind = .global) ∧
    ∀ name ∈ names, name ∈ scope.bindings.keys

namespace Houses

variable (h : s.Houses home names)
include h

/-- The scopes looked at first are those of the blocks and then the home itself. -/
theorem exists_visibleIds : ∃ blocks outer, s.visibleIds = .ok (blocks ++ home :: outer) ∧
    ∀ id ∈ blocks, ∃ scope, s.scope? id = some scope ∧ scope.kind = .block := by
  obtain ⟨blocks, outer, hchain, hdepth, hblocks⟩ := h.line
  unfold visibleIds
  cases hf : s.frames with
  | nil => exact ⟨blocks, outer, by rw [hchain], hblocks⟩
  | cons frame frames =>
    have hchain' : s.chain = (blocks ++ [home]) ++ outer := by
      rw [hchain, List.append_assoc, List.singleton_append]
    have hown := ownIds_eq hchain' (hdepth frame (by rw [hf]; rfl))
    have hne : s.chain ≠ [] := hchain ▸ List.append_ne_nil_of_right_ne_nil blocks (List.cons_ne_nil home outer)
    have hglobal : s.globalId? = some (s.chain.getLast hne) := List.getLast?_eq_some_getLast hne
    dsimp only
    rw [hglobal, hown]
    exact ⟨blocks, _, congrArg Except.ok (List.append_assoc blocks [home] _), hblocks⟩

/-- A variable of the function goes home. -/
theorem functionScope_eq : s.functionScope = .ok home := by
  obtain ⟨blocks, outer, hids, hblocks⟩ := h.exists_visibleIds
  obtain ⟨scope, hscope, hkind, -⟩ := h.scope
  have hfind : ((blocks ++ home :: outer).filterMap s.scope?).find?
      (fun scope ↦ scope.kind = .function || scope.kind = .global) = some scope := by
    rw [List.filterMap_append, List.filterMap_cons_some hscope, List.find?_append, List.find?_eq_none.mpr, Option.none_or,
      List.find?_cons_of_pos]
    · rcases hkind with hkind | hkind <;> rw [hkind] <;> rfl
    · intro block hblock
      obtain ⟨id, hid, hblock⟩ := List.mem_filterMap.mp hblock
      obtain ⟨scope', hscope', hkind'⟩ := hblocks id hid
      cases hblock.symm.trans hscope'
      rw [hkind']
      decide
  unfold functionScope visible
  rw [hids]
  simp only [Bind.bind, Except.bind, Pure.pure, Except.pure]
  rw [hfind, ← id_of_scope? hscope]

theorem hoisted (hname : name ∈ names) : s.Hoisted home name := by
  obtain ⟨scope, hscope, -, hnames⟩ := h.scope
  refine ⟨h.functionScope_eq, scope.bindings.keys, ?_, hnames name hname⟩
  rw [namesIn?, hscope, Option.map_some]

theorem mono (hchain : t.chain = s.chain) (hframes : ∀ frame ∈ t.frames.head?, ∃ old ∈ s.frames.head?, frame.depth = old.depth)
    (hretains : s.Retains t) : t.Houses home names := by
  obtain ⟨blocks, outer, hline, hdepth, hblocks⟩ := h.line
  obtain ⟨old, hold, hkind, hnames⟩ := h.scope
  refine ⟨⟨blocks, outer, hchain.trans hline, fun frame hframe ↦ ?_, fun id hid ↦ ?_⟩, ?_⟩
  · obtain ⟨old, hold, hdepth'⟩ := hframes frame hframe
    exact hdepth'.trans (hdepth old hold)
  · obtain ⟨block, hblock, hkind⟩ := hblocks id hid
    obtain ⟨scope, hscope, hremains⟩ := hretains id block hblock
    exact ⟨scope, hscope, hremains.kind.trans hkind⟩
  · obtain ⟨scope, hscope, hremains⟩ := hretains home old hold
    exact ⟨scope, hscope, hremains.kind ▸ hkind, fun name hname ↦ hremains.bindings.subset (hnames name hname)⟩

theorem mono_frames (hchain : t.chain = s.chain) (hframes : t.frames = s.frames) (hretains : s.Retains t) :
    t.Houses home names :=
  h.mono hchain (fun frame hframe ↦ ⟨frame, hframes ▸ hframe, rfl⟩) hretains

theorem subset {names' : List String} (hsub : names' ⊆ names) : s.Houses home names' := by
  obtain ⟨scope, hscope, hkind, hnames⟩ := h.scope
  exact ⟨h.line, scope, hscope, hkind, fun name hname ↦ hnames name (hsub hname)⟩

theorem cons (hscope : s.scope? home = some scope) (hname : name ∈ scope.bindings.keys) : s.Houses home (name :: names) := by
  obtain ⟨old, hold, hkind, hnames⟩ := h.scope
  cases hold.symm.trans hscope
  exact ⟨h.line, scope, hscope, hkind, List.forall_mem_cons.mpr ⟨hname, hnames⟩⟩

/-- In a block that is opened inside the variables are still at home, and so they are when a scope inside is renewed. -/
theorem openBlock {rest : List Nat} (hs : s.Numbered) (hid : s.lastId < scope.id) (hkind : scope.kind = .block)
    (hrest : rest = s.chain ∨ rest = s.chain.tail ∧ s.chain.head? ≠ some home) :
    (s.openScope scope rest s.frames).Houses home names := by
  have hretains := retains_openScope rest s.frames hs hid
  have hnew : (s.openScope scope rest s.frames).scope? scope.id = some scope := by
    rw [scope?_openScope, if_pos rfl]
  obtain ⟨blocks, outer, hline, hdepth, hblocks⟩ := h.line
  have hkept (id : Nat) (hmem : id ∈ blocks) :
      ∃ scope', (s.openScope scope rest s.frames).scope? id = some scope' ∧ scope'.kind = .block := by
    obtain ⟨block, hblock, hkind⟩ := hblocks id hmem
    obtain ⟨scope', hscope', hremains⟩ := hretains id block hblock
    exact ⟨scope', hscope', hremains.kind.trans hkind⟩
  obtain ⟨old, hold, hkind', hnames⟩ := h.scope
  obtain ⟨found, hfound, hremains⟩ := hretains home old hold
  refine ⟨?_, found, hfound, hremains.kind ▸ hkind', fun name hname ↦ hremains.bindings.subset (hnames name hname)⟩
  rcases hrest with rfl | ⟨rfl, hhead⟩
  · exact ⟨scope.id :: blocks, outer, congrArg (scope.id :: ·) hline, hdepth,
      List.forall_mem_cons.mpr ⟨⟨scope, hnew, hkind⟩, hkept⟩⟩
  · cases blocks with
    | nil =>
      rw [hline] at hhead
      exact absurd rfl hhead
    | cons block blocks =>
      refine ⟨scope.id :: blocks, outer, ?_, hdepth, List.forall_mem_cons.mpr ⟨⟨scope, hnew, hkind⟩, fun id hmem ↦
        hkept id (List.mem_cons_of_mem block hmem)⟩⟩
      change scope.id :: s.chain.tail = _
      rw [hline]
      rfl

/-- Binding a name at home is another way to get it there. -/
theorem bind (hscope : s.scope? home = some scope) (name : String) (v : Value) :
    (s.bind scope name v).Houses home (name :: names) := by
  have hkept : (s.bind scope name v).Houses home names := by
    apply h.mono_frames
    · rw [bind_eq]
    · rw [bind_eq]
    · exact retains_bind s scope name v
  have hnew : (s.bind scope name v).scope? home = some { scope with bindings := scope.bindings.set name v } := by
    rw [scope?_bind, hscope, Option.map_some, if_pos rfl]
  exact hkept.cons hnew (Dict.mem_keys_set scope.bindings name v)

theorem declare (hname : name ∈ names) (v : Value) :
    ∃ t, Engine.declare name v .functionScoped (some home) s = .ok () t ∧ t.Houses home names ∧
      ∀ id, t.namesIn? id = s.namesIn? id := by
  obtain ⟨scope, hscope, -, hnames⟩ := h.scope
  refine ⟨_, Engine.declare_of_scope? hscope name v .functionScoped, ?_, ?_⟩
  · exact ((h.bind hscope name v).subset (List.subset_cons_self name names)).mono_frames rfl rfl (.of_scopes_eq rfl)
  · exact namesIn?_bind hscope (hnames name hname) v

end Houses

end State

end Stepwise
