import Stepwise.Proofs.Run.Stacking
import Stepwise.Proofs.Run.Naming
/-!
What a call stands on. Below the frames and scopes that a call brings with it are those of its
caller; two states that differ in these alone look the same from inside of the call.
-/

namespace Stepwise

/-- A frame of a call that was entered with a number of further scopes open. -/
def Frame.raise (n : Nat) (f : Frame) : Frame := { f with depth := n + f.depth }

theorem Frame.raise_injective (n : Nat) : Function.Injective (raise n) := by
  rintro ⟨id, name, line, arguments, locals, scope, depth, closure⟩
    ⟨id', name', line', arguments', locals', scope', depth', closure'⟩ h
  simp only [raise, mk.injEq] at h
  obtain ⟨rfl, rfl, rfl, rfl, rfl, rfl, hdepth, rfl⟩ := h
  obtain rfl := Nat.add_left_cancel hdepth
  rfl

/-- The stack tells which frames are those on top of others. -/
theorem Frame.own_eq {n : Nat} {own own' frames : List Frame}
    (h : own.map (.raise n) ++ frames = own'.map (.raise n) ++ frames) : own = own' :=
  List.map_injective_iff.mpr (Frame.raise_injective n) (List.append_cancel_right h)

namespace State

/-- Two states with everything in common but the calls in progress and such open scopes as are
neither global nor captured. -/
structure Agree (s t : State) : Prop where
  rest : ∃ frames chain scopes, t = { s with frames, chain, scopes }
  opened : s.globalId? ≠ none
  globalId : t.globalId? = s.globalId?
  scopes : ∀ id, s.globalId? = some id ∨ id ∈ s.captured → t.scope? id = s.scope? id

/-- Two states with the same calls and the same scopes on top of those of two callers, and otherwise
with everything in common that can be seen from there. -/
structure Above (c d : State) (own : List Frame) (inner : List Nat) (s t : State) : Prop where
  rest : ∃ frames chain scopes, t = { s with frames, chain, scopes }
  frames : s.frames = own.map (.raise c.chain.length) ++ c.frames
  frames' : t.frames = own.map (.raise d.chain.length) ++ d.frames
  chain : s.chain = inner ++ c.chain
  chain' : t.chain = inner ++ d.chain
  depth_le : ∀ frame ∈ own, frame.depth ≤ inner.length
  known : inner ⊆ s.scopeIds
  scopes : ∀ id, id ∈ inner ∨ c.globalId? = some id ∨ id ∈ s.captured → t.scope? id = s.scope? id

/-- A state with certain scopes and frames on top of those of a caller, and one more scope. -/
def inside (c s : State) (scope : Scope) (inner : List Nat) (own : List Frame) : State :=
  s.openScope scope (inner ++ c.chain) (own.map (.raise c.chain.length) ++ c.frames)

variable {c d s t u : State} {own : List Frame} {inner : List Nat}

theorem globalId?_of_chain (hc : c.globalId? ≠ none) (h : s.chain = inner ++ c.chain) : s.globalId? = c.globalId? := by
  unfold globalId? at hc ⊢
  rw [h, List.getLast?_append]
  cases hlast : c.chain.getLast? with
  | none => exact absurd hlast hc
  | some id => rfl

theorem chain_ne_nil (hc : c.globalId? ≠ none) : c.chain ≠ [] := fun h ↦ hc (by rw [globalId?, h]; rfl)

namespace Above

theorem captured_eq (h : Above c d own inner s t) : t.captured = s.captured := by
  obtain ⟨frames, chain, scopes, rfl⟩ := h.rest
  rfl

theorem lastId_eq (h : Above c d own inner s t) : t.lastId = s.lastId := by
  obtain ⟨frames, chain, scopes, rfl⟩ := h.rest
  rfl

/-- States that agree stand above themselves with nothing in between. -/
theorem of_agree (h : c.Agree d) : Above c d [] [] c d where
  rest := h.rest
  frames := rfl
  frames' := rfl
  chain := rfl
  chain' := rfl
  depth_le := List.forall_mem_nil _
  known := List.nil_subset _
  scopes id hid := h.scopes id (hid.resolve_left List.not_mem_nil)

theorem withFrames {own' : List Frame} (h : Above c d own inner s t) (hdepth : ∀ frame ∈ own', frame.depth ≤ inner.length) :
    Above c d own' inner { s with frames := own'.map (.raise c.chain.length) ++ c.frames }
      { t with frames := own'.map (.raise d.chain.length) ++ d.frames } where
  rest := by
    obtain ⟨frames, chain, scopes, rfl⟩ := h.rest
    exact ⟨_, _, _, rfl⟩
  frames := rfl
  frames' := rfl
  chain := h.chain
  chain' := h.chain'
  depth_le := hdepth
  known := h.known
  scopes := h.scopes

theorem head?_eq (h : Above c d own inner s t) (hinner : inner ≠ []) : t.chain.head? = s.chain.head? := by
  obtain ⟨id, rest, rfl⟩ := List.exists_cons_of_ne_nil hinner
  rw [h.chain, h.chain']
  rfl

/-- A new scope stands on top of both, perhaps in place of others, and perhaps a frame does. -/
theorem inside {own' : List Frame} {inner' : List Nat} (h : Above c d own inner s t) (scope : Scope)
    (hinner : inner' ⊆ inner) (hdepth : ∀ frame ∈ own', frame.depth ≤ inner'.length + 1) :
    Above c d own' (scope.id :: inner') (c.inside s scope inner' own') (d.inside t scope inner' own') where
  rest := by
    obtain ⟨frames, chain, scopes, rfl⟩ := h.rest
    exact ⟨_, _, _, rfl⟩
  frames := rfl
  frames' := rfl
  chain := rfl
  chain' := rfl
  depth_le := hdepth
  known := List.cons_subset_cons _ fun _ hid ↦ h.known (hinner hid)
  scopes id hid := by
    rw [State.inside, State.inside, scope?_openScope, scope?_openScope]
    split
    next => rfl
    next hne => exact h.scopes id (hid.imp_left fun hmem ↦ hinner ((List.mem_cons.mp hmem).resolve_left hne))

theorem updateScope {f : Scope → Scope} (id : Nat) (hf : ∀ scope, (f scope).id = scope.id)
    (h : Above c d own inner s t) : Above c d own inner (s.updateScope id f) (t.updateScope id f) where
  rest := by
    obtain ⟨frames, chain, scopes, rfl⟩ := h.rest
    exact ⟨_, _, _, rfl⟩
  frames := h.frames
  frames' := h.frames'
  chain := h.chain
  chain' := h.chain'
  depth_le := h.depth_le
  known := scopeIds_updateScope hf s id ▸ h.known
  scopes id' hid := by rw [scope?_updateScope _ _ _ hf, scope?_updateScope _ _ _ hf, h.scopes id' hid]

/-- What is open on top of certain scopes is the same scope in both. -/
theorem exists_inner {inner' : List Nat} (h : Above c d own inner s t) (hinner : inner ≠ [])
    (htail : s.chain.tail = inner' ++ c.chain) : ∃ id, inner = id :: inner' := by
  obtain ⟨id, rest, rfl⟩ := List.exists_cons_of_ne_nil hinner
  rw [h.chain] at htail
  obtain rfl := List.append_cancel_right htail
  exact ⟨id, rfl⟩

/-- What was opened on top is gone, and whatever has been stored meanwhile has been stored in both. -/
theorem closed {r w : State} {own' : List Frame} {inner' : List Nat} (h : Above c d own inner s t)
    (hr : Above c d own' inner' r w) (hinner : inner ⊆ inner') (hids : s.scopeIds ⊆ r.scopeIds) :
    Above c d own inner { r with chain := s.chain, frames := s.frames } { w with chain := t.chain, frames := t.frames } where
  rest := by
    obtain ⟨frames, chain, scopes, rfl⟩ := hr.rest
    exact ⟨_, _, _, rfl⟩
  frames := h.frames
  frames' := h.frames'
  chain := h.chain
  chain' := h.chain'
  depth_le := h.depth_le
  known := fun _ hid ↦ hids (h.known hid)
  scopes id hid := hr.scopes id (hid.imp_left (hinner ·))

/-- Operations on stored data do not see whose state it is. -/
theorem withScoping (h : Above c d own inner s t) (u : State) :
    Above c d own inner (u.withScoping s) (u.withScoping t) where
  rest := by
    have hcaptured := h.captured_eq
    refine ⟨t.frames, t.chain, t.scopes, ?_⟩
    unfold State.withScoping
    rw [hcaptured]
  frames := h.frames
  frames' := h.frames'
  chain := h.chain
  chain' := h.chain'
  depth_le := h.depth_le
  known := h.known
  scopes := h.scopes

theorem eq_withScoping (h : Above c d own inner s t) : t = s.withScoping t := by
  obtain ⟨frames, chain, scopes, rfl⟩ := h.rest
  rfl

/-- Neither do changes that have nothing to do with the stacks and the scopes. -/
theorem congr {g : State → State} (h : Above c d own inner s t)
    (hg : ∀ u w : State, g (u.withScoping w) = (g u).withScoping w) : Above c d own inner (g s) (g t) := by
  have hs : g s = (g s).withScoping s := hg s s
  have ht : g t = (g s).withScoping t := by
    rw [← hg]
    exact congrArg g h.eq_withScoping
  rw [hs, ht]
  exact h.withScoping (g s)

theorem withCaptured {captured : List Nat} (h : Above c d own inner s t)
    (hcaptured : ∀ id ∈ captured, id ∈ inner ∨ c.globalId? = some id ∨ id ∈ s.captured) :
    Above c d own inner (s.withCaptured captured) (t.withCaptured captured) where
  rest := by
    obtain ⟨frames, chain, scopes, rfl⟩ := h.rest
    exact ⟨_, _, _, rfl⟩
  frames := h.frames
  frames' := h.frames'
  chain := h.chain
  chain' := h.chain'
  depth_le := h.depth_le
  known := h.known
  scopes id hid := by
    refine h.scopes id ?_
    rcases hid with hid | hid | hid
    · exact .inl hid
    · exact .inr (.inl hid)
    · exact hcaptured id hid

variable (hc : c.globalId? ≠ none) (hd : d.globalId? = c.globalId?)
include hc

theorem globalId_eq (h : Above c d own inner s t) : s.globalId? = c.globalId? := globalId?_of_chain hc h.chain

theorem visibleIds_of_frames {frame : Frame} {frames : List Frame} {global : Nat}
    (hframes : s.frames = frame.raise c.chain.length :: frames) (hchain : s.chain = inner ++ c.chain)
    (hdepth : frame.depth ≤ inner.length) (hglobal : c.globalId? = some global) :
    s.visibleIds = .ok (inner.take (inner.length - frame.depth) ++
      frame.closure.filter fun id ↦ id = global || id ∈ s.captured) := by
  have hlength : s.chain.length = inner.length + c.chain.length := by rw [hchain, List.length_append]
  have hown : s.ownIds (frame.raise c.chain.length) = inner.take (inner.length - frame.depth) := by
    unfold ownIds
    dsimp only
    rw [if_pos (by rw [hlength, Frame.raise]; dsimp only; omega), hlength, hchain]
    have hcount : inner.length + c.chain.length - (frame.raise c.chain.length).depth = inner.length - frame.depth := by
      rw [Frame.raise]
      dsimp only
      omega
    rw [hcount, List.take_append_of_le_length (Nat.sub_le _ _)]
  unfold visibleIds
  rw [hframes]
  dsimp only
  rw [globalId?_of_chain hc hchain, hglobal, hown]
  rfl

include hd

theorem visibleIds_eq (h : Above c d own inner s t) (hown : own ≠ []) : ∃ ids, s.visibleIds = .ok ids ∧ t.visibleIds = .ok ids ∧
    ∀ id ∈ ids, id ∈ inner ∨ c.globalId? = some id ∨ id ∈ s.captured := by
  obtain ⟨frame, frames, rfl⟩ := List.exists_cons_of_ne_nil hown
  obtain ⟨global, hglobal⟩ := Option.ne_none_iff_exists'.mp hc
  have hdepth := h.depth_le frame List.mem_cons_self
  refine ⟨_, visibleIds_of_frames hc h.frames h.chain hdepth hglobal, ?_, fun id hid ↦ ?_⟩
  · rw [← h.captured_eq]
    exact visibleIds_of_frames (hd ▸ hc) h.frames' h.chain' hdepth (hd.trans hglobal)
  · rcases List.mem_append.mp hid with hid | hid
    · exact .inl (List.mem_of_mem_take hid)
    · have hkept := (List.mem_filter.mp hid).2
      simp only [Bool.or_eq_true, decide_eq_true_eq] at hkept
      rcases hkept with rfl | hkept
      · exact .inr (.inl hglobal)
      · exact .inr (.inr hkept)

theorem visible_eq (h : Above c d own inner s t) (hown : own ≠ []) : t.visible = s.visible := by
  obtain ⟨ids, hs, ht, hids⟩ := h.visibleIds_eq hc hd hown
  unfold visible
  rw [hs, ht]
  exact congrArg Except.ok (List.filterMap_congr fun id hid ↦ h.scopes id (hids id hid))

theorem binder?_eq (h : Above c d own inner s t) (hown : own ≠ []) (name : String) :
    t.binder? name = s.binder? name := by
  unfold binder?
  rw [h.visible_eq hc hd hown]

omit hc hd in
theorem headId_eq (h : Above c d own inner s t) (hinner : inner ≠ []) : ∃ id ∈ inner, s.headId = .ok id ∧ t.headId = .ok id := by
  obtain ⟨id, rest, rfl⟩ := List.exists_cons_of_ne_nil hinner
  refine ⟨id, List.mem_cons_self, ?_, ?_⟩
  · rw [headId, h.chain]
    rfl
  · rw [headId, h.chain']
    rfl

omit hc hd in
theorem bind (h : Above c d own inner s t) (scope : Scope) (name : String) (v : Value) :
    Above c d own inner (s.bind scope name v) (t.bind scope name v) := by
  have hbound := h.updateScope (f := fun old ↦ { old with bindings := old.bindings.set name v }) scope.id fun _ ↦ rfl
  rw [bind_eq, bind_eq]
  exact hbound.congr (g := fun u ↦
    { u with heap := ((scope.bindings.get? name).elim u.heap u.heap.release).retain v }) fun _ _ ↦ rfl

end Above

theorem Agree.of_above (hc : c.globalId? ≠ none) (hd : d.globalId? = c.globalId?) (h : Above c d [] [] s t) :
    s.Agree t where
  rest := h.rest
  opened := globalId?_of_chain hc h.chain ▸ hc
  globalId := by rw [globalId?_of_chain hc h.chain, globalId?_of_chain (hd ▸ hc) h.chain', hd]
  scopes id hid := h.scopes id (.inr (globalId?_of_chain hc h.chain ▸ hid))

end State

end Stepwise
