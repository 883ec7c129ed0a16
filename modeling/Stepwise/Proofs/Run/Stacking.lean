import Stepwise.Proofs.Run.Declaring
import Stepwise.Proofs.Run.Program
import Stepwise.Proofs.State.Apart
/-!
The stacks of a run. Every evaluation leaves the calls in progress and the open scopes as they were,
however it ends, and what it does besides is a row of single operations.
-/

namespace Stepwise

namespace State

def scopeIds (s : State) : List Nat := s.scopes.map (·.id)

/-- A scope is open, and every open scope is there. -/
structure Grounded (s : State) : Prop where
  opened : s.chain ≠ []
  known : s.chain ⊆ s.scopeIds

/-- What a stretch of an evaluation leaves of the stacks. Inside of its call a body may note down
something in the frame, and a loop may renew the innermost scope. -/
structure Stays (k : Stretch) (s t : State) : Prop where
  frames : k ≠ .body → t.frames = s.frames
  outerFrames : t.frames.tail = s.frames.tail
  chain : k ≠ .iteration → t.chain = s.chain
  outerChain : t.chain.tail = s.chain.tail
  scopeIds : s.scopeIds ⊆ t.scopeIds

variable {k : Stretch} {s t u : State} {α : Type}

namespace Stays

theorem of_eq (hframes : t.frames = s.frames) (hchain : t.chain = s.chain) (hids : s.scopeIds ⊆ t.scopeIds) :
    Stays k s t :=
  ⟨fun _ ↦ hframes, congrArg List.tail hframes, fun _ ↦ hchain, congrArg List.tail hchain, hids⟩

theorem refl (k : Stretch) (s : State) : Stays k s s := .of_eq rfl rfl fun _ ↦ id

theorem trans (h : Stays k s t) (h' : Stays k t u) : Stays k s u where
  frames hk := (h'.frames hk).trans (h.frames hk)
  outerFrames := h'.outerFrames.trans h.outerFrames
  chain hk := (h'.chain hk).trans (h.chain hk)
  outerChain := h'.outerChain.trans h.outerChain
  scopeIds := fun _ hid ↦ h'.scopeIds (h.scopeIds hid)

theorem of_expression (h : Stays .expression s t) : Stays k s t :=
  .of_eq (h.frames (by decide)) (h.chain (by decide)) h.scopeIds

theorem of_statement (h : Stays .statement s t) : Stays k s t :=
  .of_eq (h.frames (by decide)) (h.chain (by decide)) h.scopeIds

end Stays

theorem Grounded.of_stays (h : s.Grounded) (hs : Stays k s t) (hk : k ≠ .iteration) : t.Grounded := by
  have hchain := hs.chain hk
  exact ⟨hchain ▸ h.opened, fun id hid ↦ hs.scopeIds (h.known (hchain ▸ hid))⟩

theorem exists_scope_of_mem {id : Nat} (hid : id ∈ s.scopeIds) : ∃ scope, s.scope? id = some scope := by
  obtain ⟨scope, hscope, rfl⟩ := List.mem_map.mp hid
  exact Option.isSome_iff_exists.mp (List.find?_isSome.mpr ⟨scope, hscope, beq_self_eq_true _⟩)

theorem Grounded.exists_scope (h : s.Grounded) {id : Nat} (hid : id ∈ s.chain) : ∃ scope, s.scope? id = some scope :=
  exists_scope_of_mem (h.known hid)

theorem scopeIds_map {f : Scope → Scope} (hf : ∀ scope, (f scope).id = scope.id) (scopes : List Scope) :
    (scopes.map f).map (·.id) = scopes.map (·.id) := by
  rw [List.map_map]
  exact List.map_congr_left fun scope _ ↦ hf scope

theorem scopeIds_updateScope {f : Scope → Scope} (hf : ∀ scope, (f scope).id = scope.id) (s : State) (id : Nat) :
    (s.updateScope id f).scopeIds = s.scopeIds := by
  refine scopeIds_map (fun scope ↦ ?_) s.scopes
  split
  · exact hf scope
  · rfl

theorem scopeIds_bind (s : State) (scope : Scope) (name : String) (v : Value) :
    (s.bind scope name v).scopeIds = s.scopeIds := by
  rw [bind_eq]
  exact scopeIds_updateScope (f := fun old ↦ { old with bindings := old.bindings.set name v }) (fun _ ↦ rfl) s scope.id

theorem stays_bind (s : State) (scope : Scope) (name : String) (v : Value) : Stays k s (s.bind scope name v) :=
  .of_eq (by rw [bind_eq]) (by rw [bind_eq]) fun id hid ↦ (s.scopeIds_bind scope name v).symm ▸ hid

/-- An open scope inside of the others is closed by what pops it. -/
theorem exists_chain_eq {r : State} {chain : List Nat} (hr : r.Grounded) (hchain : chain ≠ [])
    (h : r.chain.tail = chain) : ∃ id' outer rest, r.chain = id' :: outer :: rest ∧ chain = outer :: rest := by
  obtain ⟨id', rest', hr'⟩ := List.exists_cons_of_ne_nil hr.opened
  obtain ⟨outer, rest, hc⟩ := List.exists_cons_of_ne_nil hchain
  rw [hr', List.tail_cons, hc] at h
  exact ⟨id', outer, rest, by rw [hr', h], hc⟩

theorem raises_visibleIds (s : State) : Raises (·.isCorruption = false) s.visibleIds := by
  unfold visibleIds
  split
  · exact .ok _
  · split
    · exact .ok _
    · exact .ite (.ok _) (.error rfl)

theorem raises_visible (s : State) : Raises (·.isCorruption = false) s.visible := s.raises_visibleIds.map _

theorem raises_binder? (s : State) (name : String) : Raises (·.isCorruption = false) (s.binder? name) :=
  s.raises_visible.map _

theorem raises_resolve (s : State) (name : String) : Raises (·.isCorruption = false) (s.resolve name) := by
  refine (s.raises_binder? name).bind fun scope ↦ ?_
  cases scope.bind (·.bindings.get? name) with
  | some v => exact .pure v
  | none => exact .error rfl

theorem raises_functionScope (s : State) : Raises (·.isCorruption = false) s.functionScope := by
  refine s.raises_visible.bind fun scopes ↦ ?_
  split
  · exact .pure _
  · exact .error rfl

theorem raises_headId (s : State) : Raises (·.isCorruption = false) s.headId := by
  unfold headId
  split
  · exact .ok _
  · exact .error rfl

end State

namespace Engine

open State

variable {α : Type} {x : Engine α} {A : α → Prop}

/-- An operation that leaves the stacks alone and does not pop the global scope. -/
structure Steady (x : Engine α) : Prop where
  stays : ∀ s : State, s.Stays .expression (after (x s))
  raises : ∀ s f t, x s = .error f t → f ≠ .popOfGlobalScope

theorem within_anything (v : Value) : v.Within fun _ ↦ True := by cases v <;> trivial

theorem holding_anything (s : State) : s.Holding fun _ ↦ True :=
  ⟨fun _ _ v _ ↦ within_anything v, fun _ _ v _ ↦ within_anything v, fun _ _ v _ ↦ within_anything v⟩

theorem Storing.steady (h : Storing (fun _ ↦ True) x A) : Steady x where
  stays s := by
    rw [← h.withScoping_after (holding_anything s)]
    exact .of_eq rfl rfl fun _ ↦ id
  raises s f t hx := by
    have hleaves := h.leaves s (holding_anything s)
    rw [hx] at hleaves
    exact hleaves.2

theorem steady_declare (name : String) (v : Value) (kind : BindingKind) (scope : Option Nat) :
    Steady (declare name v kind scope) where
  stays s := by
    rw [declare_apply]
    cases scope.elim s.headId .ok with
    | error f => exact .refl _ s
    | ok id =>
      dsimp only
      cases s.scope? id with
      | none => exact .refl _ s
      | some scope => exact (s.stays_bind scope name v).trans (.of_eq rfl rfl (List.Subset.refl _))
  raises s f t h := by
    rw [declare_apply] at h
    have hid : Raises (·.isCorruption = false) (scope.elim s.headId .ok) := by
      cases scope with
      | none => exact s.raises_headId
      | some id => exact .ok id
    cases he : scope.elim s.headId .ok with
    | error f =>
      rw [he] at h
      cases h
      exact Fault.ne_popOfGlobalScope (hid f he)
    | ok id =>
      rw [he] at h
      dsimp only at h
      cases hs : s.scope? id with
      | none => rw [hs] at h; cases h; exact nofun
      | some scope => rw [hs] at h; cases h

theorem steady_assign (name : String) (v : Value) : Steady (assign name v) where
  stays s := by
    rw [assign_apply]
    cases s.binder? name with
    | error f => exact .refl _ s
    | ok scope =>
      cases scope with
      | none => exact (steady_declare name v .blockScoped none).stays s
      | some scope => exact s.stays_bind scope name v
  raises s f t h := by
    rw [assign_apply] at h
    cases he : s.binder? name with
    | error f =>
      rw [he] at h
      cases h
      exact Fault.ne_popOfGlobalScope (s.raises_binder? name f he)
    | ok scope =>
      rw [he] at h
      cases scope with
      | none => exact (steady_declare name v .blockScoped none).raises s f t h
      | some scope => cases h

/-- The visible scopes are kept, and nothing else changes. -/
theorem capture_cases (s : State) :
    (∃ ids captured, capture s = .ok ids { s with captured } ∧ s.visibleIds = .ok ids ∧
      ∀ id ∈ captured, id ∈ s.captured ∨ id ∈ ids) ∨
    ∃ f, capture s = .error f s ∧ f.isCorruption = false := by
  unfold capture
  rw [bind_apply, get_apply]
  dsimp only
  cases s.globalId? with
  | none => exact .inr ⟨_, rfl, rfl⟩
  | some globalId =>
    dsimp only
    cases he : s.visibleIds with
    | error f => exact .inr ⟨f, rfl, s.raises_visibleIds f he⟩
    | ok ids => exact .inl ⟨ids, _, rfl, rfl, fun id hid ↦ (mem_foldl_capture.mp hid).imp_right And.left⟩

theorem apart_capture (s : State) : s.Apart (after (capture s)) := by
  obtain ⟨ids, captured, h, -⟩ | ⟨f, h, -⟩ := capture_cases s
  · rw [h]
    exact .of_scoping (Nat.le_refl _)
  · rw [h]
    exact .refl s

theorem steady_capture : Steady capture where
  stays s := by
    obtain ⟨ids, captured, h, -⟩ | ⟨f, h, -⟩ := capture_cases s
    · rw [h]
      exact .of_eq rfl rfl fun _ ↦ id
    · rw [h]
      exact .refl _ s
  raises s f t he := by
    obtain ⟨ids, captured, h, -⟩ | ⟨f', h, hfault⟩ := capture_cases s
    · rw [h] at he
      cases he
    · rw [h] at he
      cases he
      exact Fault.ne_popOfGlobalScope hfault

end Engine

theorem Engine.exists_renewScope {s : State} (hs : s.Grounded) (htail : s.chain.tail ≠ []) :
    ∃ scopes, Engine.renewScope s = .ok (s.lastId + 1)
      { s with lastId := s.lastId + 1, chain := (s.lastId + 1) :: s.chain.tail, scopes } ∧
      scopes.map (·.id) = (s.lastId + 1) :: s.scopeIds := by
  obtain ⟨id, outer, rest, hchain, hrest⟩ := State.exists_chain_eq hs htail rfl
  obtain ⟨old, hold⟩ := hs.exists_scope (hchain ▸ List.mem_cons_self : id ∈ s.chain)
  rw [hrest]
  exact ⟨_, renewScope_eq hchain hold, State.scopeIds_map (fun scope ↦ by split <;> rfl) _⟩

/-- An operation that takes machines to related ones, in one way if it goes well and in another if it fails. -/
structure Machine.Follows {α : Type} (R S : Machine Journal → Machine Journal → Prop) (x : Engine α) : Prop where
  ends : ∀ (m : Machine Journal) a t, x m.state = .ok a t → R m { m with state := t }
  fails : ∀ (m : Machine Journal) f t, x m.state = .error f t → S m { m with state := t }

/-- A relation that single operations of an evaluation keep, and a weaker one for those that fail. -/
structure Habit (R S : Machine Journal → Machine Journal → Prop) : Prop where
  refl : ∀ m, R m m
  trans : ∀ {l m n}, R l m → R m n → R l n
  weaken : ∀ {m n}, R m n → S m n
  trans_weak : ∀ {l m n}, S l m → S m n → S l n
  apart : ∀ {m t}, m.state.Apart t → R m { m with state := t }
  record : ∀ line column description, description.isTitle = false →
    ∀ m, R m (after (Eval.record line column description m))
  report : ∀ kind location m, R m (after (Eval.reportUnsupported kind location m))
  timer : ∀ f arguments line,
    Machine.Follows R S (Engine.schedule .macrotask "setTimeout callback" (.call f arguments) line)
  fetch : ∀ url line, Machine.Follows R S (Engine.fetch url line)
  all : ∀ inputs, Machine.Follows R S (Engine.all inputs)
  race : ∀ inputs, Machine.Follows R S (Engine.race inputs)
  chain : ∀ address handler, Machine.Follows R S (Engine.chain address handler)

variable {R S : Machine Journal → Machine Journal → Prop}

theorem Machine.Follows.of_after {α : Type} {x : Engine α} (hS : ∀ {m n}, R m n → S m n)
    (h : ∀ m : Machine Journal, R m { m with state := after (x m.state) }) : Machine.Follows R S x := by
  refine ⟨fun m a t hx ↦ ?_, fun m f t hx ↦ ?_⟩
  · have hm := h m
    rwa [hx] at hm
  · have hm := h m
    rw [hx] at hm
    exact hS hm

theorem Habit.follows (hR : Habit R S) {α : Type} {x : Engine α} (h : ∀ s : State, s.Apart (after (x s))) :
    Machine.Follows R S x := .of_after hR.weaken fun m ↦ hR.apart (h m.state)

/-- One evaluation twice, which keeps the stacks and a habit. -/
def Correspondence.stacking (hR : Habit R S) : Correspondence where
  holds p := p.2 = p.1 ∧ p.1.state.Grounded
  leads k p q := p.1.state.Stays k q.1.state ∧ R p.1 q.1
  strays k p q := p.1.state.Stays k q.1.state ∧ S p.1 q.1
  valid _ _ := True
  closed _ _ := True
  renewable p := p.1.state.chain.tail ≠ []
  entered _ _ := True
  raises f := f ≠ .popOfGlobalScope
  refl k p := ⟨.refl k p.1.state, hR.refl p.1⟩
  trans h h' := ⟨h.1.trans h'.1, hR.trans h.2 h'.2⟩
  of_expression h := ⟨h.1.of_expression, h.2⟩
  of_statement _ h := ⟨h.1.of_statement, h.2⟩
  strays_of_leads h := ⟨h.1, hR.weaken h.2⟩
  strays_trans h h' := ⟨h.1.trans h'.1, hR.trans_weak h.2 h'.2⟩
  strays_of_expression h := ⟨h.1.of_expression, h.2⟩
  strays_of_statement _ h := ⟨h.1.of_statement, h.2⟩
  valid_leads _ _ := trivial
  closed_leads _ _ := trivial
  entered_leads _ _ := trivial
  renewable_leads h hr := h.1.outerChain ▸ hr
  valid_function := Iff.rfl

namespace Correspondence.Stacking

open State Engine Evaluator Activity Eval

variable {hR : Habit R S} {p : Machines} {k : Stretch} {α : Type} {A : Machines → α → Prop}

theorem exists_of_holds (hp : (stacking hR).holds p) : ∃ m : Machine Journal, p = (m, m) ∧ m.state.Grounded :=
  ⟨p.1, Prod.ext rfl hp.1, hp.2⟩

theorem related_of_stays {x : Engine α} (hp : (stacking hR).holds p)
    (hstays : p.1.state.Stays k (after (x p.1.state))) (hgrounded : (after (x p.1.state)).Grounded)
    (hraises : ∀ f t, x p.1.state = .error f t → f ≠ .popOfGlobalScope)
    (hx : Machine.Follows R S x) (hA : ∀ q a, A q a) : (stacking hR).Related k A (liftM x) (liftM x) p := by
  obtain ⟨m, rfl, -⟩ := exists_of_holds hp
  change (stacking hR).Ends _ _ _ (ofEngine x m) (ofEngine x m)
  unfold ofEngine
  dsimp only at hstays hgrounded hraises
  cases h : x m.state with
  | ok a t =>
    rw [h] at hstays hgrounded
    exact .ok ⟨rfl, hgrounded⟩ ⟨hstays, hx.ends m a t h⟩ (hA _ a)
  | error f t =>
    rw [h] at hstays hgrounded
    exact .error ⟨rfl, hgrounded⟩ ⟨hstays, hx.fails m f t h⟩ (hraises f t h)

theorem related_steady {x : Engine α} (hp : (stacking hR).holds p) (hs : Steady x)
    (hx : Machine.Follows R S x) (hA : ∀ q a, A q a) :
    (stacking hR).Related .expression A (liftM x) (liftM x) p := by
  have hstays := hs.stays p.1.state
  exact related_of_stays hp hstays (hp.2.of_stays hstays nofun) (hs.raises _) hx hA

theorem related_reading {e : State → Except Fault α} (hp : (stacking hR).holds p)
    (he : Raises (·.isCorruption = false) (e p.1.state)) (hA : ∀ q a, A q a) :
    (stacking hR).Related k A (Eval.reading e) (Eval.reading e) p := by
  obtain ⟨m, rfl, hg⟩ := exists_of_holds hp
  unfold Related Eval.reading
  dsimp only at he ⊢
  cases h : e m.state with
  | ok a => exact .ok ⟨rfl, hg⟩ ((stacking hR).refl k _) (hA _ a)
  | error f => exact .error ⟨rfl, hg⟩ (stops_of_leads ((stacking hR).refl k _) _) (Fault.ne_popOfGlobalScope (he f h))

/-- An activity inside of a scope that was opened for it, and perhaps of a call, which are closed
behind it. -/
theorem ends_of_opened {k' : Stretch} {C : Machines → α → Prop} {x y : Eval α} {close : Engine Unit} {s : State}
    {j : Journal} (scope : Scope) (frames : List Frame) (leaves : List Frame → List Frame) (hs : s.Grounded)
    (hid : s.lastId ≤ scope.id)
    (hclose : ∀ (r : State) id outer rest, r.chain = id :: outer :: rest →
      close r = .ok () { r with chain := outer :: rest, frames := leaves r.frames })
    (hframes : ∀ r, (s.openScope scope s.chain frames).Stays k r → leaves r.frames = s.frames)
    (hC : ∀ q a, C q a)
    (h : (stacking hR).Related k A x y
      (⟨s.openScope scope s.chain frames, j⟩, ⟨s.openScope scope s.chain frames, j⟩)) :
    (stacking hR).Ends k' C (⟨s, j⟩, ⟨s, j⟩) (closing x close ⟨s.openScope scope s.chain frames, j⟩)
      (closing y close ⟨s.openScope scope s.chain frames, j⟩) := by
  refine h.closes fun r hr hl ↦ ?_
  obtain ⟨⟨r, jr⟩, rfl, hg⟩ := exists_of_holds hr
  obtain ⟨hstays, hx⟩ := hl
  dsimp only at hstays hx
  -- whatever the activity did inside, the scope and the frame that were opened are on top, and go
  obtain ⟨id, outer, rest, hchain, hchain'⟩ := exists_chain_eq hg hs.opened hstays.outerChain
  have hclosed := hclose r id outer rest hchain
  rw [hframes r hstays, ← hchain'] at hclosed
  have hids : s.scopeIds ⊆ r.scopeIds := fun _ h ↦ hstays.scopeIds (List.mem_cons_of_mem _ h)
  have hopen : R ⟨s, j⟩ ⟨s.openScope scope s.chain frames, j⟩ := hR.apart (m := ⟨s, j⟩) (.of_scoping hid)
  have hcloses : R ⟨r, jr⟩ ⟨{ r with chain := s.chain, frames := s.frames }, jr⟩ :=
    hR.apart (m := ⟨r, jr⟩) (.of_scoping (Nat.le_refl _))
  exact ⟨_, _, ofEngine_apply hclosed, ofEngine_apply hclosed, ⟨rfl, hs.opened, fun _ h ↦ hids (hs.known h)⟩,
    fun hleads ↦ ⟨.of_eq rfl rfl hids, hR.trans (hR.trans hopen hleads.2) hcloses⟩,
    ⟨.of_eq rfl rfl hids, hR.trans_weak (hR.trans_weak (hR.weaken hopen) hx) (hR.weaken hcloses)⟩,
    fun _ _ ↦ trivial, fun a _ ↦ hC _ a⟩

theorem Grounded.openScope {s : State} (hs : s.Grounded) (scope : Scope) (frames : List Frame) :
    (s.openScope scope s.chain frames).Grounded :=
  ⟨List.cons_ne_nil _ _, List.cons_subset_cons _ hs.known⟩

theorem related_inScope {name : String} {x y : Eval Unit} (hp : (stacking hR).holds p)
    (hxy : ∀ q, (stacking hR).holds q → (stacking hR).renewable q →
      (stacking hR).Related .iteration anything x y q) :
    (stacking hR).Related .statement anything (inScope name x) (inScope name y) p := by
  obtain ⟨⟨s, j⟩, rfl, hs⟩ := exists_of_holds hp
  let scope : Scope := { id := s.lastId + 1, kind := .block, name, parent := s.chain.head? }
  refine ends_of_opened (k := .iteration) (A := anything) scope s.frames id hs (Nat.le_succ _)
    (fun r _ _ _ hr ↦ closeScope_apply hr) (fun r hr ↦ hr.frames nofun) (fun _ _ ↦ trivial) ?_
  exact hxy _ ⟨rfl, Grounded.openScope hs scope s.frames⟩ hs.opened

theorem related_renew (hp : (stacking hR).holds p) (hr : (stacking hR).renewable p) :
    (stacking hR).Related .iteration anything (liftM renewScope) (liftM renewScope) p := by
  obtain ⟨⟨s, j⟩, rfl, hs⟩ := exists_of_holds hp
  change s.chain.tail ≠ [] at hr
  obtain ⟨scopes, hrenew, hids⟩ := exists_renewScope hs hr
  change (stacking hR).Ends _ _ _ (ofEngine renewScope ⟨s, j⟩) (ofEngine renewScope ⟨s, j⟩)
  rw [ofEngine_apply hrenew]
  have hnew : s.lastId + 1 ∈ scopes.map (·.id) := hids ▸ List.mem_cons_self
  have hsub : s.scopeIds ⊆ scopes.map (·.id) := fun _ hid ↦ hids ▸ List.mem_cons_of_mem _ hid
  refine .ok ⟨rfl, List.cons_ne_nil _ _, List.cons_subset.mpr ⟨hnew, fun _ hid ↦ ?_⟩⟩
    ⟨⟨fun _ ↦ rfl, rfl, fun h ↦ absurd rfl h, rfl, hsub⟩, ?_⟩ trivial
  · exact hsub (hs.known (List.mem_of_mem_tail hid))
  · exact hR.apart (m := ⟨s, j⟩) (.of_scoping (Nat.le_succ _))

theorem related_inCall {f : Function} {arguments : List Value} {line : Int} {name : String}
    {x y : Nat → Eval Value} (hp : (stacking hR).holds p)
    (hxy : ∀ scope q, (stacking hR).holds q →
      (stacking hR).Related .body (stacking hR).valid (x scope) (y scope) q) :
    (stacking hR).Related .expression (stacking hR).valid (inCall f arguments line name x)
      (inCall f arguments line name y) p := by
  obtain ⟨⟨s, j⟩, rfl, hs⟩ := exists_of_holds hp
  let scope := s.callScope f name
  let frame := s.callFrame f arguments line name
  have hid : s.lastId ≤ scope.id := (s.lt_callScope f name).le
  refine ends_of_opened (k := .body) (A := (stacking hR).valid) scope (frame :: s.frames) List.tail hs hid
    (fun r _ _ _ hr ↦ leave_apply hr) (fun r hr ↦ hr.outerFrames) (fun _ _ ↦ trivial) ?_
  exact (hxy _ _ ⟨rfl, Grounded.openScope hs scope _⟩).catchReturn

theorem related_keepLocals {scope : Nat} (hp : (stacking hR).holds p) :
    (stacking hR).Related .body anything (liftM (keepLocals scope)) (liftM (keepLocals scope)) p := by
  obtain ⟨frames, hframes, -, htail⟩ := keepLocals_apply scope p.1.state
  have hstays : p.1.state.Stays .body (after (keepLocals scope p.1.state)) := by
    rw [hframes]
    exact ⟨fun h ↦ absurd rfl h, htail, fun _ ↦ rfl, rfl, List.Subset.refl _⟩
  refine related_of_stays hp hstays (hp.2.of_stays hstays nofun) (fun f t h ↦ ?_) (hR.follows fun s ↦ ?_)
    fun _ _ ↦ trivial
  · rw [hframes] at h
    cases h
  · obtain ⟨frames, hframes, -⟩ := keepLocals_apply scope s
    rw [hframes]
    exact .of_scoping (Nat.le_refl _)

theorem related_journal {x : Eval Unit} {g : Machine Journal → Journal} (hp : (stacking hR).holds p)
    (hx : ∀ m, x m = .ok () { m with journal := g m }) (hg : ∀ m, R m (after (x m))) :
    (stacking hR).Related .expression anything x x p := by
  obtain ⟨m, rfl, hm⟩ := exists_of_holds hp
  have hR' := hg m
  unfold Related
  rw [hx] at hR' ⊢
  exact .ok ⟨rfl, hm⟩ ⟨.refl _ _, hR'⟩ trivial

theorem related_prune {settings : Settings} (hp : (stacking hR).holds p) :
    (stacking hR).Related .statement anything (Eval.prune settings) (Eval.prune settings) p := by
  obtain ⟨m, rfl, hm⟩ := exists_of_holds hp
  unfold Related
  rw [prune_apply]
  cases settings.prunes with
  | false => exact .ok ⟨rfl, hm⟩ ((stacking hR).refl _ _) trivial
  | true =>
    exact .ok ⟨rfl, hm.opened, hm.known⟩
      ⟨.of_eq rfl rfl (List.Subset.refl _), hR.apart (.of_scoping (Nat.le_refl _))⟩ trivial

theorem related_declare {name : String} {v : Value} {kind : BindingKind} {scope : Option Nat}
    (hp : (stacking hR).holds p) :
    (stacking hR).Related .expression anything (liftM (declare name v kind scope))
      (liftM (declare name v kind scope)) p :=
  related_steady hp (steady_declare name v kind scope) (hR.follows (apart_declare name v kind scope))
    fun _ _ ↦ trivial

theorem related_storing {x : Engine α} {B : α → Prop} (hp : (stacking hR).holds p)
    (hx : Storing (fun _ ↦ True) x B) (hfollows : Machine.Follows R S x) (hA : ∀ q a, A q a) :
    (stacking hR).Related .expression A (liftM x) (liftM x) p :=
  related_steady hp hx.steady hfollows hA

/-- What an activity, however it ends, has done to a machine. -/
structure Kept (R S : Machine Journal → Machine Journal → Prop) (k : Stretch) (m : Machine Journal)
    (r : EStateM.Result Stop (Machine Journal) α) : Prop where
  stays : m.state.Stays k (after r).state
  grounded : (after r).state.Grounded
  habit : ∀ a n, r = .ok a n → R m n
  strays : S m (after r)
  raises : ∀ n, r ≠ .error (.fault .popOfGlobalScope) n

theorem kept_of_ends {m : Machine Journal} {a b : EStateM.Result Stop (Machine Journal) α}
    (h : (stacking hR).Ends k A (m, m) a b) : b = a ∧ Kept R S k m a := by
  cases h with
  | ok hh hl _ =>
    refine ⟨congrArg (EStateM.Result.ok _) hh.1, hl.1, hh.2, fun a n hn ↦ ?_, hR.weaken hl.2, fun n hn ↦ ?_⟩
    · cases hn
      exact hl.2
    · cases hn
  | error hh hl hstop =>
    refine ⟨congrArg (EStateM.Result.error _) hh.1, hl.strays.1, hh.2, fun a n hn ↦ ?_, hl.strays.2,
      fun n hn ↦ ?_⟩
    · cases hn
    · cases hn
      exact hstop rfl

theorem kept {m : Machine Journal} {x y : Eval α} (hm : m.state.Grounded)
    (h : (stacking hR).holds (m, m) → (stacking hR).Related k A x y (m, m)) : Kept R S k m (x m) :=
  (kept_of_ends (h ⟨rfl, hm⟩)).2

theorem sound (hR : Habit R S) {s : Settings} (hs : s.names = .ofScopes) : (stacking hR).Sound s s where
  raises f hf := by
    rintro rfl
    cases hf
  heap_eq hp := by rw [hp.1]
  frames_isEmpty hp := by rw [hp.1]
  valid_plain _ := trivial
  valid_held _ _ := trivial
  record line column description ht hp := related_journal hp (fun _ ↦ rfl) (hR.record line column description ht)
  report kind location hp := related_journal hp (fun _ ↦ rfl) (hR.report kind location)
  resolve {p} name hp := by
    rw [hs, Names.resolve_eq]
    exact related_reading hp (p.1.state.raises_resolve name) fun _ _ ↦ trivial
  isDeclared {p} name hp := by
    rw [hs, Names.isDeclared_eq]
    exact related_reading hp ((p.1.state.raises_binder? name).map _) fun _ _ ↦ trivial
  declare name v kind hp _ := by
    rw [hs]
    exact related_declare hp
  declareAs {p} kind name v hp _ := by
    have hscope : (stacking hR).Related .expression anything Names.ofScopes.functionScope
        Names.ofScopes.functionScope p := by
      rw [Names.functionScope_eq]
      exact related_reading hp p.1.state.raises_functionScope fun _ _ ↦ trivial
    rw [hs]
    exact related_declareAs kind name hscope (related_declare hp) fun q scope hq _ _ ↦ related_declare hq
  assign name v hp _ := by
    rw [hs]
    exact related_steady hp (steady_assign name v) (hR.follows (apart_assign name v)) fun _ _ ↦ trivial
  hoist {p} hoisted hp := by
    rw [hs]
    have hhead (f : Fault) (hf : p.1.state.headId = .error f) := Fault.ne_popOfGlobalScope (p.1.state.raises_headId f hf)
    exact related_hoist (B := anything) hoisted hp (by rw [hp.1]) hhead (fun _ _ ↦ trivial)
      (fun q scope hq _ ↦ by rw [hq.1]) fun q scope name hq _ ↦ related_declare hq
  capture hp := by
    rw [hs]
    exact related_steady hp steady_capture (hR.follows apart_capture) fun _ _ ↦ trivial
  freshIdentity hp :=
    related_storing hp storing_freshIdentity (hR.follows apart_freshIdentity) fun _ _ ↦ trivial
  newArray vs hp _ := related_storing hp (storing_newArray fun v _ ↦ within_anything v)
    (hR.follows (apart_newArray vs)) fun _ _ ↦ trivial
  newObject fields hp _ := related_storing hp (storing_newObject fun v _ ↦ within_anything v)
    (hR.follows (apart_newObject fields)) fun _ _ ↦ trivial
  setProperty receiver key v hp _ := related_storing hp (storing_setProperty receiver key (within_anything v))
    (hR.follows (apart_setProperty receiver key v)) fun _ _ ↦ trivial
  say level content hp _ := related_storing hp (storing_say level content)
    (hR.follows (apart_say level content)) fun _ _ ↦ trivial
  timer f arguments line hp _ _ := related_storing hp
    (storing_schedule .macrotask _ _ line fun v _ ↦ within_anything v) (hR.timer f arguments line) fun _ _ ↦ trivial
  fetch url line hp := related_storing hp (storing_fetch url line) (hR.fetch url line) fun _ _ ↦ trivial
  all vs hp _ := related_storing hp (storing_all fun v _ ↦ within_anything v) (hR.all vs) fun _ _ ↦ trivial
  race vs hp _ := related_storing hp (storing_race fun v _ ↦ within_anything v) (hR.race vs) fun _ _ ↦ trivial
  chain address handler hp _ _ := related_storing hp (storing_chain address fun _ _ ↦ trivial)
    (hR.chain address handler) fun _ _ ↦ trivial
  inScope _ _ _ hp hxy := related_inScope hp fun q hq hren ↦ hxy q hq fun _ ↦ hren
  renew hp hr := related_renew hp hr
  inCall _ _ _ _ _ _ hp _ _ hxy := related_inCall hp fun scope q hq ↦ hxy scope q hq trivial fun _ _ ↦ trivial
  keepLocals _ hp _ := related_keepLocals hp
  prune hp _ := related_prune hp

end Correspondence.Stacking

/-- A habit that the event loop keeps as well. -/
structure HabitRun (R S : Machine Journal → Machine Journal → Prop) : Prop extends Habit R S where
  announce : ∀ (task : Task) m, R m (after (Eval.record task.line 0 task.title m))
  modifyLoop : ∀ (g : EventLoop → EventLoop) m, R m { m with state := { m.state with loop := g m.state.loop } }
  completeFetch : ∀ address url, Machine.Follows R S (Engine.completeFetch address url)
  settle : ∀ target v, Machine.Follows R S (Engine.settle target v)
  adopt : ∀ address target, Machine.Follows R S (Engine.subscribe address (.adopt target))
  gather : ∀ aggregate index v, Machine.Follows R S (Engine.gather aggregate index v)

namespace Correspondence.Stacking

open State Engine

variable {p : Machines} {k : Stretch} {A : Machines → Unit → Prop}

theorem related_modifyLoop (hR : HabitRun R S) (g : EventLoop → EventLoop) (hp : (stacking hR.toHabit).holds p)
    (hA : ∀ q, A q ()) :
    (stacking hR.toHabit).Related .task A (Activity.modifyLoop g) (Activity.modifyLoop g) p := by
  obtain ⟨m, rfl, hm⟩ := exists_of_holds hp
  exact .ok ⟨rfl, hm.opened, hm.known⟩ ⟨.of_eq rfl rfl (List.Subset.refl _), hR.modifyLoop g m⟩ (hA _)

theorem soundRun (hR : HabitRun R S) {s : Settings} (hs : s.names = .ofScopes) :
    (stacking hR.toHabit).SoundRun s s where
  toSound := sound hR.toHabit hs
  ceiling_eq := rfl
  loop_eq hp := by rw [hp.1]
  frames_leads hl hf := (hl.1.frames nofun).trans hf
  announce task hp := related_journal hp (fun _ ↦ rfl) (hR.announce task)
  takeMicrotask _ _ hp _ := related_modifyLoop hR _ hp fun _ _ _ ↦ trivial
  takeMacrotask _ _ hp _ := related_modifyLoop hR _ hp fun _ _ _ ↦ trivial
  start _ hp _ := related_modifyLoop hR _ hp fun _ _ _ ↦ trivial
  finish hp := related_modifyLoop hR _ hp fun _ _ _ ↦ trivial
  count hp := related_modifyLoop hR _ hp fun _ ↦ trivial
  truncate _ hp := related_modifyLoop hR _ hp fun _ ↦ trivial
  completeFetch address url hp _ :=
    related_storing hp (storing_completeFetch address url) (hR.completeFetch address url) fun _ _ ↦ trivial
  settle target v hp _ _ :=
    related_storing hp (storing_settle target (within_anything v)) (hR.settle target v) fun _ _ ↦ trivial
  adopt address target hp _ _ := related_storing hp
    (storing_subscribe address (.adopt target) fun v _ ↦ within_anything v) (hR.adopt address target) fun _ _ ↦ trivial
  gather aggregate index v hp _ _ := related_storing hp
    (storing_gather aggregate index (within_anything v)) (hR.gather aggregate index v) fun _ _ ↦ trivial

end Correspondence.Stacking

end Stepwise
