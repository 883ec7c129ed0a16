import Stepwise.Proofs.State.Counted
/-!
Runs keep count of references, as long as no scope of a loop that a function captured comes to bind a
stored array or object.
-/

namespace Stepwise

/-- An activity that does not come about if behind it a condition would not hold. -/
def Eval.keeping {α : Type} (P : State → Bool) (x : Eval α) : Eval α := fun m ↦
  if P (after (x m)).state then x m else .error .exhausted m

/-- Names that are bound and captured only where a condition holds behind it. -/
def Names.keeping (P : State → Bool) (names : Names) : Names := { names with
  declare := fun name v kind scope ↦ Eval.keeping P (names.declare name v kind scope)
  assign := fun name v ↦ Eval.keeping P (names.assign name v)
  capture := Eval.keeping P names.capture }

namespace State

variable {s t u : State} {k : Stretch} {id : Nat} {scope : Scope}

/-- The innermost scope is one that a loop opened inside of another scope. -/
def Renewable (s : State) : Prop :=
  ∃ id outer rest, s.chain = id :: outer :: rest ∧ (s.scope? id).map (·.isLoop) = some true

/-- What a stretch of an evaluation leaves of the stacks and of scopes. -/
structure Proceeds (k : Stretch) (s t : State) : Prop where
  stays : s.Stays k t
  lastId : s.lastId ≤ t.lastId
  loops : ∀ id b, (s.scope? id).map (·.isLoop) = some b → (t.scope? id).map (·.isLoop) = some b
  renewable : s.Renewable → t.Renewable

namespace Proceeds

theorem refl (k : Stretch) (s : State) : s.Proceeds k s := ⟨.refl k s, Nat.le_refl _, fun _ _ ↦ id, id⟩

theorem trans (h : s.Proceeds k t) (h' : t.Proceeds k u) : s.Proceeds k u :=
  ⟨h.stays.trans h'.stays, h.lastId.trans h'.lastId, fun id b hb ↦ h'.loops id b (h.loops id b hb),
    fun hr ↦ h'.renewable (h.renewable hr)⟩

theorem of_chain_eq (hframes : t.frames = s.frames) (hchain : t.chain = s.chain) (hids : s.scopeIds ⊆ t.scopeIds)
    (hlast : s.lastId ≤ t.lastId)
    (hloops : ∀ id b, (s.scope? id).map (·.isLoop) = some b → (t.scope? id).map (·.isLoop) = some b) :
    s.Proceeds k t := by
  refine ⟨.of_eq hframes hchain hids, hlast, hloops, ?_⟩
  rintro ⟨id, outer, rest, hhead, hloop⟩
  exact ⟨id, outer, rest, hchain.trans hhead, hloops id true hloop⟩

theorem of_expression (h : s.Proceeds .expression t) : s.Proceeds k t :=
  .of_chain_eq (h.stays.frames (by decide)) (h.stays.chain (by decide)) h.stays.scopeIds h.lastId h.loops

theorem of_statement (h : s.Proceeds .statement t) : s.Proceeds k t :=
  .of_chain_eq (h.stays.frames (by decide)) (h.stays.chain (by decide)) h.stays.scopeIds h.lastId h.loops

end Proceeds

theorem proceeds_bind (s : State) (scope : Scope) (name : String) (v : Value) :
    s.Proceeds k (s.bind scope name v) := by
  have hids := s.scopeIds_bind scope name v
  refine .of_chain_eq (by rw [bind_eq]) (by rw [bind_eq]) (fun id hid ↦ hids.symm ▸ hid) (by rw [bind_eq]) fun id b hb ↦ ?_
  obtain ⟨old, hold, rfl⟩ := Option.map_eq_some_iff.mp hb
  rw [scope?_bind, hold]
  dsimp only [Option.map_some]
  split <;> rfl

theorem Counted.loops_openScope (h : s.Counted) {rest : List Nat} {frames : List Frame} (hid : s.lastId < scope.id) (id : Nat)
    (b : Bool) (hb : (s.scope? id).map (·.isLoop) = some b) :
    ((s.openScope scope rest frames).scope? id).map (·.isLoop) = some b := by
  obtain ⟨old, hold, rfl⟩ := Option.map_eq_some_iff.mp hb
  have hle := h.fresh id (List.mem_map.mpr ⟨old, List.mem_of_find?_eq_some hold, id_of_scope? hold⟩)
  rw [scope?_openScope, if_neg (by omega), hold]
  rfl

theorem Counted.sheltered_openScope (h : s.Counted) (hs : s.sheltered = true) {rest : List Nat} {frames : List Frame}
    (hid : s.lastId < scope.id) : (s.openScope scope rest frames).sheltered = true := by
  refine sheltered_of_subset hs (List.Subset.refl _) fun id hcaptured ↦ ?_
  have hle := h.fresh id (h.captured hcaptured)
  rw [scope?_openScope, if_neg (by omega)]

end State

/-- References are counted, now and at every step so far. -/
structure Machine.Counted (m : Machine Journal) : Prop where
  state : m.state.Counted
  sheltered : m.state.sheltered = true
  steps : ∀ step ∈ m.journal.steps, step.snapshot.Covered

/-- One evaluation twice, which keeps count of references. -/
def Correspondence.counting : Correspondence where
  holds p := p.2 = p.1 ∧ p.1.Counted
  leads k p q := p.1.state.Proceeds k q.1.state
  strays k p q := p.1.state.Proceeds k q.1.state
  valid p v := v.Made p.1.state.lastId
  closed _ _ := True
  renewable p := p.1.state.Renewable
  entered _ _ := True
  raises _ := True
  refl k p := .refl k p.1.state
  trans := .trans
  of_expression := .of_expression
  of_statement _ := .of_statement
  strays_of_leads := id
  strays_trans := .trans
  strays_of_expression := .of_expression
  strays_of_statement _ := .of_statement
  valid_leads h hv := hv.mono h.lastId
  closed_leads _ _ := trivial
  entered_leads _ _ := trivial
  renewable_leads h := h.renewable
  valid_function := Iff.rfl

namespace Correspondence.Counting

open State Engine Evaluator Activity Eval

variable {p : Machines} {k : Stretch} {α : Type} {A : Nat → α → Prop} {B : Machines → α → Prop} {s : State}

/-- What an operation leaves that keeps count. Its result may depend on how many numbers were handed out. -/
def Counts (k : Stretch) (A : Nat → α → Prop) (s : State) : EStateM.Result Fault State α → Prop
  | .ok a t => t.Counted ∧ s.Proceeds k t ∧ A t.lastId a
  | .error _ t => t.Counted ∧ s.Proceeds k t

theorem exists_of_holds (hp : counting.holds p) : ∃ m : Machine Journal, p = (m, m) ∧ m.Counted :=
  ⟨p.1, Prod.ext rfl hp.1, hp.2⟩

theorem stops_of_proceeds {m n : Machine Journal} (h : m.state.Proceeds k n.state) (stop : Stop) :
    counting.stops k (m, m) (n, n) stop := stops_of_leads (L := counting) (p := (m, m)) (q := (n, n)) h stop

theorem related_of_counts {x : Engine α} (hp : counting.holds p) (hx : Counts k A p.1.state (x p.1.state))
    (hsheltered : (after (x p.1.state)).sheltered = true) (hA : ∀ q a, A q.1.state.lastId a → B q a) :
    counting.Related k B (liftM x) (liftM x) p := by
  obtain ⟨m, rfl, hm⟩ := exists_of_holds hp
  change counting.Ends _ _ _ (ofEngine x m) (ofEngine x m)
  unfold ofEngine
  dsimp only at hx hsheltered
  generalize x m.state = r at hx hsheltered
  cases r with
  | ok a t => exact .ok ⟨rfl, hx.1, hsheltered, hm.steps⟩ hx.2.1 (hA _ a hx.2.2)
  | error f t => exact .error ⟨rfl, hx.1, hsheltered, hm.steps⟩ (stops_of_proceeds hx.2 _) trivial

/-- Where the condition would not hold, nothing has happened. -/
theorem related_keeping {x : Engine α} (hp : counting.holds p) (hx : Counts k A p.1.state (x p.1.state))
    (hA : ∀ q a, A q.1.state.lastId a → B q a) :
    counting.Related k B (Eval.keeping sheltered (liftM x)) (Eval.keeping sheltered (liftM x)) p := by
  have hrelated := fun hsheltered ↦ related_of_counts hp hx hsheltered hA
  obtain ⟨m, rfl, hm⟩ := exists_of_holds hp
  have hafter : (after ((liftM x : Eval α) m)).state = after (x m.state) := by
    change (after (ofEngine x m)).state = _
    unfold ofEngine
    cases x m.state <;> rfl
  unfold Related Eval.keeping
  dsimp only
  rw [hafter]
  by_cases hsheltered : (after (x m.state)).sheltered = true
  · rw [if_pos hsheltered]
    exact hrelated hsheltered
  · rw [if_neg hsheltered]
    exact .error ⟨rfl, hm⟩ (stops_of_proceeds (.refl k m.state) _) trivial

theorem related_stored {x : Engine α} {C : α → Prop} (hp : counting.holds p) (hx : Storing (fun _ ↦ True) x C)
    (ht : Tallying p.1.state.bound p.1.state.lastId x A) (hA : ∀ q a, A q.1.state.lastId a → B q a) :
    counting.Related k B (liftM x) (liftM x) p := by
  obtain ⟨m, rfl, hm⟩ := exists_of_holds hp
  have hblind := hx.blind m.state m.state (holding_anything _)
  have hleft := ht m.state hm.state.tallied (Nat.le_refl _)
  change x m.state = _ at hblind
  have hkept (t : State) (htallied : t.Tallied m.state.bound) (hle : m.state.lastId ≤ t.lastId)
      (hscoping : t = t.withScoping m.state) : t.Counted ∧ m.state.Proceeds k t ∧ t.sheltered = true := by
    refine ⟨hm.state.of_tallied htallied hle hscoping, ?_, ?_⟩
    · rw [hscoping]
      exact .of_chain_eq rfl rfl (List.Subset.refl _) hle fun _ _ ↦ id
    · rw [hscoping]
      exact sheltered_of_subset hm.sheltered (List.Subset.refl _) fun _ _ ↦ rfl
  have hcounts : Counts k A m.state (x m.state) ∧ (after (x m.state)).sheltered = true := by
    generalize x m.state = r at hblind hleft
    cases r with
    | ok a t =>
      injection hblind with _ hscoping
      obtain ⟨hcounted, hproceeds, hsheltered⟩ := hkept t hleft.1 hleft.2.1 hscoping
      exact ⟨⟨hcounted, hproceeds, hleft.2.2⟩, hsheltered⟩
    | error f t =>
      injection hblind with _ hscoping
      obtain ⟨hcounted, hproceeds, hsheltered⟩ := hkept t hleft.1 hleft.2 hscoping
      exact ⟨⟨hcounted, hproceeds⟩, hsheltered⟩
  exact related_of_counts hp hcounts.1 hcounts.2 hA

theorem related_reading {e : State → Except Fault α} (hp : counting.holds p)
    (hB : ∀ a, e p.1.state = .ok a → B p a) : counting.Related k B (Eval.reading e) (Eval.reading e) p := by
  obtain ⟨m, rfl, hm⟩ := exists_of_holds hp
  unfold Related Eval.reading
  dsimp only at hB ⊢
  cases h : e m.state with
  | ok a => exact .ok ⟨rfl, hm⟩ (.refl k m.state) (hB a h)
  | error f => exact .error ⟨rfl, hm⟩ (stops_of_proceeds (.refl k m.state) _) trivial

/-- A declaration is for the innermost scope, or for one that is open or captured. -/
theorem counts_declare (hs : s.Counted) (name : String) {v : Value} (kind : BindingKind) {scope : Option Nat}
    (hv : v.Made s.lastId) (hscope : ∀ id, scope = some id → id ∈ s.liveIds) :
    Counts k whatever s (Engine.declare name v kind scope s) := by
  have hlive (id : Nat) (hid : scope.elim s.headId .ok = .ok id) : id ∈ s.liveIds := by
    cases scope with
    | some id' =>
      cases hid
      exact hscope id rfl
    | none =>
      change s.headId = .ok id at hid
      unfold headId at hid
      split at hid
      next id' rest hchain =>
        cases hid
        exact List.mem_toFinset.mpr (List.mem_append_left _ (hchain ▸ List.mem_cons_self))
      next => cases hid
  rw [declare_apply]
  cases hid : scope.elim s.headId .ok with
  | error f => exact ⟨hs, .refl k s⟩
  | ok id =>
    dsimp only
    cases hfound : s.scope? id with
    | none => exact ⟨hs, .refl k s⟩
    | some found =>
      obtain rfl : found.id = id := id_of_scope? hfound
      have hbound := hs.bind hfound (hlive _ hid) name hv
      refine ⟨hbound.recordVariable name v kind _, (s.proceeds_bind found name v).trans ?_, trivial⟩
      exact .of_chain_eq rfl rfl (List.Subset.refl _) (Nat.le_refl _) fun _ _ ↦ id

theorem counts_assign (hs : s.Counted) (name : String) {v : Value} (hv : v.Made s.lastId) :
    Counts k whatever s (Engine.assign name v s) := by
  rw [assign_apply]
  cases h : s.binder? name with
  | error f => exact ⟨hs, .refl k s⟩
  | ok scope =>
    cases scope with
    | none => exact counts_declare hs name .blockScoped hv nofun
    | some scope =>
      obtain ⟨hfound, hlive⟩ := of_binder? h
      exact ⟨hs.bind hfound hlive name hv, s.proceeds_bind scope name v, trivial⟩

theorem counts_capture (hs : s.Counted) : Counts k whatever s (Engine.capture s) := by
  obtain ⟨ids, captured, h, hids, hcaptured⟩ | ⟨f, h, -⟩ := capture_cases s
  · rw [h]
    refine ⟨hs.rescope s.frames hs.opened (List.Subset.refl _) hs.nodup fun id hid ↦ ?_, ?_, trivial⟩
    · rcases hcaptured id hid with hid | hid
      · exact List.mem_append_right _ hid
      · exact mem_of_visibleIds hids hid
    · exact .of_chain_eq rfl rfl (List.Subset.refl _) (Nat.le_refl _) fun _ _ ↦ id
  · rw [h]
    exact ⟨hs, .refl k s⟩

theorem related_declare {name : String} {v : Value} {kind : BindingKind} {scope : Option Nat} (hp : counting.holds p)
    (hv : counting.valid p v) (hscope : ∀ id, scope = some id → id ∈ p.1.state.liveIds) :
    counting.Related k anything ((Names.keeping sheltered .ofScopes).declare name v kind scope)
      ((Names.keeping sheltered .ofScopes).declare name v kind scope) p :=
  related_keeping hp (counts_declare hp.2.state name kind hv hscope) fun _ _ _ ↦ trivial

theorem related_functionScope (hp : counting.holds p) :
    counting.Related .expression (fun q id ↦ q = p ∧ id ∈ q.1.state.liveIds) Names.ofScopes.functionScope
      Names.ofScopes.functionScope p := by
  rw [Names.functionScope_eq]
  exact related_reading hp fun id hid ↦ ⟨rfl, of_functionScope hid⟩

theorem related_resolve {name : String} (hp : counting.holds p) :
    counting.Related .expression counting.valid (liftM (Engine.resolve name)) (liftM (Engine.resolve name)) p := by
  have hresolve : (liftM (Engine.resolve name) : Eval Value) = Eval.reading (·.resolve name) := liftM_reading _
  rw [hresolve]
  refine related_reading hp fun v hv ↦ ?_
  obtain ⟨scope, hscope, hv⟩ := exists_of_resolve hv
  exact hp.2.state.made hscope hv

theorem related_isDeclared {name : String} (hp : counting.holds p) :
    counting.Related .expression anything (liftM (Engine.isDeclared name)) (liftM (Engine.isDeclared name)) p := by
  have hdeclared : (liftM (Engine.isDeclared name) : Eval Bool) = Eval.reading (·.isDeclared name) := liftM_reading _
  rw [hdeclared]
  exact related_reading hp fun _ _ ↦ trivial

theorem related_record {line column : Int} {description : Text} (hp : counting.holds p) :
    counting.Related .expression anything (Eval.record line column description)
      (Eval.record line column description) p := by
  obtain ⟨m, rfl, hm⟩ := exists_of_holds hp
  refine .ok ⟨rfl, hm.state, hm.sheltered, ?_⟩ (.refl _ m.state) trivial
  exact List.forall_mem_append.mpr ⟨hm.steps, List.forall_mem_singleton.mpr hm.state.covered⟩

theorem related_report {kind : String} {location : Location} (hp : counting.holds p) :
    counting.Related .expression anything (Eval.reportUnsupported kind location)
      (Eval.reportUnsupported kind location) p := by
  obtain ⟨m, rfl, hm⟩ := exists_of_holds hp
  exact .ok ⟨rfl, hm.state, hm.sheltered, hm.steps⟩ (.refl _ m.state) trivial

theorem ends_of_opened {k' : Stretch} {C : Machines → α → Prop} {x y : Eval α} {close : Engine Unit} {s : State}
    {j : Journal} (scope : Scope) (frames : List Frame) (leaves : List Frame → List Frame) (hs : s.Counted)
    (hid : s.lastId < scope.id)
    (hclose : ∀ (r : State) id outer rest, r.chain = id :: outer :: rest →
      close r = .ok () { r with chain := outer :: rest, frames := leaves r.frames })
    (hframes : ∀ r, (s.openScope scope s.chain frames).Stays k r → leaves r.frames = s.frames)
    (hC : ∀ q r a, q.1.state.lastId = r.1.state.lastId → B q a → C r a)
    (h : counting.Related k B x y (⟨s.openScope scope s.chain frames, j⟩, ⟨s.openScope scope s.chain frames, j⟩)) :
    counting.Ends k' C (⟨s, j⟩, ⟨s, j⟩) (closing x close ⟨s.openScope scope s.chain frames, j⟩)
      (closing y close ⟨s.openScope scope s.chain frames, j⟩) := by
  refine h.closes fun r hr hl ↦ ?_
  obtain ⟨⟨r, jr⟩, rfl, hm⟩ := exists_of_holds hr
  have hproceeds : (s.openScope scope s.chain frames).Proceeds k r := hl
  -- whatever the activity did inside, the scope and the frame that were opened are on top, and go
  obtain ⟨id, outer, rest, hchain, hchain'⟩ :=
    exists_chain_eq hm.state.toGrounded hs.opened hproceeds.stays.outerChain
  have hclosed := hclose r id outer rest hchain
  rw [hframes r hproceeds.stays, ← hchain'] at hclosed
  have hids : s.scopeIds ⊆ r.scopeIds := fun _ h ↦ hproceeds.stays.scopeIds (List.mem_cons_of_mem _ h)
  have hbehind : s.Proceeds k' { r with chain := s.chain, frames := s.frames } :=
    .of_chain_eq rfl rfl hids (hid.le.trans hproceeds.lastId) fun id b hb ↦
      hproceeds.loops id b (hs.loops_openScope hid id b hb)
  have hsub : s.chain ⊆ r.chain := hchain ▸ hchain' ▸ List.subset_cons_self id (outer :: rest)
  have hcounted : State.Counted { r with chain := s.chain, frames := s.frames } :=
    hm.state.rescope s.frames hs.opened hsub hs.nodup fun _ hid ↦ List.mem_append_right _ hid
  exact ⟨_, _, ofEngine_apply hclosed, ofEngine_apply hclosed, ⟨rfl, hcounted, hm.sheltered, hm.steps⟩,
    fun _ ↦ hbehind, hbehind, fun _ hv ↦ hv, fun a ha ↦ hC (⟨r, jr⟩, ⟨r, jr⟩) _ a rfl ha⟩

theorem related_inScope {name : String} {x y : Eval Unit} (hp : counting.holds p)
    (hxy : ∀ q, counting.holds q → (name = "for" → counting.renewable q) →
      counting.Related .iteration anything x y q) :
    counting.Related .statement anything (inScope name x) (inScope name y) p := by
  obtain ⟨⟨s, j⟩, rfl, hm⟩ := exists_of_holds hp
  have hs : s.Counted := hm.state
  let scope : Scope := { id := s.lastId + 1, kind := .block, name, parent := s.chain.head? }
  have hid : s.lastId < scope.id := Nat.lt_succ_self _
  refine ends_of_opened (k := .iteration) (B := anything) scope s.frames id hs hid
    (fun r _ _ _ hr ↦ closeScope_apply hr) (fun r hr ↦ hr.frames (by decide)) (fun _ _ _ _ _ ↦ trivial) ?_
  refine hxy _ ⟨rfl, hs.openEmpty s.frames hid rfl, hs.sheltered_openScope hm.sheltered hid, hm.steps⟩ fun hname ↦ ?_
  obtain ⟨outer, rest, hchain⟩ := List.exists_cons_of_ne_nil hs.opened
  refine ⟨scope.id, outer, rest, congrArg (scope.id :: ·) hchain, ?_⟩
  change ((s.openScope scope s.chain s.frames).scope? scope.id).map _ = _
  rw [scope?_openScope, if_pos rfl, Option.map_some]
  subst hname
  rfl

theorem related_renew (hp : counting.holds p) (hr : counting.renewable p) :
    counting.Related .iteration anything (liftM renewScope) (liftM renewScope) p := by
  obtain ⟨⟨s, j⟩, rfl, hm⟩ := exists_of_holds hp
  obtain ⟨id, outer, rest, hchain, hloop⟩ := hr
  obtain ⟨old, hold, hloop⟩ := Option.map_eq_some_iff.mp hloop
  dsimp only at hchain hold
  have hs : s.Counted := hm.state
  have hfresh (scope : Scope) (hscope : scope ∈ s.scopes) : scope.id ≠ s.lastId + 1 := by
    have hle := hs.fresh scope.id (List.mem_map_of_mem hscope)
    omega
  have hrenew := renewScope_of_fresh hfresh hchain hold
  have hcounted := hs.renew hm.sheltered (old.parent.or (some outer)) hchain hold hloop
  let fresh : Scope := { old with id := s.lastId + 1, parent := old.parent.or (some outer) }
  have hid : s.lastId < fresh.id := Nat.lt_succ_self _
  change counting.Ends _ _ _ (ofEngine renewScope ⟨s, j⟩) (ofEngine renewScope ⟨s, j⟩)
  rw [ofEngine_apply hrenew]
  refine .ok ⟨rfl, hcounted, hs.sheltered_openScope hm.sheltered hid, hm.steps⟩ ⟨⟨fun _ ↦ rfl, rfl, fun h ↦ absurd rfl h,
    ?_, List.subset_cons_self _ _⟩, hid.le, hs.loops_openScope hid, fun _ ↦ ⟨fresh.id, outer, rest, rfl, ?_⟩⟩ trivial
  · exact (congrArg List.tail hchain).symm
  · change ((s.openScope fresh (outer :: rest) s.frames).scope? fresh.id).map _ = _
    rw [scope?_openScope, if_pos rfl]
    exact congrArg some hloop

theorem related_inCall {f : Function} {arguments : List Value} {line : Int} {name : String}
    {x y : Nat → Eval Value} (hp : counting.holds p)
    (hxy : ∀ scope q, counting.holds q → (∀ v, counting.valid p v → counting.valid q v) →
      counting.Related .body counting.valid (x scope) (y scope) q) :
    counting.Related .expression counting.valid (inCall f arguments line name x)
      (inCall f arguments line name y) p := by
  obtain ⟨⟨s, j⟩, rfl, hm⟩ := exists_of_holds hp
  have hs : s.Counted := hm.state
  let scope := s.callScope f name
  let frame := s.callFrame f arguments line name
  have hid : s.lastId < scope.id := s.lt_callScope f name
  refine ends_of_opened (k := .body) (B := counting.valid) scope (frame :: s.frames) List.tail hs hid
    (fun r _ _ _ hr ↦ leave_apply hr) (fun r hr ↦ hr.outerFrames)
    (fun q r v hlast hv ↦ Value.Made.mono hv hlast.le) ?_
  refine (hxy _ _ ⟨rfl, hs.openEmpty _ hid rfl, hs.sheltered_openScope hm.sheltered hid, hm.steps⟩ fun v hv ↦ ?_).catchReturn
  exact Value.Made.mono hv hid.le

theorem related_keepLocals {scope : Nat} (hp : counting.holds p) :
    counting.Related .body anything (liftM (keepLocals scope)) (liftM (keepLocals scope)) p := by
  obtain ⟨frames, hframes, -, htail⟩ := keepLocals_apply scope p.1.state
  have hs := hp.2.state
  have hcounts : Counts .body whatever p.1.state (keepLocals scope p.1.state) := by
    rw [hframes]
    exact ⟨hs.rescope frames hs.opened (List.Subset.refl _) hs.nodup fun _ hid ↦ List.mem_append_right _ hid,
      ⟨⟨fun h ↦ absurd rfl h, htail, fun _ ↦ rfl, rfl, List.Subset.refl _⟩, Nat.le_refl _, fun _ _ ↦ id, id⟩, trivial⟩
  refine related_of_counts hp hcounts ?_ fun _ _ _ ↦ trivial
  rw [hframes]
  exact hp.2.sheltered

theorem related_prune {settings : Settings} (hp : counting.holds p) :
    counting.Related .statement anything (Eval.prune settings) (Eval.prune settings) p := by
  obtain ⟨m, rfl, hm⟩ := exists_of_holds hp
  have hpruned : m.state.prune.captured ⊆ m.state.captured := fun _ hid ↦ List.mem_of_mem_filter hid
  unfold Related
  rw [prune_apply]
  cases settings.prunes with
  | false => exact .ok ⟨rfl, hm⟩ (.refl _ m.state) trivial
  | true =>
    have hs := hm.state
    refine .ok ⟨rfl, ?_, sheltered_of_subset hm.sheltered hpruned fun _ _ ↦ rfl, hm.steps⟩ ?_ trivial
    · exact hs.rescope m.state.frames hs.opened (List.Subset.refl _) hs.nodup fun _ hid ↦
        List.mem_append_right _ (hpruned hid)
    · exact .of_chain_eq rfl rfl (List.Subset.refl _) (Nat.le_refl _) fun _ _ ↦ id

theorem valid_held {v : Value} (hp : counting.holds p) (hv : p.1.state.heap.Holds v) : counting.valid p v := by
  obtain ⟨address, cell, hcell, hv⟩ := hv
  exact hp.2.state.tallied.heap cell (Dict.mem_values_of_get? hcell) v (List.mem_append.mpr hv.symm)

theorem sound {s : Settings} (hs : s.names = .keeping sheltered .ofScopes) : counting.Sound s s where
  raises _ _ := trivial
  heap_eq hp := by rw [hp.1]
  frames_isEmpty hp := by rw [hp.1]
  valid_plain hv := Value.made_of_isPlain hv
  valid_held := valid_held
  record _ _ _ _ := related_record
  report _ _ := related_report
  resolve name hp := by
    rw [hs]
    exact related_resolve hp
  isDeclared name hp := by
    rw [hs]
    exact related_isDeclared hp
  declare name v kind hp hv := by
    rw [hs]
    exact related_declare hp hv nofun
  declareAs kind name v hp hv := by
    rw [hs]
    refine related_declareAs kind name (related_functionScope hp) (related_declare hp hv nofun) fun q scope hq _ hlive ↦ ?_
    obtain ⟨rfl, hlive⟩ := hlive
    refine related_declare hq hv fun id hid ↦ ?_
    cases hid
    exact hlive
  assign name v hp hv := by
    rw [hs]
    exact related_keeping hp (counts_assign hp.2.state name hv) fun _ _ _ ↦ trivial
  hoist hoisted hp := by
    rw [hs]
    exact related_hoist (B := anything) hoisted hp (by rw [hp.1]) (fun _ _ ↦ trivial) (fun _ _ ↦ trivial)
      (fun q scope hq _ ↦ by rw [hq.1]) fun q scope name hq _ ↦ related_declare hq trivial nofun
  capture hp := by
    rw [hs]
    exact related_keeping hp (counts_capture hp.2.state) fun _ _ _ ↦ trivial
  freshIdentity hp := related_stored hp storing_freshIdentity tallying_freshIdentity fun _ _ _ ↦ trivial
  newArray vs hp hvs := related_stored hp (storing_newArray fun v _ ↦ within_anything v) (tallying_newArray hvs)
    fun _ _ ↦ id
  newObject fields hp hf := related_stored hp (storing_newObject fun v _ ↦ within_anything v) (tallying_newObject hf)
    fun _ _ ↦ id
  setProperty receiver key v hp hv := related_stored hp (storing_setProperty receiver key (within_anything v))
    (tallying_setProperty receiver key hv) fun _ _ _ ↦ trivial
  say level content hp _ := related_stored hp (storing_say level content) (tallying_say level content) fun _ _ _ ↦ trivial
  timer f arguments line hp _ hvs := related_stored hp
    (storing_schedule .macrotask _ _ line fun v _ ↦ within_anything v)
    (tallying_schedule .macrotask _ (.call f arguments) line (List.forall_mem_cons.mpr ⟨trivial, hvs⟩))
    fun _ _ _ ↦ trivial
  fetch url line hp := related_stored hp (storing_fetch url line) (tallying_fetch url line) fun _ _ _ ↦ trivial
  all vs hp hvs := related_stored hp (storing_all fun v _ ↦ within_anything v) (tallying_all hvs) fun _ _ _ ↦ trivial
  race vs hp hvs := related_stored hp (storing_race fun v _ ↦ within_anything v) (tallying_race hvs) fun _ _ _ ↦ trivial
  chain address handler hp _ _ := related_stored hp (storing_chain address fun _ _ ↦ trivial)
    (tallying_chain address handler) fun _ _ _ ↦ trivial
  inScope _ _ _ hp hxy := related_inScope hp hxy
  renew hp hr := related_renew hp hr
  inCall _ _ _ _ _ _ hp _ _ hxy := related_inCall hp fun scope q hq hvalid ↦ hxy scope q hq trivial hvalid
  keepLocals _ hp _ := related_keepLocals hp
  prune hp _ := related_prune hp

/-- A change of the queues that keeps tasks of before and brings in others whose values are made. -/
theorem related_modifyLoop {g : EventLoop → EventLoop} (hp : counting.holds p)
    (hg : ∀ u : State, ∀ task ∈ { u with loop := g u.loop }.tasks,
      task ∈ u.tasks ∨ AllMade p.1.state.lastId task.job.values)
    {C : Machines → Unit → Prop} (hC : ∀ q, counting.leads .expression p q → C q ()) :
    counting.Related .task C (Activity.modifyLoop g) (Activity.modifyLoop g) p := by
  have htallying : Tallying p.1.state.bound p.1.state.lastId (Engine.modifyLoop g) whatever := by
    intro u hu hle
    refine ⟨hu.withLoop fun task htask v hv ↦ ?_, Nat.le_refl _, trivial⟩
    rcases hg u task htask with htask | htask
    · exact hu.tasks task htask v hv
    · exact (htask v hv).mono hle
  have hstored : counting.Related .expression anything (Activity.modifyLoop g) (Activity.modifyLoop g) p :=
    related_stored hp (storing_modifyLoop fun _ _ ↦ holding_anything _) htallying fun _ _ _ ↦ trivial
  exact (hstored.post fun q _ _ hl _ ↦ hC q hl).of_expression

theorem tasks_made {task : Task} (hp : counting.holds p) (ht : task ∈ p.1.state.tasks) :
    counting.allValid p task.job.references :=
  (Job.forall_references fun _ ↦ trivial).mpr (hp.2.state.tallied.tasks task ht)

theorem soundRun {s : Settings} (hs : s.names = .keeping sheltered .ofScopes) : counting.SoundRun s s where
  toSound := sound hs
  ceiling_eq := rfl
  loop_eq hp := by rw [hp.1]
  frames_leads hl hf := (hl.stays.frames (by decide)).trans hf
  announce _ := related_record
  takeMicrotask {p} task rest hp hm := by
    have htasks (u : Task) (hu : u ∈ task :: rest) : u ∈ p.1.state.tasks := mem_tasks_of_mem_microtasks (hm ▸ hu)
    refine related_modifyLoop hp (fun u w hw ↦ ?_) fun q hl ↦ (tasks_made hp (htasks task List.mem_cons_self)).leads hl
    exact (mem_tasks_of_microtasks hw).imp_right fun hw ↦
      hp.2.state.tallied.tasks w (htasks w (List.mem_cons_of_mem task hw))
  takeMacrotask {p} task rest hp hm := by
    have htasks (u : Task) (hu : u ∈ task :: rest) : u ∈ p.1.state.tasks := mem_tasks_of_mem_macrotasks (hm ▸ hu)
    refine related_modifyLoop hp (fun u w hw ↦ ?_) fun q hl ↦ (tasks_made hp (htasks task List.mem_cons_self)).leads hl
    exact (mem_tasks_of_macrotasks hw).imp_right fun hw ↦
      hp.2.state.tallied.tasks w (htasks w (List.mem_cons_of_mem task hw))
  start {p} task hp hj := by
    refine related_modifyLoop hp (fun u w hw ↦ ?_) fun q hl ↦ Correspondence.allValid.leads hj hl
    rcases mem_tasks_of_current hw with hw | hw
    · exact .inl hw
    · cases hw
      exact .inr ((Job.forall_references fun _ ↦ trivial).mp hj)
  finish {p} hp := by
    refine related_modifyLoop hp (fun u w hw ↦ .inl ?_) fun q hl v hv ↦ hv.mono hl.lastId
    exact (mem_tasks_of_current hw).resolve_right nofun
  count hp := related_modifyLoop hp (fun _ _ ↦ .inl) fun _ _ ↦ trivial
  truncate _ hp := related_modifyLoop hp (fun _ _ ↦ .inl) fun _ _ ↦ trivial
  completeFetch address url hp _ :=
    related_stored hp (storing_completeFetch address url) (tallying_completeFetch address url) fun _ _ _ ↦ trivial
  settle target v hp _ hv := related_stored hp (storing_settle target (within_anything v)) (tallying_settle target hv)
    fun _ _ _ ↦ trivial
  adopt address target hp _ _ := related_stored hp
    (storing_subscribe address (.adopt target) fun v _ ↦ within_anything v) (tallying_subscribe address (.adopt target))
    fun _ _ _ ↦ trivial
  gather aggregate index v hp _ hv := related_stored hp (storing_gather aggregate index (within_anything v))
    (tallying_gather aggregate index hv) fun _ _ _ ↦ trivial

end Correspondence.Counting

end Stepwise
