import Stepwise.Proofs.Run.Stacking
import Stepwise.Proofs.State.Framing
/-!
Runs keep calls in progress on the scopes that were opened for them.
-/

namespace Stepwise

namespace Engine

open State

variable {α : Type} {x : Engine α} {A : α → Prop}

theorem rests_capture (s : State) : s.Rests (after (capture s)) := by
  obtain ⟨ids, captured, h, -⟩ | ⟨f, h, -⟩ := capture_cases s
  · rw [h]
    exact .of_eq rfl rfl rfl (Nat.le_refl _)
  · rw [h]
    exact .refl s

theorem Storing.rests (hx : Storing (fun _ ↦ True) x A) (s : State) : s.Rests (after (x s)) := by
  rw [← hx.withScoping_after (holding_anything s)]
  exact .of_eq rfl rfl rfl (hx.develops (holding_anything s)).lastId

end Engine

namespace State

variable {s t u : State} {k : Stretch}

/-- The innermost scope is a block. -/
def InBlock (s : State) : Prop := ∃ id ∈ s.chain.head?, s.kind? id = some .block

/-- What a stretch of an evaluation leaves of the stacks and of the kinds of scopes. -/
structure Maintains (k : Stretch) (s t : State) : Prop where
  stays : s.Stays k t
  lastId : s.lastId ≤ t.lastId
  kinds : ∀ id kind, s.kind? id = some kind → t.kind? id = some kind
  inBlock : s.InBlock → t.InBlock

namespace Maintains

theorem of_chain_eq (hstays : s.Stays k t) (hchain : t.chain = s.chain) (hlastId : s.lastId ≤ t.lastId)
    (hkinds : ∀ id kind, s.kind? id = some kind → t.kind? id = some kind) : s.Maintains k t := by
  refine ⟨hstays, hlastId, hkinds, ?_⟩
  rintro ⟨id, hhead, hkind⟩
  exact ⟨id, hchain ▸ hhead, hkinds id _ hkind⟩

theorem of_rests (h : s.Rests t) : s.Maintains k t := by
  have hids : t.scopeIds = s.scopeIds := by
    have hmap (u : State) : u.scopeIds = (u.scopes.map fun scope ↦ (scope.id, scope.kind)).map Prod.fst := by
      rw [List.map_map]
      rfl
    rw [hmap, hmap, h.kinds]
  refine .of_chain_eq (.of_eq h.frames h.chain (hids ▸ List.Subset.refl _)) h.chain h.lastId fun id kind hkind ↦ ?_
  rwa [h.kind?_eq]

theorem refl (k : Stretch) (s : State) : s.Maintains k s := .of_rests (.refl s)

theorem trans (h : s.Maintains k t) (h' : t.Maintains k u) : s.Maintains k u :=
  ⟨h.stays.trans h'.stays, Nat.le_trans h.lastId h'.lastId, fun id kind hkind ↦ h'.kinds id kind (h.kinds id kind hkind),
    fun hb ↦ h'.inBlock (h.inBlock hb)⟩

theorem of_expression (h : s.Maintains .expression t) : s.Maintains k t :=
  ⟨h.stays.of_expression, h.lastId, h.kinds, h.inBlock⟩

theorem of_statement (h : s.Maintains .statement t) : s.Maintains k t :=
  ⟨h.stays.of_statement, h.lastId, h.kinds, h.inBlock⟩

end Maintains

theorem Founded.grounded (hs : s.Founded) : s.Grounded := by
  refine ⟨hs.framing.ne_nil, fun id hid ↦ ?_⟩
  obtain ⟨kind, hkind⟩ := hs.framing.exists_kind id hid
  obtain ⟨scope, hscope, -⟩ := Option.map_eq_some_iff.mp hkind
  exact List.mem_map.mpr ⟨scope, List.mem_of_find?_eq_some hscope, id_of_scope? hscope⟩

end State

/-- Calls are in progress on their scopes, now and at every step so far. -/
structure Machine.Founded (m : Machine Journal) : Prop where
  state : m.state.Founded
  steps : ∀ step ∈ m.journal.steps, step.snapshot.Framed

/-- One evaluation twice, which keeps calls on their scopes. -/
def Correspondence.framing : Correspondence where
  holds p := p.2 = p.1 ∧ p.1.Founded
  leads k p q := p.1.state.Maintains k q.1.state
  strays k p q := p.1.state.Maintains k q.1.state
  valid _ _ := True
  closed _ _ := True
  renewable p := p.1.state.InBlock
  entered _ _ := True
  raises _ := True
  refl k p := .refl k p.1.state
  trans := .trans
  of_expression := .of_expression
  of_statement _ := .of_statement
  strays_of_leads := id
  strays_trans := .trans
  strays_of_expression := .of_expression
  strays_of_statement _ := .of_statement
  valid_leads _ _ := trivial
  closed_leads _ _ := trivial
  entered_leads _ _ := trivial
  renewable_leads h := h.inBlock
  valid_function := Iff.rfl

namespace Correspondence.Framing

open State Engine Evaluator Activity Eval

variable {p : Machines} {k : Stretch} {α : Type} {A : Machines → α → Prop}

theorem exists_of_holds (hp : framing.holds p) : ∃ m : Machine Journal, p = (m, m) ∧ m.Founded :=
  ⟨p.1, Prod.ext rfl hp.1, hp.2⟩

theorem related_of_maintains {x : Engine α} (hp : framing.holds p) (hm : p.1.state.Maintains k (after (x p.1.state)))
    (hs : (after (x p.1.state)).Founded) (hA : ∀ q a, A q a) : framing.Related k A (liftM x) (liftM x) p := by
  obtain ⟨m, rfl, hfounded⟩ := exists_of_holds hp
  change framing.Ends _ _ _ (ofEngine x m) (ofEngine x m)
  unfold ofEngine
  dsimp only at hm hs
  cases h : x m.state with
  | ok a t =>
    rw [h] at hm hs
    exact .ok ⟨rfl, hs, hfounded.steps⟩ hm (hA _ a)
  | error f t =>
    rw [h] at hm hs
    exact .error ⟨rfl, hs, hfounded.steps⟩ hm trivial

theorem related_rests {x : Engine α} (hp : framing.holds p) (hx : ∀ s : State, s.Rests (after (x s)))
    (hA : ∀ q a, A q a) : framing.Related k A (liftM x) (liftM x) p :=
  related_of_maintains hp (.of_rests (hx _)) ((hx _).founded hp.2.state) hA

/-- Promises and tasks come about beside the stacks. -/
theorem related_storing {x : Engine α} {B : α → Prop} (hp : framing.holds p) (hx : Storing (fun _ ↦ True) x B)
    (hA : ∀ q a, A q a) : framing.Related k A (liftM x) (liftM x) p := related_rests hp hx.rests hA

theorem related_reading {e : State → Except Fault α} (hp : framing.holds p) (hA : ∀ q a, A q a) :
    framing.Related k A (Eval.reading e) (Eval.reading e) p := by
  obtain ⟨m, rfl, hm⟩ := exists_of_holds hp
  unfold Related Eval.reading
  dsimp only
  cases e m.state with
  | ok a => exact .ok ⟨rfl, hm⟩ (.refl k m.state) (hA _ a)
  | error f => exact .error ⟨rfl, hm⟩ (.refl k m.state) trivial

theorem related_record {line column : Int} {description : Text} (hp : framing.holds p) :
    framing.Related .expression anything (Eval.record line column description)
      (Eval.record line column description) p := by
  obtain ⟨m, rfl, hm⟩ := exists_of_holds hp
  have hrests (step : Nat) : m.state.Rests { m.state with step } := .of_eq rfl rfl rfl (Nat.le_refl _)
  refine .ok ⟨rfl, hm.state, ?_⟩ (.refl _ m.state) trivial
  exact List.forall_mem_append.mpr ⟨hm.steps, List.forall_mem_singleton.mpr ((hrests _).founded hm.state).framed⟩

theorem related_report {kind : String} {location : Location} (hp : framing.holds p) :
    framing.Related .expression anything (Eval.reportUnsupported kind location)
      (Eval.reportUnsupported kind location) p := by
  obtain ⟨m, rfl, hm⟩ := exists_of_holds hp
  exact .ok ⟨rfl, hm.state, hm.steps⟩ (.refl _ m.state) trivial

theorem ends_of_opened {k' : Stretch} {C : Machines → α → Prop} {x y : Eval α} {close : Engine Unit} {s : State}
    {j : Journal} (scope : Scope) (frames : List Frame) (leaves : List Frame → List Frame) (hs : s.Founded)
    (hid : s.lastId < scope.id)
    (hclose : ∀ (r : State) id outer rest, r.chain = id :: outer :: rest →
      close r = .ok () { r with chain := outer :: rest, frames := leaves r.frames })
    (hframes : ∀ r, (s.openScope scope s.chain frames).Stays k r → leaves r.frames = s.frames)
    (hC : ∀ q a, C q a)
    (h : framing.Related k A x y (⟨s.openScope scope s.chain frames, j⟩, ⟨s.openScope scope s.chain frames, j⟩)) :
    framing.Ends k' C (⟨s, j⟩, ⟨s, j⟩) (closing x close ⟨s.openScope scope s.chain frames, j⟩)
      (closing y close ⟨s.openScope scope s.chain frames, j⟩) := by
  refine h.closes fun r hr hl ↦ ?_
  obtain ⟨⟨r, jr⟩, rfl, hm⟩ := exists_of_holds hr
  have hmaintains : (s.openScope scope s.chain frames).Maintains k r := hl
  have hstays := hmaintains.stays
  -- whatever the activity did inside, the scope and the frame that were opened are on top, and go
  obtain ⟨id, outer, rest, hchain, hchain'⟩ :=
    exists_chain_eq hm.state.grounded hs.grounded.opened hstays.outerChain
  have hclosed := hclose r id outer rest hchain
  rw [hframes r hstays, ← hchain'] at hclosed
  have hkinds (id : Nat) (kind : ScopeKind) (hkind : s.kind? id = some kind) : r.kind? id = some kind :=
    hmaintains.kinds id kind (hs.kind?_openScope hid hkind)
  have hids : s.scopeIds ⊆ r.scopeIds := fun _ h ↦ hstays.scopeIds (List.mem_cons_of_mem _ h)
  have hlast : s.lastId ≤ r.lastId := Nat.le_trans (Nat.le_of_lt hid) hmaintains.lastId
  have hbehind : s.Maintains k' { r with chain := s.chain, frames := s.frames } :=
    .of_chain_eq (.of_eq rfl rfl hids) rfl hlast hkinds
  have hfounded : State.Founded { r with chain := s.chain, frames := s.frames } :=
    ⟨hs.framing.mono hkinds, hs.distinct, hm.state.fresh⟩
  exact ⟨_, _, ofEngine_apply hclosed, ofEngine_apply hclosed, ⟨rfl, hfounded, hm.steps⟩,
    fun _ ↦ hbehind, hbehind, fun _ hv ↦ hv, fun a _ ↦ hC _ a⟩

theorem related_inScope {name : String} {x y : Eval Unit} (hp : framing.holds p)
    (hxy : ∀ q, framing.holds q → framing.renewable q → framing.Related .iteration anything x y q) :
    framing.Related .statement anything (inScope name x) (inScope name y) p := by
  obtain ⟨⟨s, j⟩, rfl, hm⟩ := exists_of_holds hp
  have hs : s.Founded := hm.state
  let scope : Scope := { id := s.lastId + 1, kind := .block, name, parent := s.chain.head? }
  have hid : s.lastId < scope.id := Nat.lt_succ_self _
  have hkind : (s.openScope scope s.chain s.frames).kind? scope.id = some .block := kind?_openScope_self
  have hframing : Framing (s.openScope scope s.chain s.frames).kind? s.frames (scope.id :: s.chain) :=
    .block hkind (hs.framing.mono fun _ _ ↦ hs.kind?_openScope hid)
  refine ends_of_opened (k := .iteration) (A := anything) scope s.frames id hs hid
    (fun r _ _ _ hr ↦ closeScope_apply hr) (fun r hr ↦ hr.frames (by decide)) (fun _ _ ↦ trivial) ?_
  exact hxy _ ⟨rfl, hs.openScope hid (List.Sublist.refl _) hframing, hm.steps⟩ ⟨scope.id, rfl, hkind⟩

theorem related_renew (hp : framing.holds p) (hr : framing.renewable p) :
    framing.Related .iteration anything (liftM renewScope) (liftM renewScope) p := by
  obtain ⟨⟨s, j⟩, rfl, hm⟩ := exists_of_holds hp
  have hs : s.Founded := hm.state
  obtain ⟨id, hhead, hblock⟩ : s.InBlock := hr
  obtain ⟨rest, hchain⟩ := List.head?_eq_some_iff.mp hhead
  obtain ⟨old, hold, hkind⟩ := Option.map_eq_some_iff.mp hblock
  have hframing := hs.framing
  rw [hchain] at hframing
  have houter := hframing.of_block hblock
  obtain ⟨outer, rest, rfl⟩ := List.exists_cons_of_ne_nil houter.ne_nil
  have hfresh (scope : Scope) (hscope : scope ∈ s.scopes) : scope.id ≠ s.lastId + 1 := by
    have hle := hs.fresh scope hscope
    omega
  let fresh : Scope := { old with id := s.lastId + 1, parent := old.parent.or (some outer) }
  let renewed : State := s.openScope fresh (outer :: rest) s.frames
  have hrenew : renewScope s = .ok (s.lastId + 1) renewed := renewScope_of_fresh hfresh hchain hold
  have hid : s.lastId < fresh.id := Nat.lt_succ_self _
  have hkinds (id : Nat) (kind : ScopeKind) (hkind : s.kind? id = some kind) : renewed.kind? id = some kind :=
    hs.kind?_openScope hid hkind
  have hself : renewed.kind? fresh.id = some .block := hkind ▸ kind?_openScope_self
  have hfounded : renewed.Founded := by
    refine hs.openScope hid ?_ (.block hself (houter.mono hkinds))
    rw [hchain]
    exact List.sublist_cons_self id _
  change framing.Ends _ _ _ (ofEngine renewScope ⟨s, j⟩) (ofEngine renewScope ⟨s, j⟩)
  rw [ofEngine_apply hrenew]
  have hstays : s.Stays .iteration renewed :=
    ⟨fun _ ↦ rfl, rfl, fun h ↦ absurd rfl h, (congrArg List.tail hchain).symm, List.subset_cons_self _ _⟩
  exact .ok ⟨rfl, hfounded, hm.steps⟩ ⟨hstays, Nat.le_of_lt hid, hkinds, fun _ ↦ ⟨fresh.id, rfl, hself⟩⟩ trivial

theorem related_inCall {f : Function} {arguments : List Value} {line : Int} {name : String}
    {x y : Nat → Eval Value} (hp : framing.holds p)
    (hxy : ∀ scope q, framing.holds q → framing.Related .body framing.valid (x scope) (y scope) q) :
    framing.Related .expression framing.valid (inCall f arguments line name x) (inCall f arguments line name y) p := by
  obtain ⟨⟨s, j⟩, rfl, hm⟩ := exists_of_holds hp
  have hs : s.Founded := hm.state
  let scope := s.callScope f name
  let frame := s.callFrame f arguments line name
  have hid : s.lastId < scope.id := s.lt_callScope f name
  have hframing : Framing (s.openScope scope s.chain (frame :: s.frames)).kind? (frame :: s.frames)
      (scope.id :: s.chain) :=
    .call kind?_openScope_self rfl rfl (hs.framing.mono fun _ _ ↦ hs.kind?_openScope hid)
  refine ends_of_opened (k := .body) (A := framing.valid) scope (frame :: s.frames) List.tail hs hid
    (fun r _ _ _ hr ↦ leave_apply hr) (fun r hr ↦ hr.outerFrames) (fun _ _ ↦ trivial) ?_
  exact (hxy _ _ ⟨rfl, hs.openScope hid (List.Sublist.refl _) hframing, hm.steps⟩).catchReturn

theorem related_keepLocals {scope : Nat} (hp : framing.holds p) :
    framing.Related .body anything (liftM (keepLocals scope)) (liftM (keepLocals scope)) p := by
  obtain ⟨frames, hframes, hfooting, htail⟩ := footing_keepLocals scope p.1.state
  refine related_of_maintains hp ?_ ?_ fun _ _ ↦ trivial
  · rw [hframes]
    have hstays : p.1.state.Stays .body { p.1.state with frames } :=
      ⟨fun h ↦ absurd rfl h, htail, fun _ ↦ rfl, rfl, List.Subset.refl _⟩
    exact .of_chain_eq hstays rfl (Nat.le_refl _) fun _ _ ↦ id
  · rw [hframes]
    exact hp.2.state.withFrames hfooting

theorem related_prune {settings : Settings} (hp : framing.holds p) :
    framing.Related .statement anything (Eval.prune settings) (Eval.prune settings) p := by
  obtain ⟨m, rfl, hm⟩ := exists_of_holds hp
  unfold Related
  rw [prune_apply]
  cases settings.prunes with
  | false => exact .ok ⟨rfl, hm⟩ (.refl _ m.state) trivial
  | true =>
    have hrests : m.state.Rests m.state.prune := .of_eq rfl rfl rfl (Nat.le_refl _)
    exact .ok ⟨rfl, hrests.founded hm.state, hm.steps⟩ (.of_rests hrests) trivial

theorem related_declare {name : String} {v : Value} {kind : BindingKind} {scope : Option Nat}
    (hp : framing.holds p) :
    framing.Related .expression anything (liftM (declare name v kind scope)) (liftM (declare name v kind scope)) p :=
  related_rests hp (rests_declare name v kind scope) fun _ _ ↦ trivial

theorem sound {s : Settings} (hs : s.names = .ofScopes) : framing.Sound s s where
  raises _ _ := trivial
  heap_eq hp := by rw [hp.1]
  frames_isEmpty hp := by rw [hp.1]
  valid_plain _ := trivial
  valid_held _ _ := trivial
  record _ _ _ _ := related_record
  report _ _ := related_report
  resolve name hp := by
    rw [hs, Names.resolve_eq]
    exact related_reading hp fun _ _ ↦ trivial
  isDeclared name hp := by
    rw [hs, Names.isDeclared_eq]
    exact related_reading hp fun _ _ ↦ trivial
  declare name v kind hp _ := by
    rw [hs]
    exact related_declare hp
  declareAs {p} kind name v hp _ := by
    have hscope : framing.Related .expression anything Names.ofScopes.functionScope Names.ofScopes.functionScope p := by
      rw [Names.functionScope_eq]
      exact related_reading hp fun _ _ ↦ trivial
    rw [hs]
    exact related_declareAs kind name hscope (related_declare hp) fun q scope hq _ _ ↦ related_declare hq
  assign name v hp _ := by
    rw [hs]
    exact related_rests hp (rests_assign name v) fun _ _ ↦ trivial
  hoist hoisted hp := by
    rw [hs]
    exact related_hoist (B := anything) hoisted hp (by rw [hp.1]) (fun _ _ ↦ trivial) (fun _ _ ↦ trivial)
      (fun q scope hq _ ↦ by rw [hq.1]) fun q scope name hq _ ↦ related_declare hq
  capture hp := by
    rw [hs]
    exact related_rests hp rests_capture fun _ _ ↦ trivial
  freshIdentity hp := related_storing hp storing_freshIdentity fun _ _ ↦ trivial
  newArray vs hp _ := related_storing hp (storing_newArray fun v _ ↦ within_anything v) fun _ _ ↦ trivial
  newObject fields hp _ := related_storing hp (storing_newObject fun v _ ↦ within_anything v) fun _ _ ↦ trivial
  setProperty receiver key v hp _ :=
    related_storing hp (storing_setProperty receiver key (within_anything v)) fun _ _ ↦ trivial
  say level content hp _ := related_storing hp (storing_say level content) fun _ _ ↦ trivial
  timer f arguments line hp _ _ :=
    related_storing hp (storing_schedule .macrotask _ _ line fun v _ ↦ within_anything v) fun _ _ ↦ trivial
  fetch url line hp := related_storing hp (storing_fetch url line) fun _ _ ↦ trivial
  all vs hp _ := related_storing hp (storing_all fun v _ ↦ within_anything v) fun _ _ ↦ trivial
  race vs hp _ := related_storing hp (storing_race fun v _ ↦ within_anything v) fun _ _ ↦ trivial
  chain address handler hp _ _ := related_storing hp (storing_chain address fun _ _ ↦ trivial) fun _ _ ↦ trivial
  inScope _ _ _ hp hxy := related_inScope hp fun q hq hblock ↦ hxy q hq fun _ ↦ hblock
  renew hp hr := related_renew hp hr
  inCall _ _ _ _ _ _ hp _ _ hxy := related_inCall hp fun scope q hq ↦ hxy scope q hq trivial fun _ _ ↦ trivial
  keepLocals _ hp _ := related_keepLocals hp
  prune hp _ := related_prune hp

theorem related_modifyLoop {B : Machines → Unit → Prop} (g : EventLoop → EventLoop) (hp : framing.holds p)
    (hB : ∀ q, B q ()) : framing.Related .task B (Activity.modifyLoop g) (Activity.modifyLoop g) p :=
  related_rests (x := Engine.modifyLoop g) hp (fun _ ↦ .of_eq rfl rfl rfl (Nat.le_refl _)) fun q _ ↦ hB q

theorem soundRun {s : Settings} (hs : s.names = .ofScopes) : framing.SoundRun s s where
  toSound := sound hs
  ceiling_eq := rfl
  loop_eq hp := by rw [hp.1]
  frames_leads hl hf := (hl.stays.frames (by decide)).trans hf
  announce _ := related_record
  takeMicrotask _ _ hp _ := related_modifyLoop _ hp fun _ _ _ ↦ trivial
  takeMacrotask _ _ hp _ := related_modifyLoop _ hp fun _ _ _ ↦ trivial
  start _ hp _ := related_modifyLoop _ hp fun _ _ _ ↦ trivial
  finish hp := related_modifyLoop _ hp fun _ _ _ ↦ trivial
  count hp := related_modifyLoop _ hp fun _ ↦ trivial
  truncate _ hp := related_modifyLoop _ hp fun _ ↦ trivial
  completeFetch address url hp _ := related_storing hp (storing_completeFetch address url) fun _ _ ↦ trivial
  settle target v hp _ _ := related_storing hp (storing_settle target (within_anything v)) fun _ _ ↦ trivial
  adopt address target hp _ _ :=
    related_storing hp (storing_subscribe address (.adopt target) fun v _ ↦ within_anything v) fun _ _ ↦ trivial
  gather aggregate index v hp _ _ :=
    related_storing hp (storing_gather aggregate index (within_anything v)) fun _ _ ↦ trivial

end Correspondence.Framing

end Stepwise
