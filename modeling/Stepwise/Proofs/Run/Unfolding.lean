import Stepwise.Proofs.State.Editing
/-!
Runs as rows of edits. Everything that an evaluation does to a state, however it ends, is a row of single
changes, and every value that it comes by is known to the state that it leaves.
-/

namespace Stepwise

/-- A stretch of a run as a row of edits and notes, with all that numbers were given to on the way. -/
inductive Machine.Unfolds (l : Machine Journal) : List Bearer → Machine Journal → Prop
  | refl : l.Unfolds [] l
  | edit {handed new : List Bearer} {m : Machine Journal} {t : State} :
      l.Unfolds handed m → m.state.Edit new t → l.Unfolds (handed ++ new) { m with state := t }
  | record {handed : List Bearer} {m : Machine Journal} (line column : Int) (description : Text) :
      l.Unfolds handed m → l.Unfolds handed { m with journal := { m.journal with
        steps := m.journal.steps ++ [Step.behind m.journal.steps line column description m.state] } }
  | report {handed : List Bearer} {m : Machine Journal} (problem : Diagnostic) :
      l.Unfolds handed m → l.Unfolds handed { m with journal := { m.journal with
        diagnostics := m.journal.diagnostics ++ [problem] } }

namespace Machine

variable {l m n : Machine Journal} {handed handed' : List Bearer} {t : State}

theorem Unfolds.trans (h : l.Unfolds handed m) (h' : m.Unfolds handed' n) : l.Unfolds (handed ++ handed') n := by
  induction h' with
  | refl => exact (List.append_nil handed).symm ▸ h
  | edit _ hedit ih => exact List.append_assoc handed _ _ ▸ ih.edit hedit
  | record line column description _ ih => exact ih.record line column description
  | report problem _ ih => exact ih.report problem

theorem Unfolds.state (h : m.Unfolds handed n) : m.state.Unfolds handed n.state := by
  induction h with
  | refl => exact .refl
  | edit _ hedit ih => exact ih.edit hedit
  | record _ _ _ _ ih => exact ih
  | report _ _ ih => exact ih

theorem unfolds_of_state (h : m.state.Unfolds handed t) : m.Unfolds handed { m with state := t } := by
  induction h with
  | refl => exact .refl
  | edit _ hedit ih => exact ih.edit hedit

/-- One machine leads to another by a row of edits and notes. -/
def Leads (m n : Machine Journal) : Prop := ∃ handed, m.Unfolds handed n

theorem Leads.refl (m : Machine Journal) : m.Leads m := ⟨[], .refl⟩

theorem Leads.trans (h : l.Leads m) (h' : m.Leads n) : l.Leads n := by
  obtain ⟨handed, h⟩ := h
  obtain ⟨handed', h'⟩ := h'
  exact ⟨_, h.trans h'⟩

theorem Leads.grows (h : m.Leads n) : m.state.Grows n.state := by
  obtain ⟨handed, h⟩ := h
  exact h.state.grows

theorem Leads.proper (h : m.Leads n) (hm : m.state.Proper) : n.state.Proper := by
  obtain ⟨handed, h⟩ := h
  exact h.state.proper hm

theorem leads_of_edit {new : List Bearer} (h : m.state.Edit new t) : m.Leads { m with state := t } :=
  ⟨_, .edit .refl h⟩

end Machine

/-- What is true of a machine that a run comes to: on the way to it the state was only edited. -/
structure Machine.Reaches (l m : Machine Journal) : Prop where
  grounded : m.state.Grounded
  proper : m.state.Proper
  leads : l.Leads m

theorem Machine.Reaches.step {l m n : Machine Journal} (h : l.Reaches m) (hl : m.Leads n) (hn : n.state.Grounded) :
    l.Reaches n := ⟨hn, hl.proper h.proper, h.leads.trans hl⟩

/-- One evaluation twice, as a row of edits from some machine on. -/
def Correspondence.unfolding (l : Machine Journal) : Correspondence where
  holds p := p.2 = p.1 ∧ l.Reaches p.1
  leads k p q := p.1.state.Stays k q.1.state ∧ p.1.Leads q.1
  strays k p q := p.1.state.Stays k q.1.state ∧ p.1.Leads q.1
  valid p v := p.1.state.Knows v
  closed _ _ := True
  renewable p := p.1.state.chain.tail ≠ []
  entered _ _ := True
  raises f := f.isCorruption = false
  refl k p := ⟨.refl k p.1.state, .refl p.1⟩
  trans h h' := ⟨h.1.trans h'.1, h.2.trans h'.2⟩
  of_expression h := ⟨h.1.of_expression, h.2⟩
  of_statement _ h := ⟨h.1.of_statement, h.2⟩
  strays_of_leads := id
  strays_trans h h' := ⟨h.1.trans h'.1, h.2.trans h'.2⟩
  strays_of_expression h := ⟨h.1.of_expression, h.2⟩
  strays_of_statement _ h := ⟨h.1.of_statement, h.2⟩
  valid_leads h hv := h.2.grows.knows hv
  closed_leads _ _ := trivial
  entered_leads _ _ := trivial
  renewable_leads h hr := h.1.outerChain ▸ hr
  valid_function := Iff.rfl

namespace Correspondence.Unfolding

open State Engine Evaluator Activity Eval

variable {l : Machine Journal} {p : Machines} {k : Stretch} {α : Type} {A : Machines → α → Prop} {s : State}

theorem exists_of_holds (hp : (unfolding l).holds p) : ∃ m : Machine Journal, p = (m, m) ∧ l.Reaches m :=
  ⟨p.1, Prod.ext rfl hp.1, hp.2⟩

theorem related_of_stays {x : Engine α} {C : State → α → Prop} (hp : (unfolding l).holds p)
    (hstays : p.1.state.Stays k (after (x p.1.state))) (hgrounded : (after (x p.1.state)).Grounded)
    (hx : Edits C p.1.state (x p.1.state)) (hA : ∀ q a, C q.1.state a → A q a) :
    (unfolding l).Related k A (liftM x) (liftM x) p := by
  obtain ⟨m, rfl, hm⟩ := exists_of_holds hp
  change (unfolding l).Ends _ _ _ (ofEngine x m) (ofEngine x m)
  unfold ofEngine
  dsimp only at hx hstays hgrounded
  generalize x m.state = r at hx hstays hgrounded
  cases r with
  | ok a t =>
    obtain ⟨⟨handed, hrow⟩, ha⟩ := hx
    have hleads : m.Leads { m with state := t } := ⟨_, Machine.unfolds_of_state hrow⟩
    exact .ok ⟨rfl, hm.step hleads hgrounded⟩ ⟨hstays, hleads⟩ (hA _ a ha)
  | error f t =>
    obtain ⟨⟨handed, hrow⟩, hf⟩ := hx
    have hleads : m.Leads { m with state := t } := ⟨_, Machine.unfolds_of_state hrow⟩
    exact .error ⟨rfl, hm.step hleads hgrounded⟩ ⟨hstays, hleads⟩ hf

theorem related_steady {x : Engine α} {C : State → α → Prop} (hp : (unfolding l).holds p) (hs : Steady x)
    (hx : Edits C p.1.state (x p.1.state)) (hA : ∀ q a, C q.1.state a → A q a) :
    (unfolding l).Related .expression A (liftM x) (liftM x) p := by
  have hstays := hs.stays p.1.state
  exact related_of_stays hp hstays (hp.2.grounded.of_stays hstays nofun) hx hA

theorem related_storing {x : Engine α} {B : α → Prop} {C : State → α → Prop} (hp : (unfolding l).holds p)
    (hs : Storing (fun _ ↦ True) x B) (hx : Edits C p.1.state (x p.1.state)) (hA : ∀ q a, C q.1.state a → A q a) :
    (unfolding l).Related .expression A (liftM x) (liftM x) p := related_steady hp hs.steady hx hA

theorem related_reading {e : State → Except Fault α} (hp : (unfolding l).holds p)
    (he : Raises (·.isCorruption = false) (e p.1.state)) (hA : ∀ a, e p.1.state = .ok a → A p a) :
    (unfolding l).Related k A (Eval.reading e) (Eval.reading e) p := by
  obtain ⟨m, rfl, hm⟩ := exists_of_holds hp
  unfold Related Eval.reading
  dsimp only at he hA ⊢
  cases h : e m.state with
  | ok a => exact .ok ⟨rfl, hm⟩ ((unfolding l).refl k _) (hA a h)
  | error f => exact .error ⟨rfl, hm⟩ (stops_of_leads ((unfolding l).refl k _) _) (he f h)

theorem related_of_edit {x : Eval Unit} {new : List Bearer} {t : State} {B : Machines → Unit → Prop}
    (hp : (unfolding l).holds p) (hx : x p.1 = .ok () { p.1 with state := t }) (hedit : p.1.state.Edit new t)
    (hstays : p.1.state.Stays k t) (hgrounded : t.Grounded) (hB : ∀ q, (unfolding l).leads k p q → B q ()) :
    (unfolding l).Related k B x x p := by
  obtain ⟨m, rfl, hm⟩ := exists_of_holds hp
  unfold Related
  dsimp only at hx hedit hstays ⊢
  rw [hx]
  have hleads := Machine.leads_of_edit hedit
  exact .ok ⟨rfl, hm.step hleads hgrounded⟩ ⟨hstays, hleads⟩ (hB _ ⟨hstays, hleads⟩)

theorem related_record {line column : Int} {description : Text} (hp : (unfolding l).holds p) :
    (unfolding l).Related .expression anything (Eval.record line column description)
      (Eval.record line column description) p := by
  obtain ⟨m, rfl, hm⟩ := exists_of_holds hp
  have hleads : m.Leads (after (Eval.record line column description m)) := ⟨[], .record line column description .refl⟩
  exact .ok ⟨rfl, hm.step hleads hm.grounded⟩ ⟨.refl _ m.state, hleads⟩ trivial

theorem related_report {kind : String} {location : Location} (hp : (unfolding l).holds p) :
    (unfolding l).Related .expression anything (Eval.reportUnsupported kind location)
      (Eval.reportUnsupported kind location) p := by
  obtain ⟨m, rfl, hm⟩ := exists_of_holds hp
  have hleads : m.Leads (after (Eval.reportUnsupported kind location m)) := ⟨[], .report _ .refl⟩
  exact .ok ⟨rfl, hm.step hleads hm.grounded⟩ ⟨.refl _ m.state, hleads⟩ trivial

theorem ends_of_opened {k' : Stretch} {B C : Machines → α → Prop} {x y : Eval α} {close : Engine Unit}
    {new : List Bearer} {j : Journal} (scope : Scope) (frames : List Frame) (leaves : List Frame → List Frame)
    (hs : s.Grounded) (hopens : s.Edit new (s.openScope scope s.chain frames))
    (hclose : ∀ (r : State) id outer rest, r.chain = id :: outer :: rest →
      close r = .ok () { r with chain := outer :: rest, frames := leaves r.frames })
    (hframes : ∀ r, (s.openScope scope s.chain frames).Stays k r → leaves r.frames = s.frames ∧ s.frames <:+ r.frames)
    (hC : ∀ q r a, q.1.state.Grows r.1.state → B q a → C r a)
    (h : (unfolding l).Related k B x y (⟨s.openScope scope s.chain frames, j⟩, ⟨s.openScope scope s.chain frames, j⟩)) :
    (unfolding l).Ends k' C (⟨s, j⟩, ⟨s, j⟩) (closing x close ⟨s.openScope scope s.chain frames, j⟩)
      (closing y close ⟨s.openScope scope s.chain frames, j⟩) := by
  refine h.closes fun r hr hl ↦ ?_
  obtain ⟨⟨r, jr⟩, rfl, hm⟩ := exists_of_holds hr
  obtain ⟨hstays, hrow⟩ := hl
  dsimp only at hstays hrow
  -- whatever the activity did inside, the scope and the frame that were opened are on top, and go
  obtain ⟨id, outer, rest, hchain, hchain'⟩ := exists_chain_eq hm.grounded hs.opened hstays.outerChain
  obtain ⟨hleaves, hsuffix⟩ := hframes r hstays
  have hclosed := hclose r id outer rest hchain
  rw [hleaves, ← hchain'] at hclosed
  have hids : s.scopeIds ⊆ r.scopeIds := fun _ h ↦ hstays.scopeIds (List.mem_cons_of_mem _ h)
  have hinner : s.chain <:+ r.chain := hchain ▸ hchain' ▸ List.suffix_cons id (outer :: rest)
  have hcloses : (⟨r, jr⟩ : Machine Journal).Leads ⟨{ r with chain := s.chain, frames := s.frames }, jr⟩ :=
    Machine.leads_of_edit (m := ⟨r, jr⟩) (.closes hinner hsuffix)
  have hleads : (⟨s, j⟩ : Machine Journal).Leads ⟨{ r with chain := s.chain, frames := s.frames }, jr⟩ :=
    ((Machine.leads_of_edit (m := ⟨s, j⟩) hopens).trans hrow).trans hcloses
  exact ⟨_, _, ofEngine_apply hclosed, ofEngine_apply hclosed,
    ⟨rfl, hm.step hcloses ⟨hs.opened, fun _ h ↦ hids (hs.known h)⟩⟩,
    fun _ ↦ ⟨.of_eq rfl rfl hids, hleads⟩, ⟨.of_eq rfl rfl hids, hleads⟩,
    fun v hv ↦ hcloses.grows.knows hv, fun a ha ↦ hC (⟨r, jr⟩, ⟨r, jr⟩) _ a hcloses.grows ha⟩

theorem related_inScope {name : String} {x y : Eval Unit} (hp : (unfolding l).holds p)
    (hxy : ∀ q, (unfolding l).holds q → (unfolding l).renewable q →
      pushScope .block name none p.1.state = .ok (p.1.state.lastId + 1) q.1.state →
      (unfolding l).Related .iteration anything x y q) :
    (unfolding l).Related .statement anything (inScope name x) (inScope name y) p := by
  obtain ⟨⟨s, j⟩, rfl, hm⟩ := exists_of_holds hp
  have hs : s.Grounded := hm.grounded
  let scope : Scope := { id := s.lastId + 1, kind := .block, name, parent := s.chain.head? }
  have hopens : s.Edit [.scope (s.lastId + 1)] (s.openScope scope s.chain s.frames) :=
    .opens rfl (List.suffix_refl _) (List.forall_mem_nil _)
  refine ends_of_opened (k := .iteration) (B := anything) scope s.frames id hs hopens
    (fun r _ _ _ hr ↦ closeScope_apply hr) (fun r hr ↦ ?_) (fun _ _ _ _ _ ↦ trivial) ?_
  · have hframes := hr.frames nofun
    exact ⟨hframes, hframes ▸ List.suffix_refl _⟩
  · have hleads := Machine.leads_of_edit (m := ⟨s, j⟩) hopens
    exact hxy _ ⟨rfl, hm.step hleads (Stacking.Grounded.openScope hs scope s.frames)⟩ hs.opened rfl

theorem related_renew (hp : (unfolding l).holds p) (hr : (unfolding l).renewable p) :
    (unfolding l).Related .iteration anything (liftM renewScope) (liftM renewScope) p := by
  obtain ⟨⟨s, j⟩, rfl, hm⟩ := exists_of_holds hp
  have hs : s.Grounded := hm.grounded
  have hproper : s.Proper := hm.proper
  change s.chain.tail ≠ [] at hr
  obtain ⟨id, outer, rest, hchain, hrest⟩ := exists_chain_eq hs hr rfl
  obtain ⟨old, hold⟩ := hs.exists_scope (hchain ▸ List.mem_cons_self : id ∈ s.chain)
  have hfresh (scope : Scope) (hscope : scope ∈ s.scopes) : scope.id ≠ s.lastId + 1 := by
    have hle := hproper.numbered.le_of_mem_scopeIds (List.mem_map_of_mem hscope)
    omega
  let fresh : Scope := { old with id := s.lastId + 1, parent := old.parent.or (some outer) }
  have hopens : s.Edit [.scope (s.lastId + 1)] (s.openScope fresh (outer :: rest) s.frames) :=
    .opens rfl (hchain ▸ List.suffix_cons id _) (hproper.whole.scopes old (List.mem_of_find?_eq_some hold))
  have hleads := Machine.leads_of_edit (m := ⟨s, j⟩) hopens
  change (unfolding l).Ends _ _ _ (ofEngine renewScope ⟨s, j⟩) (ofEngine renewScope ⟨s, j⟩)
  rw [ofEngine_apply (renewScope_of_fresh hfresh hchain hold)]
  have hknown : outer :: rest ⊆ s.scopeIds := fun i hi ↦ hs.known (hchain ▸ List.mem_cons_of_mem id hi)
  refine .ok ⟨rfl, hm.step hleads ⟨List.cons_ne_nil _ _, List.cons_subset_cons _ hknown⟩⟩
    ⟨⟨fun _ ↦ rfl, rfl, fun h ↦ absurd rfl h, ?_, List.subset_cons_self _ _⟩, hleads⟩ trivial
  exact (congrArg List.tail hchain).symm

theorem related_inCall {f : Function} {arguments : List Value} {line : Int} {name : String}
    {x y : Nat → Eval Value} (hp : (unfolding l).holds p) (hvs : (unfolding l).allValid p arguments)
    (hxy : ∀ scope q, (unfolding l).holds q → (∀ v, (unfolding l).valid p v → (unfolding l).valid q v) →
      enter f arguments line name p.1.state = .ok scope q.1.state →
      (unfolding l).Related .body (unfolding l).valid (x scope) (y scope) q) :
    (unfolding l).Related .expression (unfolding l).valid (inCall f arguments line name x)
      (inCall f arguments line name y) p := by
  obtain ⟨⟨s, j⟩, rfl, hm⟩ := exists_of_holds hp
  have hs : s.Grounded := hm.grounded
  let scope := s.callScope f name
  let frame := s.callFrame f arguments line name
  have henters : s.Edit [.frame (s.lastId + 1), .scope (s.lastId + 2)]
      (s.openScope scope s.chain (frame :: s.frames)) := .enters rfl rfl rfl rfl rfl hvs
  have hleads := Machine.leads_of_edit (m := ⟨s, j⟩) henters
  refine ends_of_opened (k := .body) (B := (unfolding l).valid) scope (frame :: s.frames) List.tail hs henters
    (fun r _ _ _ hr ↦ leave_apply hr) (fun r hr ↦ ?_) (fun _ _ _ hgrows hv ↦ hgrows.knows hv) ?_
  · have hframes : r.frames.tail = s.frames := hr.outerFrames
    exact ⟨hframes, hframes ▸ List.tail_suffix r.frames⟩
  · refine (hxy _ _ ⟨rfl, hm.step hleads (Stacking.Grounded.openScope hs scope _)⟩ (fun v hv ↦ ?_) rfl).catchReturn
    exact hleads.grows.knows hv

theorem keepLocals_cases (scope : Nat) (s : State) : keepLocals scope s = .ok () s ∨
    ∃ frame frames found, s.frames = frame :: frames ∧ s.scope? scope = some found ∧
      keepLocals scope s = .ok () { s with frames := { frame with locals := found.bindings } :: frames } := by
  cases hf : s.frames with
  | nil =>
    cases s
    cases hf
    exact .inl rfl
  | cons frame frames =>
    have h := keepLocals_of_frames scope hf
    cases hfound : s.scope? scope with
    | none =>
      rw [hfound, Option.elim_none, ← hf] at h
      exact .inl h
    | some found =>
      rw [hfound] at h
      exact .inr ⟨frame, frames, found, rfl, rfl, h⟩

theorem related_keepLocals {scope : Nat} (hp : (unfolding l).holds p) :
    (unfolding l).Related .body anything (liftM (keepLocals scope)) (liftM (keepLocals scope)) p := by
  obtain ⟨frames, hframes, -, htail⟩ := keepLocals_apply scope p.1.state
  have hstays : p.1.state.Stays .body (after (keepLocals scope p.1.state)) := by
    rw [hframes]
    exact ⟨fun h ↦ absurd rfl h, htail, fun _ ↦ rfl, rfl, List.Subset.refl _⟩
  refine related_of_stays (C := anyResult) hp hstays (hp.2.grounded.of_stays hstays nofun) ?_ fun _ _ _ ↦ trivial
  obtain h | ⟨frame, rest, found, hf, hfound, h⟩ := keepLocals_cases scope p.1.state
  · rw [h]
    exact .ok trivial
  · rw [h]
    obtain rfl : found.id = scope := id_of_scope? hfound
    exact .single (.keepsLocals hf hfound) trivial

theorem related_prune {settings : Settings} (hp : (unfolding l).holds p) :
    (unfolding l).Related .statement anything (Eval.prune settings) (Eval.prune settings) p := by
  obtain ⟨m, rfl, hm⟩ := exists_of_holds hp
  unfold Related
  rw [prune_apply]
  cases settings.prunes with
  | false => exact .ok ⟨rfl, hm⟩ ((unfolding l).refl _ _) trivial
  | true =>
    have hprunes : m.state.Edit [] m.state.prune :=
      .captures fun id hid ↦ List.mem_append_right _ (List.mem_of_mem_filter hid)
    have hleads := Machine.leads_of_edit hprunes
    exact .ok ⟨rfl, hm.step hleads ⟨hm.grounded.opened, hm.grounded.known⟩⟩
      ⟨.of_eq rfl rfl (List.Subset.refl _), hleads⟩ trivial

theorem related_declare {name : String} {v : Value} {kind : BindingKind} {scope : Option Nat}
    (hp : (unfolding l).holds p) (hv : (unfolding l).valid p v) :
    (unfolding l).Related .expression anything (liftM (declare name v kind scope))
      (liftM (declare name v kind scope)) p :=
  related_steady hp (steady_declare name v kind scope) (edits_declare name kind scope hv) fun _ _ _ ↦ trivial

theorem valid_held {v : Value} (hp : (unfolding l).holds p) (hv : p.1.state.heap.Holds v) :
    (unfolding l).valid p v := by
  obtain ⟨address, cell, hcell, hv⟩ := hv
  exact hp.2.proper.whole.heap cell (Dict.mem_values_of_get? hcell) v (List.mem_append.mpr hv.symm)

/-- Operations of an evaluation are rows of edits. -/
theorem sound {s : Settings} (hs : s.names = .ofScopes) : (unfolding l).Sound s s where
  raises _ hf := Fault.isCorruption_of_isInternal hf
  heap_eq hp := by rw [hp.1]
  frames_isEmpty hp := by rw [hp.1]
  valid_plain {p v} hv := by
    cases v with
    | object address => cases hv
    | promise address => cases hv
    | _ => trivial
  valid_held := valid_held
  record _ _ _ _ := related_record
  report _ _ := related_report
  resolve {p} name hp := by
    rw [hs, Names.resolve_eq]
    refine related_reading hp (p.1.state.raises_resolve name) fun v hv ↦ ?_
    obtain ⟨scope, hscope, hv⟩ := exists_of_resolve hv
    exact hp.2.proper.whole.scopes scope (List.mem_of_find?_eq_some hscope) v hv
  isDeclared {p} name hp := by
    rw [hs, Names.isDeclared_eq]
    exact related_reading hp ((p.1.state.raises_binder? name).map _) fun _ _ ↦ trivial
  declare name v kind hp hv := by
    rw [hs]
    exact related_declare hp hv
  declareAs {p} kind name v hp hv := by
    have hscope : (unfolding l).Related .expression (fun q _ ↦ q = p) Names.ofScopes.functionScope
        Names.ofScopes.functionScope p := by
      rw [Names.functionScope_eq]
      exact related_reading hp p.1.state.raises_functionScope fun _ _ ↦ rfl
    rw [hs]
    exact related_declareAs kind name hscope (related_declare hp hv) fun q scope hq _ e ↦ related_declare hq (e ▸ hv)
  assign name v hp hv := by
    rw [hs]
    exact related_steady hp (steady_assign name v) (edits_assign name hv) fun _ _ _ ↦ trivial
  hoist {p} hoisted hp := by
    rw [hs]
    exact related_hoist (B := anything) hoisted hp (by rw [hp.1]) p.1.state.raises_headId (fun _ _ ↦ trivial)
      (fun q scope hq _ ↦ by rw [hq.1]) fun q scope name hq _ ↦ related_declare hq trivial
  capture {p} hp := by
    rw [hs]
    exact related_steady hp steady_capture (edits_capture p.1.state) fun _ _ _ ↦ trivial
  freshIdentity {p} hp := related_storing hp storing_freshIdentity (edits_freshIdentity p.1.state) fun _ _ _ ↦ trivial
  newArray vs hp hvs :=
    related_storing hp (storing_newArray fun v _ ↦ within_anything v) (edits_newArray hp.2.proper hvs) fun _ _ ↦ id
  newObject fields hp hf :=
    related_storing hp (storing_newObject fun v _ ↦ within_anything v) (edits_newObject hp.2.proper hf) fun _ _ ↦ id
  setProperty receiver key v hp hv := related_storing hp (storing_setProperty receiver key (within_anything v))
    (edits_setProperty receiver key hv) fun _ _ _ ↦ trivial
  say level content hp hvs :=
    related_storing hp (storing_say level content) (edits_say level hvs) fun _ _ _ ↦ trivial
  timer f arguments line hp hf hvs := related_storing hp
    (storing_schedule .macrotask _ (.call f arguments) line fun v _ ↦ within_anything v)
    (edits_schedule .macrotask _ line (List.forall_mem_cons.mpr ⟨hf, hvs⟩)) fun _ _ _ ↦ trivial
  fetch url line hp := related_storing hp (storing_fetch url line) (edits_fetch url line hp.2.proper) fun _ _ ↦ id
  all vs hp hvs :=
    related_storing hp (storing_all fun v _ ↦ within_anything v) (edits_all hp.2.proper hvs) fun _ _ ↦ id
  race vs hp hvs :=
    related_storing hp (storing_race fun v _ ↦ within_anything v) (edits_race hp.2.proper hvs) fun _ _ ↦ id
  chain address handler hp hq _ := related_storing hp (storing_chain address fun _ _ ↦ trivial)
    (edits_chain hp.2.proper hq) fun _ _ ↦ id
  inScope _ _ _ hp hxy := related_inScope hp fun q hq hren _ ↦ hxy q hq fun _ ↦ hren
  renew hp hr := related_renew hp hr
  inCall _ _ _ _ _ _ hp _ hvs hxy := related_inCall hp hvs fun scope q hq hvalid _ ↦ hxy scope q hq trivial hvalid
  keepLocals _ hp _ := related_keepLocals hp
  prune hp _ := related_prune hp

theorem soundJobs {s : Settings} (hs : s.names = .ofScopes) : (unfolding l).SoundJobs s s where
  toSound := sound hs
  frames_leads hl hf := (hl.1.frames nofun).trans hf
  announce _ := related_record
  completeFetch address url hp hq :=
    related_storing hp (storing_completeFetch address url) (edits_completeFetch url hp.2.proper hq) fun _ _ _ ↦ trivial
  settle target v hp hq hv :=
    related_storing hp (storing_settle target (within_anything v)) (edits_settle hp.2.proper hq hv) fun _ _ _ ↦ trivial
  adopt address target hp hq htarget := related_storing hp
    (storing_subscribe address (.adopt target) fun v _ ↦ within_anything v)
    (edits_subscribe hp.2.proper hq (List.forall_mem_singleton.mpr htarget)) fun _ _ _ ↦ trivial
  gather aggregate index v hp hq hv := related_storing hp (storing_gather aggregate index (within_anything v))
    (edits_gather index hp.2.proper hq hv) fun _ _ _ ↦ trivial

theorem related_modifyLoop {g : EventLoop → EventLoop} {new : List Bearer} {B : Machines → Unit → Prop}
    (hp : (unfolding l).holds p) (hedit : p.1.state.Edit new { p.1.state with loop := g p.1.state.loop })
    (hB : ∀ q, (unfolding l).leads .task p q → B q ()) :
    (unfolding l).Related .task B (Activity.modifyLoop g) (Activity.modifyLoop g) p :=
  related_of_edit hp rfl hedit (.of_eq rfl rfl (List.Subset.refl _)) ⟨hp.2.grounded.opened, hp.2.grounded.known⟩ hB

/-- Taking a task out of its queue and starting it is one edit, behind which the task is the current one. -/
theorem related_next {x y : Task → Eval Unit} {task : Task} {g : EventLoop → EventLoop}
    (hxy : (unfolding l).Carries x y) (hp : (unfolding l).holds p) (hf : p.1.state.frames = [])
    (htakes : p.1.state.loop.Takes task (g p.1.state.loop)) :
    (unfolding l).Related .task anything (Activity.modifyLoop g >>= fun _ ↦ runTask x task)
      (Activity.modifyLoop g >>= fun _ ↦ runTask y task) p := by
  obtain ⟨⟨s, j⟩, rfl, hm⟩ := exists_of_holds hp
  have hs : s.Grounded := hm.grounded
  let m : Machine Journal := ⟨{ s with loop := { g s.loop with current := some task } }, j⟩
  have hstarts : s.Edit [] m.state := .starts htakes
  have hleads : (⟨s, j⟩ : Machine Journal).Leads m := Machine.leads_of_edit (m := ⟨s, j⟩) hstarts
  have hm : (unfolding l).holds (m, m) := ⟨rfl, hm.step hleads ⟨hs.opened, hs.known⟩⟩
  have hcurrent : task ∈ m.state.tasks := List.mem_append_right _ (List.mem_singleton_self task)
  have htask : (unfolding l).Related .task anything (x task) (y task) (m, m) :=
    hxy (m, m) task hm hf (hm.2.proper.whole.tasks task hcurrent)
  have hfinish (q : Machines) (hq : (unfolding l).holds q) :=
    related_modifyLoop (g := fun loop ↦ { loop with current := none })
      (B := fun r _ ↦ ∀ v, (unfolding l).valid q v → (unfolding l).valid r v)
      hq (.rests (.inr rfl) _ _) fun r hl v hv ↦ hl.2.grows.knows hv
  have hrest : (unfolding l).Related .task anything
      (closing (x task) (Engine.modifyLoop fun loop ↦ { loop with current := none }) >>= fun _ ↦
        Activity.modifyLoop fun loop ↦ { loop with executed := loop.executed + 1 })
      (closing (y task) (Engine.modifyLoop fun loop ↦ { loop with current := none }) >>= fun _ ↦
        Activity.modifyLoop fun loop ↦ { loop with executed := loop.executed + 1 }) (m, m) :=
    (htask.closing hfinish).seq fun q hq _ _ ↦ related_modifyLoop hq (.rests (.inl rfl) _ _) fun _ _ ↦ trivial
  have hstays : s.Stays .task m.state := .of_eq rfl rfl (List.Subset.refl _)
  exact Ends.mono hrest (fun q hl ↦ ⟨hstays.trans hl.1, hleads.trans hl.2⟩)
    (fun q hl ↦ ⟨hstays.trans hl.1, hleads.trans hl.2⟩) fun _ _ _ _ ↦ id

theorem soundLoop {s : Settings} (hs : s.names = .ofScopes) : (unfolding l).SoundLoop s s where
  toSoundJobs := soundJobs hs
  ceiling_eq := rfl
  loop_eq hp := by rw [hp.1]
  next := related_next
  truncate _ hp := related_modifyLoop hp (.rests (.inl rfl) _ _) fun _ _ ↦ trivial

end Correspondence.Unfolding

end Stepwise
