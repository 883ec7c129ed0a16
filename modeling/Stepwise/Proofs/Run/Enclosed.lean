import Stepwise.Proofs.State.Calling
/-!
The same call in two runs, on top of different callers. Every operation of an evaluation inside of the
call keeps the two runs alike in everything but what lies below the call.
-/

namespace Stepwise

/-- Two states that stand above those of two callers, inside of a call. -/
def State.Enclosed (c d s t : State) : Prop :=
  ∃ own inner, own ≠ [] ∧ inner ≠ [] ∧ Above c d own inner s t

/-- Steps of the same call in two runs. They differ in what lies below the call, and are counted from
where it began. -/
structure Step.Alike (c d : Machine Journal) (a b : Step) : Prop where
  line : b.line = a.line
  column : b.column = a.column
  description : b.description = a.description
  ordinal : ∃ k, a.ordinal = c.journal.steps.length + k ∧ b.ordinal = d.journal.steps.length + k
  step : a.snapshot.step = a.ordinal ∧ b.snapshot.step = b.ordinal
  snapshot : c.state.Enclosed d.state a.snapshot { b.snapshot with step := a.snapshot.step }

/-- Journals in which the same has been noted down since a call began. -/
structure Journal.Alike (c d : Machine Journal) (j j' : Journal) : Prop where
  steps : ∃ new new', j.steps = c.journal.steps ++ new ∧ j'.steps = d.journal.steps ++ new' ∧
    List.Forall₂ (Step.Alike c d) new new'
  diagnostics : ∃ new, j.diagnostics = c.journal.diagnostics ++ new ∧ j'.diagnostics = d.journal.diagnostics ++ new

/-- The ends of the same evaluation in two runs: the same result, or the same reason to stop. -/
inductive SameEnd {α : Type} (P : Machine Journal → Machine Journal → Prop) :
    EStateM.Result Stop (Machine Journal) α → EStateM.Result Stop (Machine Journal) α → Prop
  | ok {a : α} {m n : Machine Journal} : P m n → SameEnd P (.ok a m) (.ok a n)
  | error {stop : Stop} {m n : Machine Journal} : P m n → SameEnd P (.error stop m) (.error stop n)

theorem SameEnd.imp {α : Type} {P Q : Machine Journal → Machine Journal → Prop}
    {a b : EStateM.Result Stop (Machine Journal) α} (h : SameEnd P a b) (hPQ : ∀ m n, P m n → Q m n) : SameEnd Q a b := by
  cases h with
  | ok h => exact .ok (hPQ _ _ h)
  | error h => exact .error (hPQ _ _ h)

namespace Journal.Alike

variable {c d : Machine Journal} {j j' : Journal}

theorem refl (c d : Machine Journal) : Alike c d c.journal d.journal :=
  ⟨⟨[], [], (List.append_nil _).symm, (List.append_nil _).symm, .nil⟩, [], (List.append_nil _).symm,
    (List.append_nil _).symm⟩

theorem record {s t : State} (line column : Int) (description : Text) (h : Alike c d j j')
    (hs : c.state.Enclosed d.state s t) :
    Alike c d { j with steps := j.steps ++ [.behind j.steps line column description s] }
      { j' with steps := j'.steps ++ [.behind j'.steps line column description t] } := by
  obtain ⟨new, new', hnew, hnew', halike⟩ := h.steps
  have hstep : Step.Alike c d (.behind j.steps line column description s) (.behind j'.steps line column description t) := by
    refine ⟨rfl, rfl, rfl, ⟨new.length + 1, ?_, ?_⟩, ⟨rfl, rfl⟩, ?_⟩
    · rw [Step.behind, hnew, List.length_append, Nat.add_assoc]
    · rw [Step.behind, hnew', List.length_append, halike.length_eq, Nat.add_assoc]
    · obtain ⟨own, inner, hown, hinner, habove⟩ := hs
      have hcongr := habove.congr (g := fun u ↦ { u with step := j.steps.length + 1 }) fun _ _ ↦ rfl
      exact ⟨own, inner, hown, hinner, hcongr⟩
  refine ⟨⟨new ++ [_], new' ++ [_], ?_, ?_, List.rel_append halike (.cons hstep .nil)⟩, h.diagnostics⟩
  · rw [← List.append_assoc, ← hnew]
  · rw [← List.append_assoc, ← hnew']

theorem report (diagnostic : Diagnostic) (h : Alike c d j j') :
    Alike c d { j with diagnostics := j.diagnostics ++ [diagnostic] }
      { j' with diagnostics := j'.diagnostics ++ [diagnostic] } := by
  obtain ⟨new, hnew, hnew'⟩ := h.diagnostics
  refine ⟨h.steps, new ++ [diagnostic], ?_, ?_⟩
  · rw [← List.append_assoc, ← hnew]
  · rw [← List.append_assoc, ← hnew']

end Journal.Alike

/-- The same evaluation in two runs inside of calls by two callers. -/
def Correspondence.enclosed (c d : Machine Journal) : Correspondence where
  holds p := c.state.Enclosed d.state p.1.state p.2.state ∧ Journal.Alike c d p.1.journal p.2.journal
  leads k p q := p.1.state.Stays k q.1.state
  strays k p q := p.1.state.Stays k q.1.state
  valid _ _ := True
  closed _ _ := True
  renewable p := c.state.chain.length + 2 ≤ p.1.state.chain.length
  entered p id := ∃ inner, p.1.state.chain = inner ++ c.state.chain ∧ id ∈ inner
  raises _ := True
  refl k p := .refl k p.1.state
  trans := State.Stays.trans
  of_expression := .of_expression
  of_statement _ := .of_statement
  strays_of_leads := id
  strays_trans := State.Stays.trans
  strays_of_expression := .of_expression
  strays_of_statement _ := .of_statement
  valid_leads _ _ := trivial
  closed_leads _ _ := trivial
  entered_leads h := by rw [h.chain (by decide)]; exact id
  renewable_leads {p q} h hr := by
    have hlength := congrArg List.length h.outerChain
    rw [List.length_tail, List.length_tail] at hlength
    omega
  valid_function := Iff.rfl

namespace Correspondence.Enclosed

open State Engine Evaluator Activity Eval

variable {c d : Machine Journal} {p : Machines} {k : Stretch} {α : Type} {s t : State}
variable {own : List Frame} {inner : List Nat}

/-- The ends of an operation on two states that stand above two callers. -/
inductive Keeps (c d : State) (k : Stretch) (A : State → α → Prop) (s : State) :
    EStateM.Result Fault State α → EStateM.Result Fault State α → Prop
  | ok {a : α} {u w : State} : c.Enclosed d u w → s.Stays k u → A u a → Keeps c d k A s (.ok a u) (.ok a w)
  | error {f : Fault} {u w : State} : c.Enclosed d u w → s.Stays k u → Keeps c d k A s (.error f u) (.error f w)

theorem related_of_keeps {x : Engine α} {A : State → α → Prop} (hp : (enclosed c d).holds p)
    (hx : Keeps c.state d.state k A p.1.state (x p.1.state) (x p.2.state)) :
    (enclosed c d).Related k (fun q a ↦ A q.1.state a) (liftM x) (liftM x) p := by
  change (enclosed c d).Ends _ _ _ (ofEngine x p.1) (ofEngine x p.2)
  unfold ofEngine
  generalize x p.1.state = a, x p.2.state = b at hx
  cases hx with
  | ok hu hstays ha => exact .ok ⟨hu, hp.2⟩ hstays ha
  | error hu hstays => exact .error ⟨hu, hp.2⟩ (stops_of_leads hstays _) trivial

theorem related_of_storing {x : Engine α} {B : α → Prop} {A : Machines → α → Prop} (hp : (enclosed c d).holds p)
    (hx : Storing (fun _ ↦ True) x B) (hA : ∀ q a, A q a) : (enclosed c d).Related k A (liftM x) (liftM x) p := by
  obtain ⟨own, inner, hown, hinner, habove⟩ := hp.1
  have hs := hx.blind p.1.state p.1.state (holding_anything _)
  have ht := hx.blind p.1.state p.2.state (holding_anything _)
  rw [← habove.eq_withScoping] at ht
  change x p.1.state = _ at hs
  refine (related_of_keeps (A := fun _ _ ↦ True) hp ?_).post fun q a _ _ _ ↦ hA q a
  rw [hs, ht]
  cases x p.1.state with
  | ok a u => exact .ok ⟨own, inner, hown, hinner, habove.withScoping u⟩ (.of_eq rfl rfl (List.Subset.refl _)) trivial
  | error f u => exact .error ⟨own, inner, hown, hinner, habove.withScoping u⟩ (.of_eq rfl rfl (List.Subset.refl _))

theorem related_reading {e : State → Except Fault α} {A : Machines → α → Prop} (hp : (enclosed c d).holds p)
    (he : e p.2.state = e p.1.state) (hA : ∀ a, e p.1.state = .ok a → A p a) :
    (enclosed c d).Related k A (Eval.reading e) (Eval.reading e) p := by
  unfold Related Eval.reading
  rw [he]
  cases h : e p.1.state with
  | ok a => exact .ok hp ((enclosed c d).refl k p) (hA a h)
  | error f => exact .error hp (stops_of_leads ((enclosed c d).refl k p) _) trivial

theorem keeps_declare {c d : State} (h : c.Above d own inner s t) (hown : own ≠ []) (hinner : inner ≠ [])
    (name : String) (v : Value) (kind : BindingKind) {scope : Option Nat}
    (hscope : ∀ id, scope = some id → t.scope? id = s.scope? id) :
    Keeps c d k (fun _ _ ↦ True) s (Engine.declare name v kind scope s) (Engine.declare name v kind scope t) := by
  have hid : ∃ id, scope.elim s.headId .ok = .ok id ∧ scope.elim t.headId .ok = .ok id ∧
      t.scope? id = s.scope? id := by
    cases scope with
    | none =>
      obtain ⟨id, hmem, hs, ht⟩ := h.headId_eq hinner
      exact ⟨id, hs, ht, h.scopes id (.inl hmem)⟩
    | some id => exact ⟨id, rfl, rfl, hscope id rfl⟩
  obtain ⟨id, hs, ht, heq⟩ := hid
  rw [declare_apply, declare_apply, hs, ht]
  dsimp only
  rw [heq]
  cases s.scope? id with
  | none => exact .error ⟨own, inner, hown, hinner, h⟩ (.refl _ s)
  | some scope =>
    have hbound := (h.bind scope name v).congr (g := (·.recordVariable name v kind id)) fun _ _ ↦ rfl
    have hstays : s.Stays k ((s.bind scope name v).recordVariable name v kind id) :=
      (s.stays_bind scope name v).trans (.of_eq rfl rfl (List.Subset.refl _))
    exact .ok ⟨own, inner, hown, hinner, hbound⟩ hstays trivial

theorem related_declare {name : String} {v : Value} {kind : BindingKind} {scope : Option Nat}
    (hp : (enclosed c d).holds p) (hscope : ∀ id, scope = some id → p.2.state.scope? id = p.1.state.scope? id) :
    (enclosed c d).Related k anything (liftM (Engine.declare name v kind scope))
      (liftM (Engine.declare name v kind scope)) p := by
  obtain ⟨own, inner, hown, hinner, h⟩ := hp.1
  exact related_of_keeps hp (keeps_declare h hown hinner name v kind hscope)

theorem scope?_of_entered {id : Nat} (hp : (enclosed c d).holds p) (hid : (enclosed c d).entered p id) :
    p.2.state.scope? id = p.1.state.scope? id := by
  obtain ⟨own, inner, -, -, h⟩ := hp.1
  obtain ⟨inner', hchain, hmem⟩ := hid
  obtain rfl := List.append_cancel_right (h.chain.symm.trans hchain)
  exact h.scopes id (.inl hmem)

/-- The scope of the call stays the same while names are declared in it. -/
theorem related_hoisting (hoisted : List String) (hp : (enclosed c d).holds p) :
    (enclosed c d).Related .expression anything (Eval.hoist .ofScopes hoisted) (Eval.hoist .ofScopes hoisted) p := by
  obtain ⟨own, inner, hown, hinner, h⟩ := hp.1
  obtain ⟨scope, hmem, hs, ht⟩ := h.headId_eq hinner
  refine related_hoist (B := (enclosed c d).entered) hoisted hp (ht.trans hs.symm) (fun _ _ ↦ trivial)
    (fun id hid ↦ ?_) (fun q scope hq hscope ↦ scope?_of_entered hq hscope) fun q scope name hq hscope ↦ ?_
  · cases hs.symm.trans hid
    exact ⟨inner, h.chain, hmem⟩
  · have hdeclare : (enclosed c d).Related .expression anything
        (Names.ofScopes.declare name .undefined .functionScoped none)
        (Names.ofScopes.declare name .undefined .functionScoped none) q := related_declare hq nofun
    exact hdeclare.post fun r _ _ hl _ ↦ (enclosed c d).entered_leads hl hscope

section Names

variable (hc : c.state.globalId? ≠ none) (hd : d.state.globalId? = c.state.globalId?)
include hc hd

theorem related_assign {name : String} {v : Value} (hp : (enclosed c d).holds p) :
    (enclosed c d).Related k anything (liftM (Engine.assign name v)) (liftM (Engine.assign name v)) p := by
  obtain ⟨own, inner, hown, hinner, h⟩ := hp.1
  refine related_of_keeps (A := fun _ _ ↦ True) hp ?_
  rw [assign_apply, assign_apply, h.binder?_eq hc hd hown]
  cases p.1.state.binder? name with
  | error f => exact .error hp.1 (.refl _ _)
  | ok scope =>
    cases scope with
    | none => exact keeps_declare h hown hinner name v .blockScoped nofun
    | some scope => exact .ok ⟨own, inner, hown, hinner, h.bind scope name v⟩ (p.1.state.stays_bind scope name v) trivial

theorem related_resolve {name : String} (hp : (enclosed c d).holds p) :
    (enclosed c d).Related k anything (liftM (Engine.resolve name)) (liftM (Engine.resolve name)) p := by
  obtain ⟨own, inner, hown, hinner, h⟩ := hp.1
  have hresolve : (liftM (Engine.resolve name) : Eval Value) = Eval.reading (·.resolve name) := liftM_reading _
  rw [hresolve]
  refine related_reading hp ?_ fun _ _ ↦ trivial
  simp only [State.resolve, h.binder?_eq hc hd hown]

theorem related_isDeclared {name : String} (hp : (enclosed c d).holds p) :
    (enclosed c d).Related k anything (liftM (Engine.isDeclared name)) (liftM (Engine.isDeclared name)) p := by
  obtain ⟨own, inner, hown, hinner, h⟩ := hp.1
  have hdeclared : (liftM (Engine.isDeclared name) : Eval Bool) = Eval.reading (·.isDeclared name) := liftM_reading _
  rw [hdeclared]
  refine related_reading hp ?_ fun _ _ ↦ trivial
  simp only [State.isDeclared, h.binder?_eq hc hd hown]

theorem related_capture (hp : (enclosed c d).holds p) :
    (enclosed c d).Related k anything (liftM Engine.capture) (liftM Engine.capture) p := by
  obtain ⟨own, inner, hown, hinner, h⟩ := hp.1
  obtain ⟨ids, hs, ht, hids⟩ := h.visibleIds_eq hc hd hown
  obtain ⟨globalId, hglobal⟩ := Option.ne_none_iff_exists'.mp hc
  have hx := Scoping.capture_eq ((h.globalId_eq hc).trans hglobal) hs
  have hy := Scoping.capture_eq ((globalId?_of_chain (hd ▸ hc) h.chain').trans (hd.trans hglobal)) ht
  refine related_of_keeps (A := fun _ _ ↦ True) hp ?_
  rw [hx, hy, h.captured_eq]
  refine .ok ⟨own, inner, hown, hinner, h.withCaptured fun id hid ↦ ?_⟩ (.of_eq rfl rfl (List.Subset.refl _)) trivial
  exact (Scoping.mem_capturedWith.mp hid).elim (fun hid ↦ .inr (.inr hid)) fun hid ↦ hids id hid.1

theorem related_functionScope (hp : (enclosed c d).holds p) :
    (enclosed c d).Related k (fun q id ↦ q.2.state.scope? id = q.1.state.scope? id) Names.ofScopes.functionScope
      Names.ofScopes.functionScope p := by
  obtain ⟨own, inner, hown, hinner, h⟩ := hp.1
  rw [Names.functionScope_eq]
  refine related_reading hp ?_ fun id hid ↦ ?_
  · simp only [State.functionScope, h.visible_eq hc hd hown]
  · obtain ⟨ids, hs, -, hids⟩ := h.visibleIds_eq hc hd hown
    obtain ⟨scopes, hscopes, hfound⟩ := Except.exists_of_bind_eq_ok hid
    unfold visible at hscopes
    rw [hs] at hscopes
    cases hscopes
    cases hfind : (ids.filterMap p.1.state.scope?).find? fun scope ↦ scope.kind = .function || scope.kind = .global with
    | none =>
      rw [hfind] at hfound
      cases hfound
    | some scope =>
      rw [hfind] at hfound
      cases hfound
      obtain ⟨id, hid, hscope⟩ := List.mem_filterMap.mp (List.mem_of_find?_eq_some hfind)
      rw [id_of_scope? hscope]
      exact h.scopes id (hids id hid)

end Names

theorem related_record (line column : Int) (description : Text) (hp : (enclosed c d).holds p) :
    (enclosed c d).Related .expression anything (Eval.record line column description)
      (Eval.record line column description) p :=
  .ok ⟨hp.1, hp.2.record line column description hp.1⟩ (.refl _ _) trivial

theorem related_report (kind : String) (location : Location) (hp : (enclosed c d).holds p) :
    (enclosed c d).Related .expression anything (Eval.reportUnsupported kind location)
      (Eval.reportUnsupported kind location) p :=
  .ok ⟨hp.1, hp.2.report (.unsupported kind location)⟩ (.refl _ _) trivial

/-- What an activity leaves behind that was carried out on top of two stacks: the stacks are what they
were before. -/
structure Regains (c d : Machine Journal) (own : List Frame) (inner : List Nat) (s t : State) (m n : Machine Journal) :
    Prop where
  above : c.state.Above d.state own inner m.state n.state
  journal : Journal.Alike c d m.journal n.journal
  stays : s.Stays .expression m.state
  frames : n.state.frames = t.frames
  chain : n.state.chain = t.chain

theorem ends_of_same {P : Machine Journal → Machine Journal → Prop} {A : Machines → α → Prop}
    {a b : EStateM.Result Stop (Machine Journal) α} (h : SameEnd P a b)
    (hP : ∀ m n, P m n → (enclosed c d).holds (m, n) ∧ (enclosed c d).leads k p (m, n)) (hA : ∀ q a, A q a) :
    (enclosed c d).Ends k A p a b := by
  cases h with
  | ok h => exact .ok (hP _ _ h).1 (hP _ _ h).2 (hA _ _)
  | @error stop m n h =>
    refine .error (hP _ _ h).1 (stops_of_leads (hP _ _ h).2 _) ?_
    cases stop <;> trivial

/-- A closing operation takes away what was opened on top of both stacks. -/
theorem exists_regains {close : Engine Unit} {leaves : List Frame → List Frame} {scope : Scope} {own' own'' : List Frame}
    {inner' : List Nat} {m n : Machine Journal} (h : c.state.Above d.state own inner s t)
    (hs : s.chain ≠ []) (ht : t.chain ≠ [])
    (hclose : ∀ (r : State) id outer rest, r.chain = id :: outer :: rest →
      close r = .ok () { r with chain := outer :: rest, frames := leaves r.frames })
    (hr : c.state.Above d.state own'' inner' m.state n.state) (hinner : inner' ≠ [])
    (hstays : (c.state.inside s scope inner own').Stays k m.state) (hj : Journal.Alike c d m.journal n.journal)
    (hframes : leaves m.state.frames = s.frames) (hframes' : leaves n.state.frames = t.frames) :
    ∃ u w, ofEngine close m = .ok () u ∧ ofEngine close n = .ok () w ∧ Regains c d own inner s t u w := by
  obtain ⟨outer, rest, hs⟩ := List.exists_cons_of_ne_nil hs
  obtain ⟨outer', rest', ht⟩ := List.exists_cons_of_ne_nil ht
  obtain ⟨id, rfl⟩ := hr.exists_inner hinner hstays.outerChain
  have hm : m.state.chain = id :: s.chain := hr.chain.trans (congrArg (id :: ·) h.chain.symm)
  have hn : n.state.chain = id :: t.chain := hr.chain'.trans (congrArg (id :: ·) h.chain'.symm)
  have hids : s.scopeIds ⊆ m.state.scopeIds := fun _ hid ↦ hstays.scopeIds (List.mem_cons_of_mem _ hid)
  have hu := hclose m.state id outer rest (hm.trans (congrArg (id :: ·) hs))
  have hw := hclose n.state id outer' rest' (hn.trans (congrArg (id :: ·) ht))
  rw [hframes, ← hs] at hu
  rw [hframes', ← ht] at hw
  exact ⟨_, _, ofEngine_apply hu, ofEngine_apply hw, h.closed hr (List.subset_cons_self _ _) hids, hj,
    .of_eq rfl rfl hids, rfl, rfl⟩

theorem same_of_opened {x y : Eval α} {A : Machines → α → Prop} {close : Engine Unit} {j j' : Journal}
    {own' : List Frame} {scope : Scope} (leaves : List Frame → List Frame) (h : c.state.Above d.state own inner s t)
    (hs : s.chain ≠ []) (ht : t.chain ≠ [])
    (hclose : ∀ (r : State) id outer rest, r.chain = id :: outer :: rest →
      close r = .ok () { r with chain := outer :: rest, frames := leaves r.frames })
    (hleaves : ∀ r w own'' inner', own'' ≠ [] → (c.state.inside s scope inner own').Stays k r →
      c.state.Above d.state own'' inner' r w → leaves r.frames = s.frames ∧ leaves w.frames = t.frames)
    (hxy : (enclosed c d).Related k A x y (⟨c.state.inside s scope inner own', j⟩, ⟨d.state.inside t scope inner own', j'⟩)) :
    SameEnd (Regains c d own inner s t) (closing x close ⟨c.state.inside s scope inner own', j⟩)
      (closing y close ⟨d.state.inside t scope inner own', j'⟩) := by
  have hclosed (m n : Machine Journal) (hmn : (enclosed c d).holds (m, n))
      (hstays : (c.state.inside s scope inner own').Stays k m.state) :
      ∃ u w, ofEngine close m = .ok () u ∧ ofEngine close n = .ok () w ∧ Regains c d own inner s t u w := by
    obtain ⟨⟨own'', inner', hown, hinner, hr⟩, hj⟩ := hmn
    obtain ⟨hframes, hframes'⟩ := hleaves _ _ _ _ hown hstays hr
    exact exists_regains h hs ht hclose hr hinner hstays hj hframes hframes'
  unfold Related at hxy
  unfold closing
  generalize x _ = a, y _ = b at hxy
  cases hxy with
  | @ok v m n hh hl _ =>
    obtain ⟨u, w, hu, hw, hP⟩ := hclosed m n hh hl
    simp only [hu, hw]
    exact .ok hP
  | @error stop m n hh hl _ =>
    obtain ⟨u, w, hu, hw, hP⟩ := hclosed m n hh (stops.strays hl)
    simp only [hu, hw]
    exact .error hP

theorem related_of_regains {A : Machines → α → Prop} {x y : Eval α} (hown : own ≠ []) (hinner : inner ≠ [])
    (h : SameEnd (Regains c d own inner p.1.state p.2.state) (x p.1) (y p.2)) (hA : ∀ q a, A q a) :
    (enclosed c d).Related k A x y p :=
  ends_of_same h (fun _ _ hr ↦ ⟨⟨⟨own, inner, hown, hinner, hr.above⟩, hr.journal⟩,
    (enclosed c d).of_expression hr.stays⟩) hA

theorem chain_ne_nil_of_inner (h : c.state.Above d.state own inner s t) (hinner : inner ≠ []) :
    s.chain ≠ [] ∧ t.chain ≠ [] :=
  ⟨fun hs ↦ hinner (List.append_eq_nil_iff.mp (h.chain.symm.trans hs)).1,
    fun ht ↦ hinner (List.append_eq_nil_iff.mp (h.chain'.symm.trans ht)).1⟩

theorem related_inScope {name : String} {x y : Eval Unit} (hp : (enclosed c d).holds p)
    (hxy : ∀ q, (enclosed c d).holds q → (enclosed c d).renewable q → (enclosed c d).Related .iteration anything x y q) :
    (enclosed c d).Related .statement anything (inScope name x) (inScope name y) p := by
  obtain ⟨⟨s, j⟩, ⟨t, j'⟩⟩ := p
  obtain ⟨own, inner, hown, hinner, h⟩ := hp.1
  dsimp only at h
  let scope : Scope := { id := s.lastId + 1, kind := .block, name, parent := s.chain.head? }
  obtain ⟨hs, ht⟩ := chain_ne_nil_of_inner h hinner
  have hx : inScope name x ⟨s, j⟩ = closing x (Engine.popScope >>= fun _ ↦ pure ()) ⟨c.state.inside s scope inner own, j⟩ := by
    rw [inside, ← h.frames, ← h.chain]
    rfl
  have hy : inScope name y ⟨t, j'⟩ = closing y (Engine.popScope >>= fun _ ↦ pure ()) ⟨d.state.inside t scope inner own, j'⟩ := by
    change closing y _ ⟨t.openScope { id := t.lastId + 1, kind := .block, name, parent := t.chain.head? } t.chain t.frames, j'⟩ = _
    rw [inside, ← h.frames', ← h.chain', h.lastId_eq, h.head?_eq hinner]
  have hinside := h.inside scope (List.Subset.refl _) fun frame hframe ↦ Nat.le_succ_of_le (h.depth_le frame hframe)
  refine related_of_regains hown hinner ?_ fun _ _ ↦ trivial
  dsimp only
  rw [hx, hy]
  refine same_of_opened (k := .iteration) (A := anything) id h hs ht (fun r _ _ _ hr ↦ closeScope_apply hr) ?_ ?_
  · rintro r w own' inner' - hstays hr
    have hframes : r.frames = own.map (.raise c.state.chain.length) ++ c.state.frames := hstays.frames (by decide)
    obtain rfl := Frame.own_eq (hr.frames.symm.trans hframes)
    exact ⟨hr.frames.trans h.frames.symm, hr.frames'.trans h.frames'.symm⟩
  · refine hxy _ ⟨⟨own, _, hown, List.cons_ne_nil _ _, hinside⟩, hp.2⟩ ?_
    change c.state.chain.length + 2 ≤ (c.state.inside s scope inner own).chain.length
    rw [hinside.chain, List.length_append, List.length_cons]
    have := List.length_pos_iff.mpr hinner
    omega

/-- A call on top of two stacks, whose scope has the same parent on both. -/
theorem same_inCall {f : Function} {arguments : List Value} {line : Int} {name : String} {x y : Nat → Eval Value}
    {j j' : Journal} (h : c.state.Above d.state own inner s t) (hs : s.chain ≠ []) (ht : t.chain ≠ [])
    (hj : Journal.Alike c d j j') (hparent : f.closure.head?.or t.chain.head? = f.closure.head?.or s.chain.head?)
    (hxy : ∀ scope q, (enclosed c d).holds q → (enclosed c d).entered q scope →
      (enclosed c d).Related .body (enclosed c d).valid (x scope) (y scope) q) :
    SameEnd (Regains c d own inner s t) (inCall f arguments line name x ⟨s, j⟩)
      (inCall f arguments line name y ⟨t, j'⟩) := by
  let scope := s.callScope f name
  let frame : Frame := { s.callFrame f arguments line name with depth := inner.length }
  have hlength : s.chain.length = c.state.chain.length + inner.length := by
    rw [h.chain, List.length_append, Nat.add_comm]
  have hlength' : t.chain.length = d.state.chain.length + inner.length := by
    rw [h.chain', List.length_append, Nat.add_comm]
  have hx : inCall f arguments line name x ⟨s, j⟩ =
      closing (Eval.catchReturn (x scope.id)) leave ⟨c.state.inside s scope inner (frame :: own), j⟩ := by
    have hframe : frame.raise c.state.chain.length = { frame with depth := s.chain.length } := by
      rw [Frame.raise, hlength]
    rw [inside, ← h.chain, List.map_cons, List.cons_append, ← h.frames, hframe]
    rfl
  have hy : inCall f arguments line name y ⟨t, j'⟩ =
      closing (Eval.catchReturn (y scope.id)) leave ⟨d.state.inside t scope inner (frame :: own), j'⟩ := by
    have hscope : t.callScope f name = scope := by
      rw [State.callScope, hparent, h.lastId_eq]
      rfl
    have hframe : frame.raise d.state.chain.length = t.callFrame f arguments line name := by
      rw [Frame.raise, State.callFrame, hlength', hscope, h.lastId_eq]
      rfl
    have henter : (liftM (enter f arguments line name) : Eval Nat) ⟨t, j'⟩ =
        .ok scope.id ⟨d.state.inside t scope inner (frame :: own), j'⟩ := by
      rw [inside, ← h.chain', List.map_cons, List.cons_append, ← h.frames', hframe, ← hscope]
      exact ofEngine_apply (enter_apply f arguments line name t)
    unfold inCall
    rw [bind_apply, henter]
  have hdepth (own' : Frame) (hframe : own' ∈ frame :: own) : own'.depth ≤ inner.length + 1 := by
    rcases List.mem_cons.mp hframe with rfl | hframe
    · exact Nat.le_succ _
    · exact Nat.le_succ_of_le (h.depth_le own' hframe)
  have hinside := h.inside scope (List.Subset.refl _) hdepth
  rw [hx, hy]
  refine same_of_opened (k := .body) (A := (enclosed c d).valid) List.tail h hs ht (fun r _ _ _ hr ↦ leave_apply hr) ?_ ?_
  · rintro r w own' inner' hown hstays hr
    obtain ⟨frame', own', rfl⟩ := List.exists_cons_of_ne_nil hown
    have htail : r.frames.tail = own.map (.raise c.state.chain.length) ++ c.state.frames := hstays.outerFrames
    have hframes := hr.frames
    have hframes' := hr.frames'
    rw [List.map_cons, List.cons_append] at hframes hframes'
    rw [hframes] at htail
    obtain rfl := Frame.own_eq htail
    exact ⟨by rw [hframes, h.frames, List.tail_cons], by rw [hframes', h.frames', List.tail_cons]⟩
  · refine (hxy _ _ ⟨⟨_, _, List.cons_ne_nil _ _, List.cons_ne_nil _ _, hinside⟩, hj⟩ ?_).catchReturn
    exact ⟨_, hinside.chain, List.mem_cons_self⟩

theorem related_inCall {f : Function} {arguments : List Value} {line : Int} {name : String} {x y : Nat → Eval Value}
    (hp : (enclosed c d).holds p)
    (hxy : ∀ scope q, (enclosed c d).holds q → (enclosed c d).entered q scope →
      (enclosed c d).Related .body (enclosed c d).valid (x scope) (y scope) q) :
    (enclosed c d).Related .expression (enclosed c d).valid (inCall f arguments line name x)
      (inCall f arguments line name y) p := by
  obtain ⟨own, inner, hown, hinner, h⟩ := hp.1
  obtain ⟨hs, ht⟩ := chain_ne_nil_of_inner h hinner
  refine related_of_regains hown hinner (same_inCall h hs ht hp.2 ?_ hxy) fun _ _ ↦ trivial
  rw [h.head?_eq hinner]

/-- What a call notes down of its parameters is in a frame of its own. -/
theorem related_keepLocals {scope : Nat} (hp : (enclosed c d).holds p) (hscope : (enclosed c d).entered p scope) :
    (enclosed c d).Related .body anything (liftM (keepLocals scope)) (liftM (keepLocals scope)) p := by
  obtain ⟨own, inner, hown, hinner, h⟩ := hp.1
  obtain ⟨frame, own, rfl⟩ := List.exists_cons_of_ne_nil hown
  obtain ⟨hdepth, hdepths⟩ := List.forall_mem_cons.mp h.depth_le
  let noted : Frame := (p.1.state.scope? scope).elim frame fun scope ↦ { frame with locals := scope.bindings }
  have hraise (n : Nat) : (p.1.state.scope? scope).elim (frame.raise n)
      (fun scope ↦ { frame.raise n with locals := scope.bindings }) = noted.raise n := by
    dsimp only [noted]
    cases p.1.state.scope? scope <;> rfl
  have hle : noted.depth ≤ inner.length := by
    dsimp only [noted]
    cases p.1.state.scope? scope <;> exact hdepth
  have hx := keepLocals_of_frames scope h.frames
  have hy := keepLocals_of_frames scope h.frames'
  rw [scope?_of_entered hp hscope, hraise] at hy
  rw [hraise] at hx
  refine related_of_keeps (A := fun _ _ ↦ True) hp ?_
  rw [hx, hy]
  have hnoted : ∀ frame ∈ noted :: own, frame.depth ≤ inner.length := List.forall_mem_cons.mpr ⟨hle, hdepths⟩
  have habove := h.withFrames hnoted
  refine .ok ⟨_, inner, List.cons_ne_nil _ _, hinner, habove⟩ ⟨nofun, ?_, fun _ ↦ rfl, rfl, List.Subset.refl _⟩ trivial
  rw [h.frames]
  rfl

theorem related_renew (hp : (enclosed c d).holds p) (hr : (enclosed c d).renewable p) :
    (enclosed c d).Related .iteration anything (liftM Engine.renewScope) (liftM Engine.renewScope) p := by
  obtain ⟨own, inner, hown, hinner, h⟩ := hp.1
  change c.state.chain.length + 2 ≤ p.1.state.chain.length at hr
  rw [h.chain, List.length_append] at hr
  -- two scopes of the call are open, and so neither the scope renewed nor its parent is one of a caller
  obtain ⟨id, inner, rfl⟩ := List.exists_cons_of_ne_nil hinner
  have hlength : 0 < inner.length := by
    rw [List.length_cons] at hr
    omega
  obtain ⟨outer, rest, rfl⟩ := List.exists_cons_of_ne_nil (List.length_pos_iff.mp hlength)
  obtain ⟨old, hold⟩ := exists_scope_of_mem (h.known List.mem_cons_self)
  have hold' := (h.scopes id (.inl List.mem_cons_self)).trans hold
  let scope : Scope :=
    { id := p.1.state.lastId + 1, kind := old.kind, name := old.name, parent := old.parent.or (some outer) }
  have hinside := h.inside scope (List.subset_cons_self id _) h.depth_le
  have hrenewed := hinside.updateScope (f := fun new ↦ { new with bindings := old.bindings }) scope.id fun _ ↦ rfl
  have hx := renewScope_eq h.chain hold
  have hy := renewScope_eq h.chain' hold'
  rw [h.lastId_eq] at hy
  refine related_of_keeps (A := fun _ _ ↦ True) hp ?_
  rw [hx, hy]
  rw [inside, inside, ← h.frames, ← h.frames'] at hrenewed
  let opened : State := p.1.state.openScope scope (outer :: rest ++ c.state.chain) p.1.state.frames
  have hids : p.1.state.scopeIds ⊆ opened.scopeIds := List.subset_cons_self _ _
  rw [← scopeIds_updateScope (f := fun new ↦ { new with bindings := old.bindings }) (fun _ ↦ rfl) opened scope.id] at hids
  refine .ok ⟨own, _, hown, List.cons_ne_nil _ _, hrenewed⟩ ⟨fun _ ↦ rfl, rfl, fun h ↦ absurd rfl h, ?_, hids⟩ trivial
  rw [h.chain]
  rfl

theorem related_prune {settings : Settings} (hp : (enclosed c d).holds p) (hframes : p.1.state.frames = []) :
    (enclosed c d).Related .statement anything (Eval.prune settings) (Eval.prune settings) p := by
  obtain ⟨own, inner, hown, hinner, h⟩ := hp.1
  have hnil := (List.append_eq_nil_iff.mp (h.frames.symm.trans hframes)).1
  exact absurd (List.map_eq_nil_iff.mp hnil) hown

/-- Operations of an evaluation inside of a call do not depend on what lies below the call. -/
theorem sound {settings : Settings} (hs : settings.names = .ofScopes) (hc : c.state.globalId? ≠ none)
    (hd : d.state.globalId? = c.state.globalId?) : (enclosed c d).Sound settings settings where
  raises _ _ := trivial
  heap_eq hp := by
    obtain ⟨own, inner, -, -, h⟩ := hp.1
    rw [h.eq_withScoping]
    rfl
  frames_isEmpty hp := by
    obtain ⟨own, inner, hown, -, h⟩ := hp.1
    obtain ⟨frame, own, rfl⟩ := List.exists_cons_of_ne_nil hown
    rw [h.frames, h.frames']
    rfl
  valid_plain _ := trivial
  valid_held _ _ := trivial
  record line column description _ hp := related_record line column description hp
  report kind location hp := related_report kind location hp
  resolve name hp := by
    rw [hs]
    exact related_resolve hc hd hp
  isDeclared name hp := by
    rw [hs]
    exact related_isDeclared hc hd hp
  declare name v kind hp _ := by
    rw [hs]
    exact related_declare hp nofun
  declareAs kind name v hp _ := by
    rw [hs]
    refine related_declareAs kind name (related_functionScope hc hd hp) (related_declare hp nofun)
      fun q scope hq _ hscope ↦ related_declare hq fun id hid ↦ ?_
    cases hid
    exact hscope
  assign name v hp _ := by
    rw [hs]
    exact related_assign hc hd hp
  hoist hoisted hp := by
    rw [hs]
    exact related_hoisting hoisted hp
  capture hp := by
    rw [hs]
    exact related_capture hc hd hp
  freshIdentity hp := related_of_storing hp storing_freshIdentity fun _ _ ↦ trivial
  newArray vs hp _ := related_of_storing hp (storing_newArray fun v _ ↦ within_anything v) fun _ _ ↦ trivial
  newObject fields hp _ := related_of_storing hp (storing_newObject fun v _ ↦ within_anything v) fun _ _ ↦ trivial
  setProperty receiver key v hp _ :=
    related_of_storing hp (storing_setProperty receiver key (within_anything v)) fun _ _ ↦ trivial
  say level content hp _ := related_of_storing hp (storing_say level content) fun _ _ ↦ trivial
  timer f arguments line hp _ _ :=
    related_of_storing hp (storing_schedule .macrotask _ _ line fun v _ ↦ within_anything v) fun _ _ ↦ trivial
  fetch url line hp := related_of_storing hp (storing_fetch url line) fun _ _ ↦ trivial
  all vs hp _ := related_of_storing hp (storing_all fun v _ ↦ within_anything v) fun _ _ ↦ trivial
  race vs hp _ := related_of_storing hp (storing_race fun v _ ↦ within_anything v) fun _ _ ↦ trivial
  chain address handler hp _ _ := related_of_storing hp (storing_chain address fun _ _ ↦ trivial) fun _ _ ↦ trivial
  inScope _ _ _ hp hxy := related_inScope hp fun q hq hren ↦ hxy q hq fun _ ↦ hren
  renew hp hr := related_renew hp hr
  inCall _ _ _ _ _ _ hp _ _ hxy := related_inCall hp fun scope q hq hscope ↦ hxy scope q hq hscope fun _ _ ↦ trivial
  keepLocals _ hp hscope := related_keepLocals hp hscope
  prune hp hframes := related_prune hp hframes

end Correspondence.Enclosed

end Stepwise
