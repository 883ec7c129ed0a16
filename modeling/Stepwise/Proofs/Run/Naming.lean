import Stepwise.Proofs.Run.Declaring
import Stepwise.Proofs.Run.Scoping
import Stepwise.Proofs.State.Operation
/-!
Operations on names keep runs on lexical states together, also where one of the runs looks names up
in a way of its own that agrees with the visible scopes on lexical states.
-/

namespace Stepwise

/-- Two ways to find names that do the same on a machine. -/
structure Names.AgreeAt (a b : Names) (m : Machine Journal) : Prop where
  resolve : ∀ name, a.resolve name m = b.resolve name m
  isDeclared : ∀ name, a.isDeclared name m = b.isDeclared name m
  functionScope : a.functionScope m = b.functionScope m
  declare : ∀ name v kind scope, a.declare name v kind scope m = b.declare name v kind scope m
  assign : ∀ name v, a.assign name v m = b.assign name v m
  capture : a.capture m = b.capture m

theorem Names.AgreeAt.refl (a : Names) (m : Machine Journal) : a.AgreeAt a m :=
  ⟨fun _ ↦ rfl, fun _ ↦ rfl, rfl, fun _ _ _ _ ↦ rfl, fun _ _ ↦ rfl, rfl⟩

namespace Correspondence.Scoping

open State Engine Eval Names

variable {exact : Prop} {p : Machines} {k : Stretch} {α β : Type} {s t : State}

theorem related_reading {e : State → Except Fault α} {A : Machines → α → Prop}
    (hp : (scoping exact).holds p)
    (he : ∀ c, p.1.state.captured ⊆ c → e (p.1.state.withCaptured c) = e p.1.state)
    (hA : ∀ a, e p.1.state = .ok a → A p a) :
    (scoping exact).Related k A (Eval.reading e) (Eval.reading e) p := by
  have heq : e p.2.state = e p.1.state := by
    obtain ⟨c, hn, hc, -⟩ := hp.2.1
    rw [hn, he c hc]
  unfold Related Eval.reading
  rw [heq]
  cases h : e p.1.state with
  | ok a => exact .ok hp (.refl k _) (hA a h)
  | error f => exact .error hp (stops_of_leads ((scoping exact).refl k _) _) trivial

theorem moves_bind (s : State) (scope : Scope) (name : String) (v : Value) : s.Moves k (s.bind scope name v) := by
  have hp := s.persists_bind scope name v
  rw [bind_eq] at hp ⊢
  exact .of_persists hp rfl rfl fun _ h ↦ h

theorem captured_bind (s : State) (scope : Scope) (name : String) (v : Value) :
    (s.bind scope name v).captured = s.captured := by
  rw [bind_eq]

theorem bind_withCaptured (s : State) (scope : Scope) (name : String) (v : Value) (c : List Nat) :
    (s.withCaptured c).bind scope name v = (s.bind scope name v).withCaptured c := by
  rw [bind_eq, bind_eq]
  rfl

theorem reaches_declare {name : String} {v : Value} {kind : BindingKind} {scope : Option Nat}
    (hs : s.Lexical) (hv : v.Within s.Captures) :
    Reaches k (fun _ _ ↦ True) s (Engine.declare name v kind scope s) := by
  rw [declare_apply]
  cases scope.elim s.headId .ok with
  | error f => exact ⟨hs, .refl k s, rfl⟩
  | ok id =>
    dsimp only
    cases s.scope? id with
    | none => exact ⟨hs, .refl k s, rfl⟩
    | some scope =>
      refine ⟨(hs.bind hv).recordVariable, (moves_bind s scope name v).trans ?_,
        captured_bind s scope name v, trivial⟩
      exact .of_persists (.of_scopes_eq rfl) rfl rfl fun _ h ↦ h

theorem declare_withCaptured (name : String) (v : Value) (kind : BindingKind) (scope : Option Nat)
    (s : State) (c : List Nat) : Engine.declare name v kind scope (s.withCaptured c) =
      mapState (·.withCaptured c) (Engine.declare name v kind scope s) := by
  rw [declare_apply, declare_apply]
  simp only [headId_withCaptured, scope?_withCaptured]
  cases scope.elim s.headId .ok with
  | error f => rfl
  | ok id =>
    dsimp only
    cases s.scope? id with
    | none => rfl
    | some scope =>
      dsimp only
      rw [bind_withCaptured]
      rfl

theorem related_declare {name : String} {v : Value} {kind : BindingKind} {scope : Option Nat}
    (hp : (scoping exact).holds p) (hv : (scoping exact).valid p v) :
    (scoping exact).Related k anything (liftM (Engine.declare name v kind scope))
      (liftM (Engine.declare name v kind scope)) p :=
  related_of_reaches hp (fun c _ ↦ declare_withCaptured name v kind scope p.1.state c)
    (reaches_declare hp.1 hv)

theorem binder?_withCaptured {c : List Nat} (hs : s.Lexical) (hc : s.captured ⊆ c) (name : String) :
    (s.withCaptured c).binder? name = s.binder? name := by
  unfold binder?
  rw [visible_withCaptured hs hc]

theorem related_assign {name : String} {v : Value} (hp : (scoping exact).holds p)
    (hv : (scoping exact).valid p v) :
    (scoping exact).Related k anything (liftM (Engine.assign name v)) (liftM (Engine.assign name v)) p := by
  refine related_of_reaches (A := fun _ _ ↦ True) hp (fun c hc ↦ ?_) ?_
  · rw [assign_apply, assign_apply, binder?_withCaptured hp.1 hc]
    cases p.1.state.binder? name with
    | error f => rfl
    | ok scope =>
      cases scope with
      | none => exact declare_withCaptured name v .blockScoped none p.1.state c
      | some scope => dsimp only; rw [bind_withCaptured]; rfl
  · rw [assign_apply]
    cases p.1.state.binder? name with
    | error f => exact ⟨hp.1, .refl k _, rfl⟩
    | ok scope =>
      cases scope with
      | none => exact reaches_declare hp.1 hv
      | some scope => exact ⟨hp.1.bind hv, moves_bind _ scope name v, captured_bind _ scope name v, trivial⟩

/-- The captured scopes with visible ones added. -/
def capturedWith (globalId : Nat) (ids captured : List Nat) : List Nat :=
  ids.foldl (fun captured id ↦ if id = globalId || id ∈ captured then captured else captured ++ [id])
    captured

theorem mem_capturedWith {id globalId : Nat} {ids captured : List Nat} :
    id ∈ capturedWith globalId ids captured ↔ id ∈ captured ∨ id ∈ ids ∧ id ≠ globalId :=
  mem_foldl_capture

theorem capture_eq {globalId : Nat} {ids : List Nat} (hg : s.globalId? = some globalId)
    (hids : s.visibleIds = .ok ids) :
    Engine.capture s = .ok ids (s.withCaptured (capturedWith globalId ids s.captured)) := by
  unfold Engine.capture
  rw [bind_apply, get_apply]
  dsimp only
  rw [hg]
  dsimp only
  rw [hids]
  rfl

theorem capture_apply {globalId : Nat} (h : s.Stacked s.frames s.chain) (hg : s.globalId? = some globalId) :
    Engine.capture s = .ok s.lexicalIds (s.withCaptured (capturedWith globalId s.lexicalIds s.captured)) :=
  capture_eq hg (visibleIds_eq h)

theorem related_capture (hp : (scoping exact).holds p) :
    (scoping exact).Related k (scoping exact).closed (liftM Engine.capture) (liftM Engine.capture) p := by
  obtain ⟨m, n⟩ := p
  obtain ⟨hs, ⟨c, hn, hc, he⟩, hj⟩ := hp
  obtain ⟨globalId, -, hg, -⟩ := hs.stacked.exists_root
  have hx := capture_apply hs.stacked hg
  have hstacked : (m.state.withCaptured c).Stacked m.state.frames m.state.chain := hs.stacked.withCaptured hc
  have hy := capture_apply hstacked hg
  change (scoping exact).Ends _ _ _ (Activity.ofEngine Engine.capture m) (Activity.ofEngine Engine.capture n)
  unfold Activity.ofEngine
  dsimp only at hn hs ⊢
  rw [hx, hn, hy]
  have hsub : m.state.captured ⊆ capturedWith globalId m.state.lexicalIds m.state.captured :=
    fun _ hid ↦ mem_capturedWith.mpr (.inl hid)
  refine .ok ⟨hs.withCaptured hsub fun id hid ↦ ?_, ⟨_, rfl, ?_, fun h ↦ ?_⟩, hj⟩ ?_ ⟨?_, fun id hid ↦ ?_⟩
  · exact (mem_capturedWith.mp hid).imp_right And.left
  · exact fun id hid ↦ mem_capturedWith.mpr ((mem_capturedWith.mp hid).imp_left (hc ·))
  · exact congrArg (capturedWith globalId m.state.lexicalIds) (he h)
  · exact .of_persists (.of_scopes_eq rfl) rfl rfl hsub
  · exact (lineage_lexicalIds hs.stacked).mono (.of_scopes_eq rfl)
  · by_cases hglobal : id = globalId
    · exact .inl (hglobal ▸ hg)
    · exact .inr (mem_capturedWith.mpr (.inr ⟨hid, hglobal⟩))

theorem related_resolve {name : String} (hp : (scoping exact).holds p) :
    (scoping exact).Related k (scoping exact).valid (liftM (Engine.resolve name))
      (liftM (Engine.resolve name)) p := by
  have hliftM : (liftM (Engine.resolve name) : Eval Value) = Eval.reading (·.resolve name) :=
    liftM_reading _
  rw [hliftM]
  refine related_reading hp (fun c hc ↦ ?_) fun v hv ↦ ?_
  · simp only [State.resolve, binder?_withCaptured hp.1 hc]
  · obtain ⟨scope, hscope, hv⟩ := Except.exists_of_bind_eq_ok hv
    cases hb : scope.bind (·.bindings.get? name) with
    | none => rw [hb] at hv; cases hv
    | some w =>
      rw [hb] at hv
      cases hv
      obtain ⟨binder, rfl, hw⟩ := Option.bind_eq_some_iff.mp hb
      unfold binder? at hscope
      rw [hp.1.visible_eq] at hscope
      have hmem := List.mem_of_find?_eq_some (Except.ok.inj hscope)
      exact hp.1.captures_of_mem_visible hmem _ (Dict.mem_values_of_get? hw)

theorem related_isDeclared {name : String} (hp : (scoping exact).holds p) :
    (scoping exact).Related k anything (liftM (Engine.isDeclared name))
      (liftM (Engine.isDeclared name)) p := by
  have hliftM : (liftM (Engine.isDeclared name) : Eval Bool) = Eval.reading (·.isDeclared name) :=
    liftM_reading _
  rw [hliftM]
  refine related_reading hp (fun c hc ↦ ?_) fun _ _ ↦ trivial
  simp only [State.isDeclared, binder?_withCaptured hp.1 hc]

theorem related_functionScope (hp : (scoping exact).holds p) :
    (scoping exact).Related k anything Names.ofScopes.functionScope Names.ofScopes.functionScope p := by
  rw [functionScope_eq]
  refine related_reading hp (fun c hc ↦ ?_) fun _ _ ↦ trivial
  simp only [State.functionScope, visible_withCaptured hp.1 hc]

variable {names : Names}

/-- Names that are found in another way which agrees on the machines that can occur. -/
abbrev Faithful (exact : Prop) (names : Names) : Prop :=
  ∀ p, (scoping exact).holds p → names.AgreeAt .ofScopes p.2

theorem related_declareIn (hn : Faithful exact names) {name : String} {v : Value} {kind : BindingKind}
    {scope : Option Nat} (hp : (scoping exact).holds p) (hv : (scoping exact).valid p v) :
    (scoping exact).Related .expression anything (Names.ofScopes.declare name v kind scope)
      (names.declare name v kind scope) p :=
  Related.congr ((hn p hp).declare name v kind scope) (related_declare hp hv)

theorem related_functionScopes (hn : Faithful exact names) (hp : (scoping exact).holds p) :
    (scoping exact).Related .expression anything Names.ofScopes.functionScope names.functionScope p :=
  Related.congr (hn p hp).functionScope (related_functionScope hp)

theorem scope?_eq (hp : (scoping exact).holds p) (id : Nat) : p.2.state.scope? id = p.1.state.scope? id := by
  obtain ⟨c, hc, -⟩ := hp.2.1
  rw [hc, scope?_withCaptured]

theorem headId_eq (hp : (scoping exact).holds p) : p.2.state.headId = p.1.state.headId := by
  obtain ⟨c, hc, -⟩ := hp.2.1
  rw [hc, headId_withCaptured]

end Correspondence.Scoping

end Stepwise
