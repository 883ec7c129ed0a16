import Stepwise.Proofs.Run.Program
import Stepwise.Proofs.State.Scoping
import Stepwise.Proofs.State.Pruning
import Mathlib.Data.List.Forall2
/-!
The correspondence between two runs on lexical states, where one may keep captured scopes that the
other has forgotten. Every operation of a run keeps it.
-/

namespace Stepwise

namespace State

/-- Two states with the same contents, except that the second may keep more captured scopes; if they
are to agree exactly it may not. -/
def Trims (exact : Prop) (s t : State) : Prop :=
  ∃ captured, t = s.withCaptured captured ∧ s.captured ⊆ captured ∧ (exact → captured = s.captured)

/-- How far a stretch of a run may move a state. -/
structure Moves (k : Stretch) (s t : State) : Prop where
  persists : s.Persists t
  shapes : t.frames.map Frame.shape = s.frames.map Frame.shape
  global : t.globalId? = s.globalId?
  chain : k ≠ .iteration → t.chain = s.chain
  tail : t.chain.tail = s.chain.tail
  /-- captured scopes are forgotten between the statements outside of calls only -/
  captured : k = .expression ∨ s.frames ≠ [] → s.captured ⊆ t.captured

variable {exact : Prop} {k : Stretch} {s t u : State} {α : Type}

namespace Moves

theorem refl (k : Stretch) (s : State) : Moves k s s :=
  ⟨.refl s, rfl, rfl, fun _ ↦ rfl, rfl, fun _ _ h ↦ h⟩

theorem of_persists (hp : s.Persists t) (hf : t.frames = s.frames) (hc : t.chain = s.chain)
    (hcaptured : s.captured ⊆ t.captured) : Moves k s t :=
  ⟨hp, congrArg (List.map Frame.shape) hf, congrArg List.getLast? hc, fun _ ↦ hc,
    congrArg List.tail hc, fun _ ↦ hcaptured⟩

theorem frames_ne_nil (h : Moves k s t) (hf : s.frames ≠ []) : t.frames ≠ [] := by
  intro ht
  have hs := h.shapes
  rw [ht, List.map_nil, eq_comm, List.map_eq_nil_iff] at hs
  exact hf hs

theorem trans (h : Moves k s t) (h' : Moves k t u) : Moves k s u where
  persists := h.persists.trans h'.persists
  shapes := h'.shapes.trans h.shapes
  global := h'.global.trans h.global
  chain hk := (h'.chain hk).trans (h.chain hk)
  tail := h'.tail.trans h.tail
  captured hc := fun _ hid ↦ h'.captured (hc.imp_right h.frames_ne_nil) (h.captured hc hid)

theorem of_expression (h : Moves .expression s t) : Moves k s t :=
  ⟨h.persists, h.shapes, h.global, fun _ ↦ h.chain nofun, h.tail, fun _ ↦ h.captured (.inl rfl)⟩

theorem of_statement (hk : k ≠ .expression) (h : Moves .statement s t) : Moves k s t :=
  ⟨h.persists, h.shapes, h.global, fun _ ↦ h.chain nofun, h.tail,
    fun hc ↦ h.captured (.inr (hc.resolve_left hk))⟩

theorem captures {f : Function} (h : Moves .expression s t) (hf : s.Captures f) : t.Captures f :=
  Lexical.captures_mono h.persists h.global (h.captured (.inl rfl)) hf

theorem within {v : Value} (h : Moves .expression s t) (hv : v.Within s.Captures) :
    v.Within t.Captures := hv.mono fun _ ↦ h.captures

theorem stacked {chain : List Nat} (h : Moves k s t) (hs : s.Stacked s.frames chain) :
    t.Stacked t.frames chain :=
  hs.mono h.persists (fun hf _ hk ↦ hk.mono h.global (h.captured (.inr hf))) h.shapes

end Moves

end State

/-- Steps that differ in the captured scopes of their snapshots only, taken where names are looked up
in the scopes of the program text. -/
def Step.Matches (exact : Prop) (a b : Step) : Prop :=
  ∃ snapshot, b = { a with snapshot } ∧ a.snapshot.Trims exact snapshot ∧ a.snapshot.LexicallyScoped

def Journal.Matches (exact : Prop) (a b : Journal) : Prop :=
  List.Forall₂ (Step.Matches exact) a.steps b.steps ∧ b.diagnostics = a.diagnostics

/-- Runs on lexical states, the second of which may keep more captured scopes. -/
def Correspondence.scoping (exact : Prop) : Correspondence where
  holds p := p.1.state.Lexical ∧ p.1.state.Trims exact p.2.state ∧ p.1.journal.Matches exact p.2.journal
  leads k p q := p.1.state.Moves k q.1.state
  strays k p q := p.1.state.Moves k q.1.state
  valid p v := v.Within p.1.state.Captures
  closed p ids := p.1.state.Closed ids
  renewable p := p.1.state.Stacked p.1.state.frames p.1.state.chain.tail
  entered _ _ := True
  raises _ := True
  refl k p := .refl k p.1.state
  trans := State.Moves.trans
  of_expression := State.Moves.of_expression
  of_statement := State.Moves.of_statement
  strays_of_leads := id
  strays_trans := State.Moves.trans
  strays_of_expression := State.Moves.of_expression
  strays_of_statement := State.Moves.of_statement
  valid_leads := State.Moves.within
  closed_leads h hc := hc.mono h.persists fun _ hk ↦ hk.mono h.global (h.captured (.inl rfl))
  entered_leads _ h := h
  renewable_leads h hr := h.tail ▸ h.stacked hr
  valid_function := Iff.rfl

namespace Correspondence.Scoping

open State Engine

variable {exact : Prop} {p : Machines} {k : Stretch} {α : Type} {s t : State}

/-- What an operation on a lexical state may do. -/
def Reaches (k : Stretch) (A : State → α → Prop) (s : State) : EStateM.Result Fault State α → Prop
  | .ok a t => t.Lexical ∧ s.Moves k t ∧ t.captured = s.captured ∧ A t a
  | .error _ t => t.Lexical ∧ s.Moves k t ∧ t.captured = s.captured

theorem trims_withCaptured (ht : t.captured = s.captured) {c : List Nat} (hc : s.captured ⊆ c)
    (he : exact → c = s.captured) : t.Trims exact (t.withCaptured c) :=
  ⟨c, rfl, ht ▸ hc, fun h ↦ (he h).trans ht.symm⟩

/-- An operation that pays no attention to the captured scopes. -/
theorem related_of_reaches {x : Engine α} {A : State → α → Prop}
    (hp : (scoping exact).holds p)
    (hx : ∀ c, p.1.state.captured ⊆ c →
      x (p.1.state.withCaptured c) = mapState (·.withCaptured c) (x p.1.state))
    (hr : Reaches k A p.1.state (x p.1.state)) :
    (scoping exact).Related k (fun q a ↦ A q.1.state a) (liftM x) (liftM x) p := by
  obtain ⟨m, n⟩ := p
  obtain ⟨hlex, ⟨c, hn, hc, he⟩, hj⟩ := hp
  change (scoping exact).Ends _ _ _ (Activity.ofEngine x m) (Activity.ofEngine x n)
  unfold Activity.ofEngine
  dsimp only at hn hx hr ⊢
  rw [hn, hx c hc]
  generalize x m.state = r at hr
  cases r with
  | ok a t => exact .ok ⟨hr.1, trims_withCaptured hr.2.2.1 hc he, hj⟩ hr.2.1 hr.2.2.2
  | error f t => exact .error ⟨hr.1, trims_withCaptured hr.2.2 hc he, hj⟩ hr.2.1 trivial

theorem related_of_storing {x : Engine α} {A : α → Prop} (hp : (scoping exact).holds p)
    (hx : Storing p.1.state.Captures x A) :
    (scoping exact).Related k (fun _ ↦ A) (liftM x) (liftM x) p := by
  have hs := hp.1
  have hblind := hx.blind p.1.state p.1.state hs.held
  have hleaves := hx.leaves p.1.state hs.held
  refine related_of_reaches (A := fun _ ↦ A) hp (fun c _ ↦ ?_) ?_
  · -- frames and scopes are those of the state before
    have hc := hx.blind p.1.state (p.1.state.withCaptured c) hs.held
    change x (p.1.state.withScoping (p.1.state.withCaptured c)) = _
    change x p.1.state = _ at hblind
    rw [hc, hblind]
    generalize x p.1.state = r
    cases r <;> rfl
  · change x p.1.state = _ at hblind
    rw [hblind]
    generalize x p.1.state = r at hleaves ⊢
    cases r with
    | ok a t =>
      have ht : (t.withScoping p.1.state).Lexical := hs.withScoping hleaves.1.lastId hleaves.1.holding
      exact ⟨ht, .of_persists (.of_scopes_eq rfl) rfl rfl fun _ h ↦ h, rfl, hleaves.2⟩
    | error f t =>
      have ht : (t.withScoping p.1.state).Lexical := hs.withScoping hleaves.1.lastId hleaves.1.holding
      exact ⟨ht, .of_persists (.of_scopes_eq rfl) rfl rfl fun _ h ↦ h, rfl⟩

end Correspondence.Scoping

end Stepwise
