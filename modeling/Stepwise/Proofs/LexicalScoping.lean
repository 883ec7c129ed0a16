import Stepwise.Proofs.Outcome
import Stepwise.Proofs.Run.Soundness
/-!
Names mean what the text of a program says. Wherever a run looks a name up, declares it, assigns to
it or captures the visible scopes, and wherever it records a step, the visible scopes are the line
of parents from the innermost open scope to the global one.
-/

namespace Stepwise

open Classical in
/-- Names that are found one way where a condition holds and another way elsewhere. -/
noncomputable def Names.inCase (P : State → Prop) (a b : Names) : Names where
  resolve name m := if P m.state then a.resolve name m else b.resolve name m
  isDeclared name m := if P m.state then a.isDeclared name m else b.isDeclared name m
  functionScope m := if P m.state then a.functionScope m else b.functionScope m
  declare name v kind scope m :=
    if P m.state then a.declare name v kind scope m else b.declare name v kind scope m
  assign name v m := if P m.state then a.assign name v m else b.assign name v m
  capture m := if P m.state then a.capture m else b.capture m

theorem Names.inCase_agreeAt {P : State → Prop} (a b : Names) {m : Machine Journal} (h : P m.state) :
    (inCase P a b).AgreeAt a m :=
  ⟨fun _ ↦ if_pos h, fun _ ↦ if_pos h, if_pos h, fun _ _ _ _ ↦ if_pos h, fun _ _ ↦ if_pos h, if_pos h⟩

namespace Correspondence.Scoping

theorem eq_of_holds {p : Machines} (h : (scoping True).holds p) : p.2 = p.1 := by
  obtain ⟨⟨s, ⟨steps, diagnostics⟩⟩, ⟨t, ⟨steps', diagnostics'⟩⟩⟩ := p
  obtain ⟨-, ⟨c, ht, -, he⟩, hsteps, hdiagnostics⟩ := h
  dsimp only at ht he hsteps hdiagnostics
  have hstate : t = s := by
    rw [ht, he trivial]
    rfl
  have heq : steps' = steps := by
    clear * - hsteps
    induction hsteps with
    | nil => rfl
    | @cons a b as bs hab _ ih =>
      obtain ⟨snapshot, rfl, ⟨d, hd, -, he⟩, -⟩ := hab
      rw [ih, hd, he trivial]
      rfl
  rw [hstate, heq, hdiagnostics]

theorem scoped_of_matches {exact : Prop} {j j' : Journal} (h : j.Matches exact j') :
    ∀ step ∈ j.steps, step.snapshot.LexicallyScoped := by
  obtain ⟨steps, diagnostics⟩ := j
  intro step hstep
  have hsteps := h.1
  clear h
  generalize j'.steps = steps' at hsteps
  dsimp only at hsteps hstep
  induction hsteps with
  | nil => cases hstep
  | cons hab _ ih =>
    rcases List.mem_cons.mp hstep with rfl | hstep
    · exact hab.choose_spec.2.2
    · exact ih hstep

/-- Runs that are to agree exactly end alike, and every step is recorded where it should be. -/
theorem eq_of_ends {k : Stretch} {α : Type} {A : Machines → α → Prop} {p : Machines}
    {a b : EStateM.Result Stop (Machine Journal) α} (h : (scoping True).Ends k A p a b) :
    b = a ∧ ∀ step ∈ (after a).journal.steps, step.snapshot.LexicallyScoped := by
  cases h with
  | ok hq _ _ => exact ⟨congrArg (EStateM.Result.ok _) (eq_of_holds hq), scoped_of_matches hq.2.2⟩
  | error hq _ _ => exact ⟨congrArg (EStateM.Result.error _) (eq_of_holds hq), scoped_of_matches hq.2.2⟩

end Correspondence.Scoping

/-- Whatever is done to find a name at points of a run that are not lexically scoped makes no
difference, since there are none; and every step is recorded at a point that is. -/
theorem run_lexicallyScoped (settings : Settings) (other : Names) (depth : Nat) (program : Program) :
    { settings with names := .inCase State.LexicallyScoped .ofScopes other }.run depth program =
      { settings with names := .ofScopes }.run depth program ∧
    ∀ step ∈ (after ({ settings with names := .ofScopes }.run depth program)).journal.steps,
      step.snapshot.LexicallyScoped := by
  have hfaithful : Correspondence.Scoping.Faithful True (.inCase State.LexicallyScoped .ofScopes other) :=
    fun p hp ↦ Names.inCase_agreeAt .ofScopes other (by
      rw [Correspondence.Scoping.eq_of_holds hp]
      exact hp.1.lexicallyScoped)
  have hrun := Correspondence.Scoping.related_run (s := { settings with names := .ofScopes })
    (t := { settings with names := .inCase State.LexicallyScoped .ofScopes other })
    rfl hfaithful (.inl ⟨trivial, rfl⟩) rfl depth program
  exact Correspondence.Scoping.eq_of_ends hrun

end Stepwise
