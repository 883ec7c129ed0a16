import Stepwise.Proofs.Run.Soundness
import Stepwise.State.Export
/-!
Forgetting captured scopes cannot be observed. A run that forgets the scopes which nothing needs any
more and a run that keeps them all give the same trace, but for the captured scopes themselves.
-/

namespace Stepwise

/-- A state that forgot some of the captured scopes of another one and is the same otherwise. -/
structure State.Forgets (s t : State) : Prop where
  rest : t = { s with captured := t.captured }
  written : t.members.filter (·.1 ≠ "closures") = s.members.filter (·.1 ≠ "closures")
  captured : s.captured ⊆ t.captured
  scopes : s.capturedScopes ⊆ t.capturedScopes

/-- A step at the same place with the same description. -/
structure Step.Forgets (a b : Step) : Prop where
  ordinal : b.ordinal = a.ordinal
  line : b.line = a.line
  column : b.column = a.column
  description : b.description = a.description
  snapshot : a.snapshot.Forgets b.snapshot

structure Trace.Forgets (a b : Trace) : Prop where
  steps : List.Forall₂ Step.Forgets a.steps b.steps
  diagnostics : b.diagnostics = a.diagnostics
  error : b.error = a.error
  executed : b.stats.tasksExecuted = a.stats.tasksExecuted
  finalState : ∃ s t, a.finalState = some s ∧ b.finalState = some t ∧ s.Forgets t

namespace State

variable {s t : State}

theorem Trims.forgets (h : s.Trims False t) : s.Forgets t := by
  obtain ⟨c, rfl, hc, -⟩ := h
  refine ⟨rfl, rfl, hc, fun scope hscope ↦ ?_⟩
  obtain ⟨id, hid, hs⟩ := List.mem_filterMap.mp hscope
  exact List.mem_filterMap.mpr ⟨id, hc hid, hs⟩

end State

theorem Step.Matches.forgets {a b : Step} (h : a.Matches False b) : a.Forgets b := by
  obtain ⟨snapshot, rfl, hs, -⟩ := h
  exact ⟨rfl, rfl, rfl, rfl, hs.forgets⟩

namespace Trace

variable {m n : Machine Journal}

theorem ofMachine_forgets (hs : m.state.Trims False n.state) (hj : m.journal.Matches False n.journal)
    (error : Option Message) : (ofMachine m error).Forgets (ofMachine n error) := by
  obtain ⟨hsteps, hdiagnostics⟩ := hj
  refine ⟨hsteps.imp fun _ _ ↦ Step.Matches.forgets, hdiagnostics, rfl, ?_, m.state, n.state, rfl, rfl, hs.forgets⟩
  obtain ⟨c, hc, -⟩ := hs
  change n.state.loop.executed = m.state.loop.executed
  rw [hc]
  rfl

theorem ofFault_forgets (hs : m.state.Trims False n.state) (hj : m.journal.Matches False n.journal)
    (fault : Fault) : (ofFault m fault).Forgets (ofFault n fault) := by
  obtain ⟨s, j⟩ := m
  obtain ⟨t, j'⟩ := n
  obtain ⟨c, ht, hc, -⟩ := hs
  dsimp only at ht hc
  subst ht
  let message : Message := ⟨s.lastId + 1, .error, [.string fault.report]⟩
  let said : State := { s with lastId := s.lastId + 1, console := s.console ++ [message] }
  exact ofMachine_forgets (m := ⟨said, j⟩) (n := ⟨said.withCaptured c, j'⟩) ⟨c, rfl, hc, nofun⟩ hj (some message)

end Trace

open Correspondence in
/-- Collecting captured scopes makes no difference that a trace shows. -/
theorem ofProgram?_collecting (ceiling : Int) (depth : Nat) (program : Program) :
    Option.Rel Trace.Forgets (Trace.ofProgram? { ceiling, prunes := true } depth program)
      (Trace.ofProgram? { ceiling, prunes := false } depth program) := by
  have hrun := Scoping.related_run (s := { ceiling, prunes := true })
    (t := { ceiling, prunes := false }) rfl (fun p _ ↦ .refl _ _) (.inr ⟨not_false, rfl⟩) rfl depth program
  unfold Trace.ofProgram?
  change (scoping False).Ends _ _ _ ((Evaluator.ofDepth { ceiling, prunes := true } depth).program
    { ceiling, prunes := true } program .initial) ((Evaluator.ofDepth { ceiling, prunes := false } depth).program
    { ceiling, prunes := false } program .initial) at hrun
  generalize Evaluator.program _ { ceiling, prunes := true } program .initial = a,
    Evaluator.program _ { ceiling, prunes := false } program .initial = b at hrun
  cases hrun with
  | ok hq _ _ => exact .some (Trace.ofMachine_forgets hq.2.1 hq.2.2 none)
  | @error stop m n hq _ _ =>
    cases stop with
    | returned v => exact .some (Trace.ofMachine_forgets hq.2.1 hq.2.2 none)
    | fault fault => exact .some (Trace.ofFault_forgets hq.2.1 hq.2.2 fault)
    | exhausted => exact .none

end Stepwise
