import Stepwise.Proofs.CeilingExtension
import Stepwise.Proofs.Run.Unfolding
import Stepwise.Proofs.StackDiscipline
/-!
What a run leaves behind as the outcome of a row of edits: the snapshots are states on the way to it, and
the trace shows the machine that the row ends with.
-/

namespace Stepwise

namespace Machine

variable {l m n : Machine Journal} {handed : List Bearer}

theorem Unfolds.exists_of_step (h : l.Unfolds handed n) {step : Step} (hstep : step ∈ n.journal.steps) :
    step ∈ l.journal.steps ∨ ∃ before behind m, l.Unfolds before m ∧ m.Unfolds behind n ∧ handed = before ++ behind ∧
      step.snapshot = { m.state with step := step.ordinal } := by
  induction h with
  | refl => exact .inl hstep
  | edit _ hedit ih =>
    obtain hstep | ⟨before, behind, m, hbefore, hbehind, rfl, hsnapshot⟩ := ih hstep
    · exact .inl hstep
    · exact .inr ⟨before, _, m, hbefore, hbehind.edit hedit, List.append_assoc .., hsnapshot⟩
  | @record handed m line column description hrow ih =>
    rcases List.mem_append.mp hstep with hstep | hstep
    · obtain hstep | ⟨before, behind, m, hbefore, hbehind, rfl, hsnapshot⟩ := ih hstep
      · exact .inl hstep
      · exact .inr ⟨before, behind, m, hbefore, hbehind.record line column description, rfl, hsnapshot⟩
    · obtain rfl := List.mem_singleton.mp hstep
      exact .inr ⟨handed, [], m, hrow, .record line column description .refl, (List.append_nil handed).symm, rfl⟩
  | report problem _ ih =>
    obtain hstep | ⟨before, behind, m, hbefore, hbehind, rfl, hsnapshot⟩ := ih hstep
    · exact .inl hstep
    · exact .inr ⟨before, behind, m, hbefore, hbehind.report problem, rfl, hsnapshot⟩

theorem bearers_initial : initial.state.bearers = [.scope 1] := rfl

theorem reaches_initial : initial.Reaches initial := by
  refine ⟨⟨List.cons_ne_nil _ _, List.Subset.refl _⟩, ⟨?_, ?_⟩, .refl initial⟩
  · rw [initial_state]
    exact ⟨List.forall_mem_singleton.mpr (List.forall_mem_nil _), List.forall_mem_nil _, List.forall_mem_nil _,
      List.forall_mem_nil _, List.forall_mem_nil _, List.forall_mem_nil _, List.forall_mem_nil _⟩
  · refine ⟨?_, List.forall_mem_nil _, .nil, .nil, List.forall_mem_nil _⟩
    rw [bearers_initial]
    exact List.forall_mem_singleton.mpr (Nat.le_refl 1)

/-- The states that a machine shows: those of its snapshots and its own. -/
def states (m : Machine Journal) : List State := m.journal.steps.map Step.snapshot ++ [m.state]

theorem exists_of_mem_states (h : initial.Unfolds handed m) {s : State} (hs : s ∈ m.states) :
    ∃ before behind n, initial.Unfolds before n ∧ n.Unfolds behind m ∧ handed = before ++ behind ∧
      s = { n.state with step := s.step } := by
  rcases List.mem_append.mp hs with hs | hs
  · obtain ⟨step, hstep, rfl⟩ := List.mem_map.mp hs
    obtain hnone | ⟨before, behind, n, hbefore, hbehind, hhanded, hsnapshot⟩ := h.exists_of_step hstep
    · cases hnone
    · refine ⟨before, behind, n, hbefore, hbehind, hhanded, ?_⟩
      rw [hsnapshot]
  · obtain rfl := List.mem_singleton.mp hs
    exact ⟨handed, [], m, h, .refl, (List.append_nil handed).symm, rfl⟩

end Machine

namespace Correspondence.Unfolding

open Machine

variable {l m : Machine Journal} {k : Stretch} {α : Type} {A : Machines → α → Prop}

/-- What an activity leaves behind that is a row of edits. -/
structure Outcome (l : Machine Journal) (A : Machines → α → Prop) (m : Machine Journal)
    (r : EStateM.Result Stop (Machine Journal) α) : Prop where
  leads : m.Leads (after r)
  reaches : l.Reaches (after r)
  result : ∀ a n, r = .ok a n → A (n, n) a
  returned : ∀ v n, r = .error (.returned v) n → n.state.Knows v
  faults : ∀ f n, r = .error (.fault f) n → f.isCorruption = false

theorem outcome_of_ends {a b : EStateM.Result Stop (Machine Journal) α} (h : (unfolding l).Ends k A (m, m) a b) :
    b = a ∧ Outcome l A m a := by
  cases h with
  | @ok c n n' hq hl hA =>
    obtain rfl : n' = n := hq.1
    refine ⟨rfl, hl.2, hq.2, fun a n hn ↦ ?_, fun v n hn ↦ ?_, fun f n hn ↦ ?_⟩
    · cases hn
      exact hA
    · cases hn
    · cases hn
  | @error stop n n' hq hl hstop =>
    obtain rfl : n' = n := hq.1
    refine ⟨rfl, hl.strays.2, hq.2, fun a n hn ↦ ?_, fun v n hn ↦ ?_, fun f n hn ↦ ?_⟩
    · cases hn
    · cases hn
      exact hstop
    · cases hn
      exact hstop

/-- From where a run comes to, an activity that keeps the correspondence has such an outcome. -/
theorem outcome {x y : Eval α} (hm : l.Reaches m)
    (h : (unfolding l).holds (m, m) → (unfolding l).Related k A x y (m, m)) : Outcome l A m (x m) :=
  (outcome_of_ends (h ⟨rfl, hm⟩)).2

variable {settings : Settings} (hs : settings.names = .ofScopes)
include hs

theorem outcome_run (depth : Nat) (program : Program) :
    Outcome .initial anything .initial (settings.run depth program) :=
  outcome reaches_initial fun hp ↦ (soundLoop hs).program ((sound hs).parts depth) program hp rfl

/-- It makes no difference to a run what would be done on machines that it does not come to. -/
theorem watched_eq_run {P : Machine Journal → Prop} (hP : ∀ m, initial.Reaches m → P m) (other : Evaluator)
    (depth : Nat) (program : Program) :
    (Evaluator.watched P other settings depth).program settings program .initial = settings.run depth program := by
  have hparts : (unfolding .initial).Parts settings settings (Evaluator.ofDepth settings depth)
      (Evaluator.watched P other settings depth) := by
    refine (sound hs).watched (fun hp ↦ ?_) other depth
    rw [hp.1]
    exact hP _ hp.2
  exact (outcome_of_ends ((soundLoop hs).program hparts program ⟨rfl, reaches_initial⟩ rfl)).1

end Correspondence.Unfolding

/-- A trace that shows what there is on a machine. -/
structure Trace.Shows (t : Trace) (m : Machine Journal) : Prop where
  steps : t.steps = m.journal.steps
  finalState : t.finalState = some m.state

open Correspondence.Unfolding in
/-- The trace of a run shows the machine that it left, a fault said at the end included. -/
theorem Trace.exists_shows {settings : Settings} (hs : settings.names = .ofScopes) {depth : Nat} {program : Program}
    {t : Trace} (ht : t ∈ Trace.ofProgram? settings depth program) :
    ∃ n, t.Shows n ∧ Machine.initial.Reaches n ∧ (after (settings.run depth program)).Leads n := by
  have hreaches := (outcome_run hs depth program).reaches
  rw [Trace.ofProgram?_eq, Option.mem_def] at ht
  generalize settings.run depth program = r at hreaches ht
  cases r with
  | ok _ m =>
    cases ht
    exact ⟨m, ⟨rfl, rfl⟩, hreaches, .refl m⟩
  | error stop m =>
    cases stop with
    | returned v =>
      cases ht
      exact ⟨m, ⟨rfl, rfl⟩, hreaches, .refl m⟩
    | fault f =>
      cases ht
      have hm : Machine.initial.Reaches m := hreaches
      have hknown : ∀ v ∈ [Value.string f.report], m.state.Knows v := by
        intro v hv
        obtain rfl := List.mem_singleton.mp hv
        trivial
      have hsays := State.Edit.prints .error hknown
      have hleads := Machine.leads_of_edit hsays
      exact ⟨_, ⟨rfl, rfl⟩, hm.step hleads ⟨hm.grounded.opened, hm.grounded.known⟩, hleads⟩
    | exhausted => cases ht

end Stepwise
