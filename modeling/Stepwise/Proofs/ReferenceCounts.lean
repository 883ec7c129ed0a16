import Stepwise.Proofs.CeilingExtension
import Stepwise.Proofs.Run.Counting
import Mathlib
/-!
The references counted in the heap are at least as many as the places that hold one: variables of open and of
captured scopes, elements and fields of what is stored, and values of promises. The one thing that goes
uncounted is a copy that a loop makes of its variables for the next iteration, where a function keeps the scope
that they are copied from.
-/

namespace Stepwise

/-- At every step and at the end no reference goes uncounted. -/
structure Trace.Covered (t : Trace) : Prop where
  steps : ∀ step ∈ t.steps, step.snapshot.Covered
  finalState : ∀ s ∈ t.finalState, s.Covered

/-- No scope of a loop that a function captured ever binds a stored array or object in a run: it makes no
difference to stop the run where one would. -/
def Settings.Shelters (settings : Settings) (depth : Nat) (program : Program) : Prop :=
  { settings with names := settings.names.keeping State.sheltered }.run depth program = settings.run depth program

namespace Machine

theorem counted_initial : initial.Counted := by
  have htallied : initial.state.Tallied initial.state.bound := by
    rw [initial_state]
    exact ⟨fun _ _ h ↦ (nomatch h), fun _ _ ↦ rfl, List.forall_mem_nil _, List.forall_mem_nil _, List.forall_mem_nil _⟩
  refine ⟨⟨⟨List.cons_ne_nil _ _, List.Subset.refl _⟩, List.nodup_singleton 1, List.nil_subset _, ?_, ?_, htallied⟩, rfl,
    List.forall_mem_nil _⟩
  · exact List.forall_mem_singleton.mpr (Nat.le_refl 1)
  · exact List.forall_mem_singleton.mpr (List.forall_mem_nil _)

variable {m : Machine Journal}

theorem Counted.covered (h : m.Counted) (error : Option Message) : (Trace.ofMachine m error).Covered where
  steps := h.steps
  finalState s hs := by
    cases hs
    exact h.state.covered

/-- The report of a fault goes to the console, where no reference is counted. -/
theorem Counted.covered_ofFault (h : m.Counted) (fault : Fault) : (Trace.ofFault m fault).Covered where
  steps := h.steps
  finalState s hs := by
    cases hs
    exact h.state.covered

end Machine

/-- Runs that stop before a captured scope of a loop would bind a stored array or object keep count. -/
theorem Settings.counted_run (settings : Settings) (hs : settings.names = .keeping State.sheltered .ofScopes) (depth : Nat)
    (program : Program) : (after (settings.run depth program)).Counted := by
  have hinitial : Correspondence.counting.holds (.initial, .initial) := ⟨rfl, Machine.counted_initial⟩
  have hrun := (Correspondence.Counting.soundRun hs).program depth program hinitial rfl
  change Correspondence.counting.Ends _ _ _ (settings.run depth program) (settings.run depth program) at hrun
  generalize settings.run depth program = r at hrun
  cases hrun with
  | ok hq _ _ => exact hq.2
  | error hq _ _ => exact hq.2

/-- References are never undercounted in a run whose captured loop scopes bind no stored array or object. -/
theorem ofProgram?_covered {ceiling : Int} {prunes : Bool} {depth : Nat} {program : Program}
    (h : Settings.Shelters { ceiling, prunes } depth program) :
    ∀ t ∈ Trace.ofProgram? { ceiling, prunes } depth program, t.Covered := by
  intro t ht
  let guarded : Settings := { ceiling, prunes, names := .keeping State.sheltered .ofScopes }
  have hcounted := guarded.counted_run rfl depth program
  have hrun : guarded.run depth program = Settings.run { ceiling, prunes } depth program := h
  rw [hrun] at hcounted
  rw [Trace.ofProgram?_eq, Option.mem_def] at ht
  generalize Settings.run { ceiling, prunes } depth program = r at hcounted ht
  cases r with
  | ok _ m =>
    cases ht
    exact hcounted.covered none
  | error stop m =>
    cases stop with
    | returned v =>
      cases ht
      exact hcounted.covered none
    | fault f =>
      cases ht
      exact hcounted.covered_ofFault f
    | exhausted => cases ht

/-- Two iterations of a loop, and a function that captures the scope of the loop in each. -/
def capturedLoop (initial : Expr) : Program where
  hoisted := []
  statements :=
    let declare (names : List (String × Expr)) : Stmt :=
      .declaration .blockScoped (names.map fun (name, value) ↦ ⟨.name name, some value⟩) .unknown
    let assign (name : String) (value : Expr) : Expr := .assign (.name name) value
    let capture : Expr := .function none [] (.expression (.identifier "o")) 1
    [declare [("f", .null), ("last", .array [])],
     .loop (.declaration true (declare [("o", initial), ("again", .boolean true)]))
       (some (.identifier "again")) (some (assign "again" (.unary .not (.identifier "last"))))
       (.block [.expression (some (assign "last" (.identifier "f"))) .unknown,
         .expression (some (assign "f" capture)) .unknown])]

theorem shelters_capturedLoop : Settings.Shelters { ceiling := 9, prunes := true } 9 (capturedLoop .null) := by
  unfold Settings.Shelters
  cbv

theorem covered_capturedLoop : Settings.Shelters { ceiling := 9, prunes := true } 9 (capturedLoop .null) ∧
    (Trace.ofProgram? { ceiling := 9, prunes := true } 9 (capturedLoop .null)).isSome = true ∧
    ∀ t ∈ Trace.ofProgram? { ceiling := 9, prunes := true } 9 (capturedLoop .null), t.Covered :=
  ⟨shelters_capturedLoop, by decide +kernel, ofProgram?_covered shelters_capturedLoop⟩

/-- An array in the place of a plain value is bound in two scopes in the end and counted once. -/
theorem not_covered_capturedLoop :
    ∃ t ∈ Trace.ofProgram? { ceiling := 9, prunes := true } 9 (capturedLoop (.array [])), ¬t.Covered := by
  have hcounts : ((Trace.ofProgram? { ceiling := 9, prunes := true } 9 (capturedLoop (.array []))).any fun t ↦
      t.finalState.any fun s ↦ s.heap.references? (.array 4) = some 1 && s.places (.array 4) = 2) = true := by
    decide +kernel
  obtain ⟨t, ht, hfinal⟩ := (Option.any_eq_true ..).mp hcounts
  obtain ⟨s, hs, hcounts⟩ := (Option.any_eq_true ..).mp hfinal
  simp only [Bool.and_eq_true, decide_eq_true_eq] at hcounts
  refine ⟨t, ht, fun hcovered ↦ ?_⟩
  have hle := hcovered.finalState s hs (.array 4) 1 hcounts.1
  omega

end Stepwise
