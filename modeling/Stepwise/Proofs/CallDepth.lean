import Stepwise.Proofs.CeilingExtension
import Stepwise.Proofs.Run.Framing
/-!
At every step of a run the calls in progress and the open scopes correspond, however deep calls, blocks and loops
are nested, in a task and outside of tasks.
-/

namespace Stepwise

theorem Machine.founded_initial : initial.Founded := by
  refine ⟨?_, List.forall_mem_nil _⟩
  rw [initial_state]
  exact ⟨.global rfl, List.nodup_singleton 1, List.forall_mem_singleton.mpr (Nat.le_refl 1)⟩

theorem Settings.founded_run (settings : Settings) (hs : settings.names = .ofScopes) (depth : Nat) (program : Program) :
    (after (settings.run depth program)).Founded := by
  have hinitial : Correspondence.framing.holds (.initial, .initial) := ⟨rfl, Machine.founded_initial⟩
  have hrun := (Correspondence.Framing.soundRun hs).program depth program hinitial rfl
  change Correspondence.framing.Ends _ _ _ (settings.run depth program) (settings.run depth program) at hrun
  generalize settings.run depth program = r at hrun
  cases hrun with
  | ok hq _ _ => exact hq.2
  | error hq _ _ => exact hq.2

theorem ofProgram?_framed (ceiling : Int) (prunes : Bool) (depth : Nat) (program : Program) :
    ∀ t ∈ Trace.ofProgram? { ceiling, prunes } depth program, ∀ step ∈ t.steps, step.snapshot.Framed := by
  intro t ht
  have hfounded := Settings.founded_run { ceiling, prunes } rfl depth program
  rw [Trace.ofProgram?_eq, Option.mem_def] at ht
  generalize Settings.run { ceiling, prunes } depth program = r at hfounded ht
  cases r with
  | ok _ m =>
    cases ht
    exact hfounded.steps
  | error stop m =>
    cases stop with
    | returned v =>
      cases ht
      exact hfounded.steps
    | fault f =>
      cases ht
      exact hfounded.steps
    | exhausted => cases ht

/-- A timer calls a function that calls another one from inside of a loop, which fails in a block. -/
def nestedCalls : Program where
  hoisted := []
  statements :=
    let call (name : String) (arguments : List Expr) : Stmt :=
      .expression (some (.call (.identifier name) arguments .unknown)) .unknown
    let declare (name : String) (value : Expr) : Stmt :=
      .declaration .blockScoped [⟨.name name, some value⟩] .unknown
    let loop : Stmt := .loop (.declaration true (declare "again" (.boolean true))) (some (.identifier "again")) none
      (.block [call "inner" []])
    [.function "inner" [] (.block [] [.block [declare "x" .null, call "missing" []]]) .unknown,
      .function "outer" [] (.block [] [loop]) .unknown, call "setTimeout" [.identifier "outer"]]

/-- Of the six scopes that are open at once two are those of the calls and three are blocks. -/
theorem framed_nestedCalls : ∃ t ∈ Trace.ofProgram? { ceiling := 9, prunes := true } 12 nestedCalls,
    (∃ step ∈ t.steps, step.snapshot.frames.map (·.depth) = [4, 1] ∧ step.snapshot.chain.length = 6) ∧
    ∀ step ∈ t.steps, step.snapshot.Framed := by
  have hrun : ((Trace.ofProgram? { ceiling := 9, prunes := true } 12 nestedCalls).any fun t ↦ t.steps.any fun step ↦
      step.snapshot.frames.map (·.depth) = [4, 1] ∧ step.snapshot.chain.length = 6) = true := by decide +kernel
  obtain ⟨t, ht, hsteps⟩ := (Option.any_eq_true ..).mp hrun
  obtain ⟨step, hstep, hlengths⟩ := List.any_eq_true.mp hsteps
  exact ⟨t, ht, ⟨step, hstep, of_decide_eq_true hlengths⟩, ofProgram?_framed 9 true 12 nestedCalls t ht⟩

end Stepwise
