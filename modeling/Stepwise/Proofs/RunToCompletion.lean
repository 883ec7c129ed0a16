import Stepwise.Proofs.EventLoop.Extension
import Stepwise.Proofs.Run.Calling
import Stepwise.Proofs.Run.Conduct
/-!
Run to completion. Whatever a run evaluates, at the top level or in a task, only puts tasks at the
ends of the queues: nothing is carried out before the top level has come to its end, and then one
task at a time is carried out as a whole.
-/

namespace Stepwise

/-- Work is put off and none of it is carried out, nor does a step show anything else. -/
structure Machine.Defers (m n : Machine Journal) : Prop where
  loop : m.state.loop.Extends n.state.loop
  steps : ∃ new, n.journal.steps = m.journal.steps ++ new ∧ ∀ step ∈ new, m.state.loop.Extends step.snapshot.loop

namespace Machine.Defers

variable {l m n : Machine Journal}

theorem of_state {t : State} (h : m.state.loop.Extends t.loop) : m.Defers { m with state := t } :=
  ⟨h, [], (List.append_nil _).symm, fun _ h ↦ absurd h List.not_mem_nil⟩

theorem trans (h : l.Defers m) (h' : m.Defers n) : l.Defers n := by
  obtain ⟨new, hm, hnew⟩ := h.steps
  obtain ⟨new', hn, hnew'⟩ := h'.steps
  refine ⟨h.loop.trans h'.loop, new ++ new', ?_, fun step hstep ↦ ?_⟩
  · rw [hn, hm, List.append_assoc]
  · exact (List.mem_append.mp hstep).elim (hnew step) fun hstep ↦ h.loop.trans (hnew' step hstep)

end Machine.Defers

theorem Engine.Extending.follows {α : Type} {x : Engine α} (h : Extending x) :
    Machine.Follows Machine.Defers Machine.Defers x := .of_after id fun m ↦ .of_state (h m.state)

theorem Machine.defers_record (line column : Int) (description : Text) (m : Machine Journal) :
    m.Defers (after (Eval.record line column description m)) :=
  ⟨.refl m.state.loop, [_], rfl, List.forall_mem_singleton.mpr (.refl m.state.loop)⟩

open Engine in
theorem habit_defers : Habit Machine.Defers Machine.Defers where
  refl m := .of_state (.refl m.state.loop)
  trans := .trans
  weaken := id
  trans_weak := .trans
  apart h := .of_state (by rw [h.loop]; exact .refl _)
  record line column description _ := Machine.defers_record line column description
  report _ _ m := ⟨.refl m.state.loop, [], (List.append_nil _).symm, fun _ h ↦ absurd h List.not_mem_nil⟩
  timer f arguments line := (extending_schedule .macrotask _ (.call f arguments) line).follows
  fetch url line := (extending_fetch url line).follows
  all vs := (extending_all vs).follows
  race vs := (extending_race vs).follows
  chain address handler := (extending_chain address handler).follows

namespace Correspondence.Conducting

open Evaluator Eval

variable {R : Machine Journal → Machine Journal → Prop} (hR : Habit R R) {settings : Settings}
include hR

theorem topLevel (hs : settings.names = .ofScopes) (depth : Nat) (program : Program) :
    Conducts R ((ofDepth settings depth).topLevel program) :=
  have hsound := sound hR hs
  conducts fun _ hp ↦ hsound.topLevel (hsound.parts depth) program hp

/-- What a task does keeps to a habit of all operations that put off work. -/
theorem job (hwork : ∀ {α : Type} {x : Engine α}, Engine.Extending x → Machine.Follows R R x)
    (hs : settings.names = .ofScopes) (depth : Nat) (line : Int) (job : Job) :
    Conducts R ((ofDepth settings depth).job line job) := by
  have hcall (f : Function) (arguments : List Value) (line : Int) (name : String) :
      Conducts R ((ofDepth settings depth).call f arguments line name) :=
    conducts fun _ hp ↦ ((sound hR hs).parts depth).call f arguments line name hp trivial fun _ _ ↦ trivial
  exact Conducts.job hR.sequential hcall (fun address url ↦ .of_follows (hwork (Engine.extending_completeFetch address url)))
    (fun derived v ↦ .of_follows (hwork (Engine.extending_conclude derived v)))
    (fun aggregate index v ↦ .of_follows (hwork (Engine.extending_gather aggregate index v)))
    (fun target v ↦ .of_follows (hwork (Engine.extending_settle target v))) line job

end Correspondence.Conducting

namespace Evaluator

open Eval Machine Correspondence Correspondence.Conducting

variable {settings : Settings} (hs : settings.names = .ofScopes) (depth : Nat)
include hs

theorem conducts_expr (e : Expr) : Conducts Defers ((ofDepth settings depth).expr e) :=
  conducts fun _ hp ↦ ((sound habit_defers hs).parts depth).expr e hp

theorem conducts_stmt (x : Stmt) : Conducts Defers ((ofDepth settings depth).stmt x) :=
  conducts fun _ hp ↦ ((sound habit_defers hs).parts depth).stmt x hp

theorem conducts_loop (perIteration : Bool) (condition update : Option Expr) (body : Stmt) :
    Conducts Defers ((ofDepth settings depth).loop perIteration condition update body) :=
  conducts fun _ hp ↦ ((sound habit_defers hs).parts depth).loop perIteration condition update body hp fun _ ↦ trivial

theorem conducts_call (f : Function) (arguments : List Value) (line : Int) (name : String) :
    Conducts Defers ((ofDepth settings depth).call f arguments line name) :=
  conducts fun _ hp ↦ ((sound habit_defers hs).parts depth).call f arguments line name hp trivial fun _ _ ↦ trivial

theorem conducts_topLevel (program : Program) : Conducts Defers ((ofDepth settings depth).topLevel program) :=
  Conducting.topLevel habit_defers hs depth program

theorem conducts_job (line : Int) (x : Job) : Conducts Defers ((ofDepth settings depth).job line x) :=
  Conducting.job habit_defers Engine.Extending.follows hs depth line x

theorem conducts_task (task : Task) : Conducts Defers ((ofDepth settings depth).task settings task) := by
  have hrecord : Conducts Defers (Eval.record task.line 0 task.title) := defers_record _ _ _
  exact hrecord.bind habit_defers.sequential fun _ ↦ (conducts_job hs depth task.line task.job).bind habit_defers.sequential fun _ ↦
    .prune habit_defers settings

/-- So the tasks of a run are among those whose conservation a drain promises. -/
theorem enqueues_task : Activity.Enqueues ((ofDepth settings depth).task settings) where
  queues task m := (conducts_task hs depth task m).loop.queues
  executed task m := (conducts_task hs depth task m).loop.executed

end Evaluator

/-- Steps of tasks that are carried out one behind the other. While the number of tasks carried out
stays the same, so does the task that is current. -/
structure Turns (executed : Nat) (steps : List Step) : Prop where
  current : ∀ step ∈ steps, ∃ task, step.snapshot.loop.current = some task
  executed_le : ∀ step ∈ steps, executed ≤ step.snapshot.loop.executed
  inTurn : steps.Pairwise fun a b ↦ a.snapshot.loop.executed < b.snapshot.loop.executed ∨
    a.snapshot.loop.executed = b.snapshot.loop.executed ∧ a.snapshot.loop.current = b.snapshot.loop.current

namespace Turns

theorem nil (executed : Nat) : Turns executed [] :=
  ⟨fun _ h ↦ absurd h List.not_mem_nil, fun _ h ↦ absurd h List.not_mem_nil, .nil⟩

theorem of_task {executed : Nat} {task : Task} {steps : List Step}
    (h : ∀ step ∈ steps, step.snapshot.loop.current = some task ∧ step.snapshot.loop.executed = executed) :
    Turns executed steps := by
  refine ⟨fun step hstep ↦ ⟨task, (h step hstep).1⟩, fun step hstep ↦ (h step hstep).2.ge, ?_⟩
  refine List.pairwise_of_forall_mem_list fun a ha b hb ↦ .inr ⟨?_, ?_⟩
  · rw [(h a ha).2, (h b hb).2]
  · rw [(h a ha).1, (h b hb).1]

/-- The steps of one task, and those of the tasks that are carried out behind it. -/
theorem append {executed : Nat} {task : Task} {steps more : List Step}
    (h : ∀ step ∈ steps, step.snapshot.loop.current = some task ∧ step.snapshot.loop.executed = executed)
    (hmore : Turns (executed + 1) more) : Turns executed (steps ++ more) := by
  have hsteps := of_task h
  refine ⟨fun step hstep ↦ (List.mem_append.mp hstep).elim (hsteps.current step) (hmore.current step),
    fun step hstep ↦ (List.mem_append.mp hstep).elim (hsteps.executed_le step) fun hstep ↦ ?_,
    List.pairwise_append.mpr ⟨hsteps.inTurn, hmore.inTurn, fun a ha b hb ↦ .inl ?_⟩⟩
  · exact (Nat.le_succ _).trans (hmore.executed_le step hstep)
  · rw [(h a ha).2]
    exact hmore.executed_le b hb

end Turns

namespace Activity

variable {ω : Type} {execute : Task → Activity ω Unit}

theorem runTask_apply (task : Task) (m : Machine ω) : runTask execute task m =
    match execute task (running m task) with
    | .ok _ n => .ok () (n.withLoop { n.state.loop with current := none, executed := n.state.loop.executed + 1 })
    | .error stop n => .error stop (n.withLoop { n.state.loop with current := none }) := by
  have hbody : runTask execute task m =
      (closing (execute task) (Engine.modifyLoop fun loop ↦ { loop with current := none }) >>= fun _ ↦
        modifyLoop fun loop ↦ { loop with executed := loop.executed + 1 }) (running m task) := rfl
  rw [hbody, bind_apply]
  unfold closing
  cases execute task (running m task) <;> rfl

/-- Tasks of which each defers all work take their turns one behind the other. -/
theorem turns_plain {execute : Task → Eval Unit} (he : ∀ task, Eval.Conducts Machine.Defers (execute task)) (k : Nat)
    (m : Machine Journal) : ∃ new, (after (plain execute k m)).journal.steps = m.journal.steps ++ new ∧
      Turns m.state.loop.executed new := by
  induction k generalizing m with
  | zero => exact ⟨[], (List.append_nil _).symm, .nil _⟩
  | succ k ih =>
    cases hnext : m.state.loop.next? with
    | none =>
      rw [plain_succ_of_none hnext]
      exact ⟨[], (List.append_nil _).symm, .nil _⟩
    | some taken =>
      obtain ⟨task, rest⟩ := taken
      obtain ⟨hloop, steps, hsteps, hnew⟩ := he task (running (m.withLoop rest) task)
      have hrest : rest.executed = m.state.loop.executed := by
        unfold EventLoop.next? at hnext
        split at hnext <;> cases hnext <;> rfl
      have htask : ∀ step ∈ steps, step.snapshot.loop.current = some task ∧
          step.snapshot.loop.executed = m.state.loop.executed := fun step hstep ↦
        ⟨(hnew step hstep).current, (hnew step hstep).executed.trans hrest⟩
      rw [plain_succ_of_some hnext, bind_apply, runTask_apply]
      cases hr : execute task (running (m.withLoop rest) task) with
      | error stop n =>
        rw [hr] at hsteps
        exact ⟨steps, hsteps, .of_task htask⟩
      | ok _ n =>
        rw [hr] at hloop hsteps
        obtain ⟨more, hmore, hturns⟩ :=
          ih (n.withLoop { n.state.loop with current := none, executed := n.state.loop.executed + 1 })
        have hexecuted : n.state.loop.executed = m.state.loop.executed := hloop.executed.trans hrest
        refine ⟨steps ++ more, ?_, .append htask (hexecuted ▸ hturns)⟩
        rw [← List.append_assoc]
        exact hmore.trans (congrArg (· ++ more) hsteps)

end Activity

open Activity Evaluator

/-- What it means for a run that everything is completed before anything else begins. -/
structure RunsToCompletion (settings : Settings) (depth : Nat) (program : Program) : Prop where
  expr : ∀ e (m : Machine Journal), m.Defers (after ((ofDepth settings depth).expr e m))
  stmt : ∀ x (m : Machine Journal), m.Defers (after ((ofDepth settings depth).stmt x m))
  loop : ∀ perIteration condition update body (m : Machine Journal),
    m.Defers (after ((ofDepth settings depth).loop perIteration condition update body m))
  call : ∀ f arguments line name (m : Machine Journal),
    m.Defers (after ((ofDepth settings depth).call f arguments line name m))
  topLevel : ∀ m : Machine Journal, m.Defers (after ((ofDepth settings depth).topLevel program m))
  task : ∀ t (m : Machine Journal), m.Defers (after ((ofDepth settings depth).task settings t m))
  /-- no function is called but by a call expression -/
  confined : ∀ call, Evaluator.confined call settings depth = ofDepth settings depth
  confinedTop : ∀ call, ((ofDepth settings depth).calling call).topLevel program =
    (ofDepth settings depth).topLevel program
  /-- a run is its top level and then whole tasks, one behind the other -/
  oneByOne : ∃ count, settings.run depth program = ((ofDepth settings depth).topLevel program >>= fun _ ↦
    plain ((ofDepth settings depth).task settings) count >>= fun _ ↦ finish >>= fun _ ↦ Eval.prune settings) .initial
  /-- all steps of the top level come before those of the tasks, and these come task by task -/
  steps : ∃ deferred, (after (settings.run depth program)).journal.steps =
      (after ((ofDepth settings depth).topLevel program .initial)).journal.steps ++ deferred ∧
    (∀ step ∈ (after ((ofDepth settings depth).topLevel program .initial)).journal.steps,
      step.snapshot.loop.current = none ∧ step.snapshot.loop.executed = 0) ∧ Turns 0 deferred

/-- What comes behind the tasks of a run notes down no step. -/
theorem steps_finish (settings : Settings) (x : Eval Unit) (m : Machine Journal) :
    (after ((x >>= fun _ ↦ finish >>= fun _ ↦ Eval.prune settings) m)).journal.steps = (after (x m)).journal.steps := by
  rw [bind_apply]
  cases x m with
  | error stop n => rfl
  | ok _ n =>
    change (after (Eval.prune settings _)).journal.steps = _
    rw [Eval.prune_apply]
    cases settings.prunes <;> rfl

/-- The steps of what is done first, and then those of tasks one behind the other. -/
theorem exists_steps (settings : Settings) {top : Eval Unit} {tasks : Task → Eval Unit}
    (htop : Eval.Conducts Machine.Defers top) (htasks : ∀ task, Eval.Conducts Machine.Defers (tasks task)) (count : Nat)
    {m : Machine Journal} (hm : m.journal.steps = []) :
    ∃ deferred, (after ((top >>= fun _ ↦ plain tasks count >>= fun _ ↦ finish >>= fun _ ↦
        Eval.prune settings) m)).journal.steps = (after (top m)).journal.steps ++ deferred ∧
      (∀ step ∈ (after (top m)).journal.steps, step.snapshot.loop.current = m.state.loop.current ∧
        step.snapshot.loop.executed = m.state.loop.executed) ∧ Turns m.state.loop.executed deferred := by
  obtain ⟨hloop, new, hnew, hsteps⟩ := htop m
  have hfirst : ∀ step ∈ (after (top m)).journal.steps, step.snapshot.loop.current = m.state.loop.current ∧
      step.snapshot.loop.executed = m.state.loop.executed := fun step hstep ↦ by
    rw [hnew, hm, List.nil_append] at hstep
    exact ⟨(hsteps step hstep).current, (hsteps step hstep).executed⟩
  rw [bind_apply]
  cases hr : top m with
  | error stop n =>
    rw [hr] at hfirst
    exact ⟨[], (List.append_nil _).symm, hfirst, .nil _⟩
  | ok _ n =>
    rw [hr] at hfirst hloop
    obtain ⟨deferred, hdeferred, hturns⟩ := turns_plain htasks count n
    exact ⟨deferred, (steps_finish settings _ n).trans hdeferred, hfirst, hloop.executed ▸ hturns⟩

theorem exists_oneByOne (settings : Settings) (depth : Nat) (program : Program) : ∃ count,
    settings.run depth program = ((ofDepth settings depth).topLevel program >>= fun _ ↦
      plain ((ofDepth settings depth).task settings) count >>= fun _ ↦ finish >>= fun _ ↦
        Eval.prune settings) .initial := by
  have hbody : settings.run depth program = ((ofDepth settings depth).topLevel program >>= fun _ ↦
      drain settings.ceiling ((ofDepth settings depth).task settings) >>= fun _ ↦ Eval.prune settings) .initial := rfl
  rw [hbody, bind_apply]
  cases hr : (ofDepth settings depth).topLevel program .initial with
  | error stop n => exact ⟨0, by rw [bind_apply, hr]⟩
  | ok _ n =>
    obtain ⟨count, hcount⟩ := exists_drain_eq_plain settings.ceiling ((ofDepth settings depth).task settings) n
    refine ⟨count, ?_⟩
    dsimp only
    rw [bind_apply, bind_apply _ _ Machine.initial, hr, hcount, ← bind_apply, bind_assoc]

/-- Runs of all programs run everything to completion. -/
theorem runsToCompletion (ceiling : Int) (prunes : Bool) (depth : Nat) (program : Program) :
    RunsToCompletion { ceiling, prunes } depth program := by
  have hs : Settings.names { ceiling, prunes } = .ofScopes := rfl
  have htop := conducts_topLevel hs depth program
  have htasks := conducts_task hs depth
  have hrun := exists_oneByOne { ceiling, prunes } depth program
  refine ⟨conducts_expr hs depth, conducts_stmt hs depth, conducts_loop hs depth, conducts_call hs depth, htop, htasks,
    fun call ↦ confined_eq call _ depth, fun call ↦ topLevel_calling _ call program, hrun, ?_⟩
  obtain ⟨count, hcount⟩ := hrun
  rw [hcount]
  exact exists_steps { ceiling, prunes } htop htasks count rfl

end Stepwise
