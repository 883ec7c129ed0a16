import Stepwise.Proofs.CleanEnd
/-!
The steps of a run tell which tasks it carried out. Each task that is taken from its queue announces itself by a step
of its own, and up to the next such step every snapshot shows it as the current task.
-/

namespace Stepwise

open Activity Evaluator

/-- Steps are noted down none of which announces a task. -/
def Machine.Untitled (m n : Machine Journal) : Prop :=
  ∃ new, n.journal.steps = m.journal.steps ++ new ∧ ∀ step ∈ new, step.description.isTitle = false

namespace Machine.Untitled

variable {l m n : Machine Journal}

theorem of_steps_eq (h : n.journal.steps = m.journal.steps) : m.Untitled n :=
  ⟨[], h.trans (List.append_nil _).symm, List.forall_mem_nil _⟩

theorem trans (h : l.Untitled m) (h' : m.Untitled n) : l.Untitled n := by
  obtain ⟨new, hm, hnew⟩ := h
  obtain ⟨new', hn, hnew'⟩ := h'
  exact ⟨new ++ new', by rw [hn, hm, List.append_assoc], List.forall_mem_append.mpr ⟨hnew, hnew'⟩⟩

theorem follows {α : Type} (x : Engine α) : Follows Untitled Untitled x :=
  ⟨fun _ _ _ _ ↦ of_steps_eq rfl, fun _ _ _ _ ↦ of_steps_eq rfl⟩

end Machine.Untitled

open Machine in
theorem habit_untitled : Habit Untitled Untitled where
  refl _ := .of_steps_eq rfl
  trans := .trans
  weaken := id
  trans_weak := .trans
  apart _ := .of_steps_eq rfl
  record _ _ _ htitle _ := ⟨[_], rfl, List.forall_mem_singleton.mpr htitle⟩
  report _ _ _ := .of_steps_eq rfl
  timer _ _ _ := Untitled.follows _
  fetch _ _ := Untitled.follows _
  all _ := Untitled.follows _
  race _ := Untitled.follows _
  chain _ _ := Untitled.follows _

/-- A task with the steps noted down while it was carried out, the one that announces it first. -/
structure Stint where
  task : Task
  first : Step
  others : List Step

namespace Stint

def steps (stint : Stint) : List Step := stint.first :: stint.others

/-- The first step and no other one announces the task, and all of them are taken while it is the current one. -/
structure Announced (stint : Stint) : Prop where
  line : stint.first.line = stint.task.line
  title : stint.first.description = stint.task.title
  others : ∀ step ∈ stint.others, step.description.isTitle = false
  current : ∀ step ∈ stint.steps, step.snapshot.loop.current = some stint.task

theorem Announced.filter_steps {stint : Stint} (h : stint.Announced) :
    stint.steps.filter (·.description.isTitle) = [stint.first] := by
  have hnone : stint.others.filter (·.description.isTitle) = [] :=
    List.filter_eq_nil_iff.mpr fun step hstep ↦ by simp [h.others step hstep]
  rw [steps, List.filter_cons_of_pos (by rw [h.title]; exact stint.task.isTitle_title), hnone]

theorem filter_flatMap_steps {stints : List Stint} (h : ∀ stint ∈ stints, stint.Announced) :
    (stints.flatMap steps).filter (·.description.isTitle) = stints.map first := by
  induction stints with
  | nil => rfl
  | cons stint stints ih =>
    obtain ⟨hstint, hstints⟩ := List.forall_mem_cons.mp h
    rw [List.flatMap_cons, List.filter_append, hstint.filter_steps, ih hstints, List.map_cons, List.singleton_append]

end Stint

namespace Evaluator

variable {settings : Settings} (hs : settings.names = .ofScopes) (depth : Nat)
include hs

/-- Whatever a task comes to, the steps noted down meanwhile are a stint of it. -/
theorem exists_stint {task : Task} {m : Machine Journal} (hm : m.state.loop.current = some task) :
    ∃ stint : Stint, stint.task = task ∧ stint.Announced ∧
      (after ((ofDepth settings depth).task settings task m)).journal.steps = m.journal.steps ++ stint.steps := by
  let first : Step := .behind m.journal.steps task.line 0 task.title m.state
  let announced : Machine Journal := { m with journal := { m.journal with steps := m.journal.steps ++ [first] } }
  let work : Eval Unit := (ofDepth settings depth).job task.line task.job >>= fun _ ↦ Eval.prune settings
  have htask : (ofDepth settings depth).task settings task m = work announced := rfl
  obtain ⟨others, hothers, huntitled⟩ : announced.Untitled (after (work announced)) :=
    ((Correspondence.Conducting.job habit_untitled (fun _ ↦ Machine.Untitled.follows _) hs depth task.line
      task.job).bind habit_untitled.sequential fun _ ↦ .prune habit_untitled settings) announced
  obtain ⟨-, new, hnew, hloop⟩ : announced.Defers (after (work announced)) :=
    ((conducts_job hs depth task.line task.job).bind habit_defers.sequential fun _ ↦ .prune habit_defers settings) announced
  -- both habits cut off the same steps, those that the work adds
  obtain rfl : others = new := List.append_cancel_left (hothers.symm.trans hnew)
  refine ⟨⟨task, first, others⟩, rfl, ⟨rfl, rfl, huntitled, ?_⟩, ?_⟩
  · exact List.forall_mem_cons.mpr ⟨hm, fun step hstep ↦ (hloop step hstep).current.trans hm⟩
  · rw [htask, hothers]
    exact List.append_assoc _ _ _

end Evaluator

namespace Activity

/-- Of tasks that are carried out one behind the other each has a stint, in the same order. -/
theorem exists_stints {execute : Task → Eval Unit} (he : ∀ task (m : Machine Journal),
      m.state.loop.current = some task → ∃ stint : Stint, stint.task = task ∧ stint.Announced ∧
        (after (execute task m)).journal.steps = m.journal.steps ++ stint.steps)
    (k : Nat) (m : Machine (Journal × List Note)) : ∃ stints : List Stint, (∀ stint ∈ stints, stint.Announced) ∧
      (after (plain (noting execute) k m)).journal.1.steps = m.journal.1.steps ++ stints.flatMap Stint.steps ∧
      (after (plain (noting execute) k m)).journal.2.map Note.task =
        m.journal.2.map Note.task ++ stints.map Stint.task := by
  induction k generalizing m with
  | zero => exact ⟨[], List.forall_mem_nil _, (List.append_nil _).symm, (List.append_nil _).symm⟩
  | succ k ih =>
    cases hnext : m.state.loop.next? with
    | none =>
      rw [plain_succ_of_none hnext]
      exact ⟨[], List.forall_mem_nil _, (List.append_nil _).symm, (List.append_nil _).symm⟩
    | some taken =>
      obtain ⟨task, rest⟩ := taken
      obtain ⟨stint, rfl, hstint, hsteps⟩ := he task (running (m.withLoop rest).plainly task) rfl
      rw [plain_succ_of_some hnext, bind_apply, runTask_noting]
      cases hr : execute stint.task (running (m.withLoop rest).plainly stint.task) with
      | error stop n =>
        rw [hr] at hsteps
        refine ⟨[stint], List.forall_mem_singleton.mpr hstint, ?_, List.map_append⟩
        rw [List.flatMap_singleton]
        exact hsteps
      | ok _ n =>
        rw [hr] at hsteps
        dsimp only
        -- the next call starts from the machine that is left behind, with the note and the count of this one
        obtain ⟨stints, hstints, hmore, htasks⟩ := ih ((n.noted (m.journal.2 ++ [⟨stint.task,
          (running (m.withLoop rest) stint.task).state.loop, n.state.loop, true⟩])).withLoop
            { n.state.loop with current := none, executed := n.state.loop.executed + 1 })
        refine ⟨stint :: stints, List.forall_mem_cons.mpr ⟨hstint, hstints⟩, ?_, ?_⟩
        · rw [List.flatMap_cons, ← List.append_assoc]
          exact hmore.trans (congrArg (· ++ _) hsteps)
        · refine htasks.trans ?_
          change List.map Note.task (m.journal.2 ++ [_]) ++ _ = _
          rw [List.map_append, List.append_assoc]
          rfl

/-- What a drain notes down beside its calls. -/
theorem Drained.journal {execute : Task → Eval Unit} {ceiling : Int} {m : Machine Journal}
    (h : Drained execute ceiling m) :
    (after (plain (noting execute) (calls execute ceiling m).length (m.noted []))).journal =
      ((after (drain ceiling execute m)).journal, calls execute ceiling m) := by
  have hplainly : (after (notedDrain execute ceiling m)).journal =
      (after (plain (noting execute) (calls execute ceiling m).length (m.noted []))).journal := by
    rw [h.plainly]
    exact journal_finish _ _
  rw [← hplainly, ← h.watched]
  unfold calls
  cases notedDrain execute ceiling m <;> rfl

/-- Forgetting scopes in the end changes neither what was noted down nor the queues. -/
theorem after_bind_prune {α : Type} (settings : Settings) (x : Eval α) (m : Machine Journal) :
    (after ((x >>= fun _ ↦ Eval.prune settings) m)).journal = (after (x m)).journal ∧
      (after ((x >>= fun _ ↦ Eval.prune settings) m)).state.loop = (after (x m)).state.loop := by
  rw [bind_apply]
  cases x m with
  | error stop n => exact ⟨rfl, rfl⟩
  | ok _ n =>
    dsimp only
    rw [Eval.prune_apply]
    cases settings.prunes <;> exact ⟨rfl, rfl⟩

end Activity

/-- The calls that the event loop makes in a run, each with the task that was taken from its queue for it. -/
def Settings.calls (settings : Settings) (depth : Nat) (program : Program) : List Note :=
  match (ofDepth settings depth).topLevel program .initial with
  | .ok _ start => Activity.calls ((ofDepth settings depth).task settings) settings.ceiling start
  | .error _ _ => []

/-- A run that ends in a fault, which happened inside of a task. -/
def Settings.FaultsInTask (settings : Settings) (depth : Nat) (program : Program) : Prop :=
  ∃ f m l task rest, settings.run depth program = .error (.fault f) m ∧
    BreaksOff settings depth program l task rest f m

section Run

variable {settings : Settings} (hs : settings.names = .ofScopes) (depth : Nat) (program : Program)

theorem Settings.run_of_start {start : Machine Journal}
    (htop : (ofDepth settings depth).topLevel program .initial = .ok () start) : settings.run depth program =
      (drain settings.ceiling ((ofDepth settings depth).task settings) >>= fun _ ↦ Eval.prune settings) start := by
  have hbody : settings.run depth program = ((ofDepth settings depth).topLevel program >>= fun _ ↦
      drain settings.ceiling ((ofDepth settings depth).task settings) >>= fun _ ↦ Eval.prune settings) .initial := rfl
  rw [hbody, bind_apply, htop]

theorem Settings.calls_of_start {start : Machine Journal}
    (htop : (ofDepth settings depth).topLevel program .initial = .ok () start) : settings.calls depth program =
      Activity.calls ((ofDepth settings depth).task settings) settings.ceiling start := by
  unfold calls
  rw [htop]

theorem Settings.run_of_stop {stop : Stop} {m : Machine Journal}
    (htop : (ofDepth settings depth).topLevel program .initial = .error stop m) :
    settings.run depth program = .error stop m := by
  change ((ofDepth settings depth).topLevel program >>= fun _ ↦ _) Machine.initial = _
  rw [bind_apply, htop]

theorem Settings.calls_of_stop {stop : Stop} {m : Machine Journal}
    (htop : (ofDepth settings depth).topLevel program .initial = .error stop m) :
    settings.calls depth program = [] := by
  unfold calls
  rw [htop]

include hs

/-- The drain behind the top level, which has put every task into the queue of its kind. -/
theorem drained_of_start {start : Machine Journal}
    (htop : (ofDepth settings depth).topLevel program .initial = .ok () start) :
    Drained ((ofDepth settings depth).task settings) settings.ceiling start ∧ start.state.loop.executed = 0 := by
  have hloop := (conducts_topLevel hs depth program .initial).loop
  rw [htop] at hloop
  refine ⟨drained (enqueues_task hs depth) settings.ceiling start fun kind ↦ ?_, hloop.executed⟩
  obtain ⟨new, hnew, hkind⟩ := hloop.queues kind
  have hqueue : start.state.loop.queue kind = new := by
    refine hnew.trans ?_
    cases kind <;> rfl
  rw [hqueue]
  exact hkind

theorem steps_topLevel : ∀ step ∈ (after ((ofDepth settings depth).topLevel program .initial)).journal.steps,
    step.snapshot.loop.current = none ∧ step.description.isTitle = false := by
  obtain ⟨-, new, hnew, hloop⟩ := conducts_topLevel hs depth program .initial
  obtain ⟨new', hnew', htitle⟩ := Correspondence.Conducting.topLevel habit_untitled hs depth program .initial
  obtain rfl : new = new' := List.append_cancel_left (hnew.symm.trans hnew')
  intro step hstep
  rw [hnew] at hstep
  exact ⟨(hloop step hstep).current, htitle step hstep⟩

/-- The steps of a run: those of the top level, and then the stints of the tasks in the order of their calls. -/
theorem exists_stints_run : ∃ (top : List Step) (stints : List Stint),
    (after (settings.run depth program)).journal.steps = top ++ stints.flatMap Stint.steps ∧
    (∀ step ∈ top, step.snapshot.loop.current = none ∧ step.description.isTitle = false) ∧
    (∀ stint ∈ stints, stint.Announced) ∧ stints.map Stint.task = (settings.calls depth program).map Note.task := by
  have hsteps := steps_topLevel hs depth program
  cases htop : (ofDepth settings depth).topLevel program .initial with
  | error stop m =>
    rw [htop] at hsteps
    rw [Settings.run_of_stop depth program htop, Settings.calls_of_stop depth program htop]
    exact ⟨m.journal.steps, [], (List.append_nil _).symm, hsteps, List.forall_mem_nil _, rfl⟩
  | ok _ start =>
    obtain ⟨hdrained, -⟩ := drained_of_start hs depth program htop
    obtain ⟨stints, hannounced, hstints, htasks⟩ := exists_stints (fun _ _ ↦ exists_stint hs depth)
      (settings.calls depth program).length (start.noted [])
    rw [htop] at hsteps
    rw [Settings.calls_of_start depth program htop, hdrained.journal] at hstints htasks
    rw [Settings.run_of_start depth program htop, Settings.calls_of_start depth program htop,
      (after_bind_prune _ _ _).1]
    exact ⟨start.journal.steps, stints, hstints, hsteps, hannounced, htasks.symm⟩

/-- Behind the top level all calls count as executed but for one in which the run stops. -/
theorem length_calls {start : Machine Journal}
    (htop : (ofDepth settings depth).topLevel program .initial = .ok () start) :
    (∀ m, settings.run depth program = .ok () m → (settings.calls depth program).length = m.state.loop.executed) ∧
    ∀ stop m, settings.run depth program = .error stop m →
      (settings.calls depth program).length = m.state.loop.executed + 1 := by
  obtain ⟨hdrained, hexecuted⟩ := drained_of_start hs depth program htop
  have hloop := (after_bind_prune settings (drain settings.ceiling ((ofDepth settings depth).task settings)) start).2
  rw [Settings.run_of_start depth program htop, Settings.calls_of_start depth program htop]
  constructor
  · intro m hm
    obtain ⟨truncated, n, hn, -⟩ := bind_eq_ok hm
    rw [hm, hn] at hloop
    obtain ⟨-, -, hcount⟩ := hdrained.ended truncated n hn
    rw [hexecuted, Nat.zero_add] at hcount
    exact hcount.symm.trans (congrArg EventLoop.executed hloop).symm
  · intro stop m hm
    rw [bind_apply] at hm
    cases hr : drain settings.ceiling ((ofDepth settings depth).task settings) start with
    | ok truncated n =>
      rw [hr] at hm
      dsimp only at hm
      rw [Eval.prune_apply] at hm
      cases settings.prunes <;> cases hm
    | error stop' n =>
      rw [hr] at hm
      cases hm
      obtain ⟨earlier, last, hcalls, -, -, -, hcount⟩ := hdrained.stopped stop m hr
      rw [hexecuted, Nat.zero_add] at hcount
      rw [hcalls, List.length_append, hcount, List.length_singleton]

theorem length_calls_of_not_faultsInTask {t : Trace} (ht : t ∈ Trace.ofEnd (settings.run depth program))
    (hfaults : ¬settings.FaultsInTask depth program) :
    (settings.calls depth program).length = (after (settings.run depth program)).state.loop.executed := by
  cases htop : (ofDepth settings depth).topLevel program .initial with
  | error stop m =>
    have hexecuted := (conducts_topLevel hs depth program .initial).loop.executed
    rw [htop] at hexecuted
    rw [Settings.run_of_stop depth program htop, Settings.calls_of_stop depth program htop]
    exact hexecuted.symm
  | ok _ start =>
    obtain ⟨hok, -⟩ := length_calls hs depth program htop
    cases hrun : settings.run depth program with
    | ok _ m => exact hok m hrun
    | error stop m =>
      cases stop with
      | returned v => exact absurd hrun (neverReturns_program (neverReturns_call settings depth) settings program _ v m)
      | exhausted =>
        rw [hrun] at ht
        cases ht
      | fault f =>
        obtain ⟨hstop, -⟩ | ⟨l, task, rest, hbreaks⟩ := exists_breaksOff hs hrun
        · cases htop.symm.trans hstop
        · exact absurd ⟨f, m, l, task, rest, hrun, hbreaks⟩ hfaults

end Run

theorem Trace.steps_and_executed {t : Trace} {r : EStateM.Result Stop (Machine Journal) Unit} (ht : t ∈ ofEnd r) :
    t.steps = (after r).journal.steps ∧ t.stats.tasksExecuted = (after r).state.loop.executed := by
  cases r with
  | ok _ m =>
    cases ht
    exact ⟨rfl, rfl⟩
  | error stop m =>
    cases stop with
    | returned v =>
      cases ht
      exact ⟨rfl, rfl⟩
    | fault f =>
      cases ht
      exact ⟨rfl, rfl⟩
    | exhausted => cases ht

/-- The steps that announce tasks mirror the tasks that a run carries out. -/
theorem steps_mirror_tasks (ceiling : Int) (prunes : Bool) (depth : Nat) (program : Program) :
    let settings : Settings := { ceiling, prunes }
    ∀ t ∈ Trace.ofProgram? settings depth program, ∃ (top : List Step) (stints : List Stint),
      t.steps = top ++ stints.flatMap Stint.steps ∧
      (∀ step ∈ top, step.snapshot.loop.current = none) ∧
      t.steps.filter (·.description.isTitle) = stints.map Stint.first ∧
      stints.map Stint.task = (settings.calls depth program).map Note.task ∧
      (∀ stint ∈ stints, stint.Announced ∧ ∀ step ∈ stint.steps,
        ∀ other ∈ step.snapshot.loop.microtasks ++ step.snapshot.loop.macrotasks, other.id ≠ stint.task.id) ∧
      (settings.FaultsInTask depth program → stints.length = t.stats.tasksExecuted + 1) ∧
      (¬settings.FaultsInTask depth program → stints.length = t.stats.tasksExecuted) := by
  intro settings t ht
  have hs : settings.names = .ofScopes := rfl
  obtain ⟨top, stints, hsteps, htop, hannounced, htasks⟩ := exists_stints_run hs depth program
  have hreaches := (Correspondence.Unfolding.outcome_run hs depth program).reaches
  rw [Trace.ofProgram?_eq, Option.mem_def] at ht
  obtain ⟨htsteps, hexecuted⟩ := Trace.steps_and_executed ht
  have hlength : stints.length = (settings.calls depth program).length := by
    rw [← List.length_map (f := Stint.task), htasks, List.length_map]
  rw [hexecuted, htsteps, hsteps]
  refine ⟨top, stints, rfl, fun step hstep ↦ (htop step hstep).1, ?_, htasks, fun stint hstint ↦
    ⟨hannounced stint hstint, fun step hstep other hother ↦ ?_⟩, ?_, ?_⟩
  · rw [List.filter_append, Stint.filter_flatMap_steps hannounced, List.filter_eq_nil_iff.mpr, List.nil_append]
    exact fun step hstep ↦ by simp [(htop step hstep).2]
  · have hshown : step ∈ (after (settings.run depth program)).journal.steps := by
      rw [hsteps]
      exact List.mem_append_right _ (List.mem_flatMap.mpr ⟨stint, hstint, hstep⟩)
    have hstate : step.snapshot ∈ (after (settings.run depth program)).states :=
      List.mem_append_left _ (List.mem_map_of_mem hshown)
    exact hreaches.ne_of_current hstate ((hannounced stint hstint).current step hstep) hother
  · rintro ⟨f, m, l, task, rest, hrun, hbreaks⟩
    obtain ⟨_, start, hstart, -⟩ := bind_eq_ok hbreaks.before
    rw [hlength, hrun]
    exact (length_calls hs depth program hstart).2 _ m hrun
  · intro hfaults
    rw [hlength]
    exact length_calls_of_not_faultsInTask hs depth program ht hfaults

end Stepwise
