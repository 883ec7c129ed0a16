import Stepwise.Proofs.Run.Faulting
import Stepwise.Proofs.UniqueNumbers
/-!
Faults end runs cleanly. However deep inside of a run a fault happens, the run is over: what the trace shows is what
there was at that place, with all calls and scopes closed and the fault said on the console.
-/

namespace Stepwise

open Activity Evaluator

namespace Machine

variable {m : Machine Journal}

theorem Reaches.nodup_tasks (h : initial.Reaches m) {s : State} (hs : s ∈ m.states) : (s.tasks.map Task.id).Nodup := by
  obtain ⟨handed, hrow⟩ := h.leads
  have hledger := hrow.ledger
  have hsubperm := (hledger.bearers s hs).trans (List.take_sublist _ _).subperm
  obtain ⟨l, hperm, hsub⟩ := subperm_map hsubperm Bearer.number
  have hnumbers : (s.bearers.map Bearer.number).Nodup := by
    rw [← hperm.nodup_iff]
    refine hsub.nodup ?_
    rw [hledger.numbers]
    exact List.nodup_range'
  refine List.Sublist.nodup ?_ hnumbers
  have htasks : (s.tasks.map (Bearer.task ·.id)).Sublist s.bearers := by
    unfold State.bearers
    exact ((List.sublist_append_right _ _).trans (List.sublist_append_left _ _)).trans (List.sublist_append_left _ _)
  have hids := htasks.map Bearer.number
  rw [List.map_map] at hids
  exact hids

theorem Reaches.ne_of_current (h : initial.Reaches m) {s : State} (hs : s ∈ m.states) {task other : Task}
    (hcurrent : s.loop.current = some task) (hother : other ∈ s.loop.microtasks ++ s.loop.macrotasks) :
    other.id ≠ task.id := by
  intro hid
  have hnodup := h.nodup_tasks hs
  unfold State.tasks at hnodup
  rw [hcurrent, Option.toList_some, List.map_append] at hnodup
  exact (List.disjoint_of_nodup_append hnodup) (List.mem_map_of_mem hother) (hid ▸ List.mem_singleton_self task.id)

end Machine

namespace Trace

variable {t : Trace} {r : EStateM.Result Stop (Machine Journal) Unit}

/-- A trace at the end of which everything is closed but the global scope, and no task is being carried out. -/
def Closed (t : Trace) : Prop := ∃ s, t.finalState = some s ∧ s.frames = [] ∧ s.loop.current = none ∧
  ∃ scope, s.chain = [scope.id] ∧ s.scope? scope.id = some scope ∧ scope.kind = .global

/-- A trace that tells what there is on a machine, and of a fault in one more message. -/
structure Tells (t : Trace) (f : Fault) (m : Machine Journal) (message : Message) : Prop where
  error : t.error = some message
  level : message.level = .error
  content : message.content = [.string f.report]
  console : t.console = m.state.console ++ [message]
  steps : t.steps = m.journal.steps
  loop : t.finalState.map State.loop = some m.state.loop
  executed : t.stats.tasksExecuted = m.state.loop.executed

theorem tells_ofFault (f : Fault) (m : Machine Journal) :
    (ofFault m f).Tells f m ⟨m.state.lastId + 1, .error, [.string f.report]⟩ := ⟨rfl, rfl, rfl, rfl, rfl, rfl, rfl⟩

theorem ofEnd_eq_none : ofEnd r = none ↔ ∃ m, r = .error .exhausted m := by
  cases r with
  | ok _ m => exact iff_of_false nofun fun ⟨_, h⟩ ↦ nomatch h
  | error stop m =>
    cases stop with
    | returned v => exact iff_of_false nofun fun ⟨_, h⟩ ↦ nomatch h
    | fault f => exact iff_of_false nofun fun ⟨_, h⟩ ↦ nomatch h
    | exhausted => exact iff_of_true rfl ⟨m, rfl⟩

theorem error_isSome_iff (ht : t ∈ ofEnd r) : t.error.isSome ↔ ∃ f m, r = .error (.fault f) m := by
  cases r with
  | ok _ m =>
    cases ht
    exact iff_of_false nofun fun ⟨_, _, h⟩ ↦ nomatch h
  | error stop m =>
    cases stop with
    | returned v =>
      cases ht
      exact iff_of_false nofun fun ⟨_, _, h⟩ ↦ nomatch h
    | fault f =>
      cases ht
      exact iff_of_true rfl ⟨f, m, rfl⟩
    | exhausted => cases ht

/-- Saying a fault touches nothing but the console. -/
theorem exists_finalState (ht : t ∈ ofEnd r) :
    ∃ lastId console, t.finalState = some { (after r).state with lastId, console } := by
  cases r with
  | ok _ m =>
    cases ht
    exact ⟨m.state.lastId, m.state.console, rfl⟩
  | error stop m =>
    cases stop with
    | returned v =>
      cases ht
      exact ⟨m.state.lastId, m.state.console, rfl⟩
    | fault f =>
      cases ht
      exact ⟨_, _, rfl⟩
    | exhausted => cases ht

end Trace

/-- A run breaks off on a machine: behind the top level and whole tasks, up to another machine, a task was taken from
its queue and ended in a fault. What else was put off by then is still there in its order. -/
structure BreaksOff (settings : Settings) (depth : Nat) (program : Program) (l : Machine Journal) (task : Task)
    (rest : EventLoop) (f : Fault) (m : Machine Journal) : Prop where
  before : ((ofDepth settings depth).topLevel program >>= fun _ ↦
    plain ((ofDepth settings depth).task settings) l.state.loop.executed) .initial = .ok () l
  taken : l.state.loop.next? = some (task, rest)
  faulted : ∃ n, (ofDepth settings depth).task settings task (running (l.withLoop rest) task) = .error (.fault f) n ∧
    m = n.unwound
  gone : ∀ other ∈ m.state.tasks, other.id ≠ task.id
  pending : ∀ kind, rest.queue kind <+: m.state.loop.queue kind
  executed : m.state.loop.executed = l.state.loop.executed

section Run

variable {settings : Settings} (hs : settings.names = .ofScopes) {depth : Nat} {program : Program}
include hs

/-- Where a task ends in a fault behind the top level and other tasks, the run breaks off. -/
theorem BreaksOff.of_task {l n : Machine Journal} {task : Task} {rest : EventLoop} {f : Fault}
    (hbefore : ((ofDepth settings depth).topLevel program >>= fun _ ↦
      plain ((ofDepth settings depth).task settings) l.state.loop.executed) .initial = .ok () l)
    (htaken : l.state.loop.next? = some (task, rest))
    (hfault : (ofDepth settings depth).task settings task (running (l.withLoop rest) task) = .error (.fault f) n) :
    BreaksOff settings depth program l task rest f n.unwound := by
  have hl : Machine.initial.Reaches l := by
    have hsound := Correspondence.Unfolding.soundLoop (l := .initial) hs
    have hreaches := (Correspondence.Unfolding.outcome Machine.reaches_initial fun hp ↦
      hsound.beginning (hsound.toSound.parts depth) program l.state.loop.executed hp rfl).reaches
    rw [hbefore] at hreaches
    exact hreaches
  have hframes : l.state.frames = [] := by
    have hsound := Correspondence.Stacking.soundRun Correspondence.Stacking.habitRun_true hs
    have hstays := (Correspondence.Stacking.kept Machine.reaches_initial.grounded fun hp ↦
      hsound.toLoop.beginning (hsound.parts depth) program l.state.loop.executed hp rfl).stays.frames (by decide)
    rw [hbefore] at hstays
    exact hstays
  -- the machine on which the task is carried out
  have htakes := EventLoop.takes_of_next? htaken
  have hstarts : l.state.Edit [] (running (l.withLoop rest) task).state := .starts htakes
  have hrunning : Machine.initial.Reaches (running (l.withLoop rest) task) :=
    hl.step (Machine.leads_of_edit hstarts) ⟨hl.grounded.opened, hl.grounded.known⟩
  have hmem : task ∈ (running (l.withLoop rest) task).state.tasks :=
    List.mem_append_right _ (List.mem_singleton_self task)
  have hn : Machine.initial.Reaches n := by
    have hsound := Correspondence.Unfolding.soundJobs (l := .initial) hs
    have hreaches := (Correspondence.Unfolding.outcome hrunning fun hp ↦
      hsound.task (hsound.toSound.parts depth) _ task hp hframes (hrunning.proper.whole.tasks task hmem)).reaches
    rw [hfault] at hreaches
    exact hreaches
  have hloop : (running (l.withLoop rest) task).state.loop.Extends n.state.loop := by
    have hdefers := (conducts_task hs depth task (running (l.withLoop rest) task)).loop
    rw [hfault] at hdefers
    exact hdefers
  have hgone (other : Task) (hother : other ∈ n.unwound.state.tasks) : other.id ≠ task.id := by
    have hother : other ∈ n.state.loop.microtasks ++ n.state.loop.macrotasks ++ [] := hother
    rw [List.append_nil] at hother
    exact hn.ne_of_current (List.mem_append_right _ (List.mem_singleton_self _)) hloop.current hother
  refine ⟨hbefore, htaken, ⟨n, hfault, rfl⟩, hgone, fun kind ↦ ?_, hloop.executed.trans htakes.executed⟩
  obtain ⟨new, hnew, -⟩ := hloop.queues kind
  cases kind <;> exact ⟨new, hnew.symm⟩

theorem exists_breaksOff {f : Fault} {m : Machine Journal} (h : settings.run depth program = .error (.fault f) m) :
    (ofDepth settings depth).topLevel program .initial = .error (.fault f) m ∧ m.state.loop.executed = 0 ∨
    ∃ l task rest, BreaksOff settings depth program l task rest f m := by
  have htop := (conducts_topLevel hs depth program .initial).loop.executed
  have hunwound := unwound_run hs depth program
  rw [h] at hunwound
  cases h ▸ ending_run settings depth program with
  | top htopLevel =>
    rw [htopLevel] at htop
    exact .inl ⟨htopLevel, htop⟩
  | @tasks start _ count _ htopLevel hplain =>
    obtain ⟨j, l, task, rest, n, hj, hexecuted, htaken, hfault, rfl⟩ :=
      exists_of_plain_error (conducts_task hs depth) hplain
    have hstart : start.state.loop.executed = 0 := by
      rw [htopLevel] at htop
      exact htop
    rw [hstart, Nat.zero_add] at hexecuted
    subst hexecuted
    have hbefore : ((ofDepth settings depth).topLevel program >>= fun _ ↦
        plain ((ofDepth settings depth).task settings) l.state.loop.executed) .initial = .ok () l := by
      rw [bind_apply, htopLevel]
      exact hj
    have hm : n.unwound = n.withLoop { n.state.loop with current := none } := hunwound
    rw [← hm]
    exact .inr ⟨l, task, rest, .of_task hs hbefore htaken hfault⟩

theorem closed_of_run {t : Trace} (ht : t ∈ Trace.ofEnd (settings.run depth program)) : t.Closed := by
  have hunwound := unwound_run hs depth program
  obtain ⟨handed, hrow⟩ := (Correspondence.Unfolding.outcome_run hs depth program).leads
  have hglobal : Machine.initial.state.scope? 1 = some ⟨1, .global, Engine.globalScopeName, ∅, none⟩ := rfl
  obtain ⟨scope, hscope, hremains⟩ := hrow.state.retains Machine.reaches_initial.proper.numbered 1 _ hglobal
  obtain ⟨lastId, console, hfinal⟩ := Trace.exists_finalState ht
  have hid : scope.id = 1 := hremains.id
  refine ⟨_, hfinal, ?_, ?_, scope, ?_, ?_, hremains.kind⟩
  · rw [← hunwound]
    rfl
  · rw [← hunwound]
    rfl
  · rw [← hunwound, hid]
    rfl
  · rw [hid]
    exact hscope

end Run

/-- A fault anywhere in a run ends it cleanly. There is a trace of whatever comes to an end; all but the global scope is
closed there, and it has an error just if there was a fault. No fault of a form at any depth is other than the one that
ended the run with the machine that it unwinds to. That is all that the trace shows beside the message; it happened at
the top level, or else in a task behind which no other one was carried out. -/
theorem faults_end_cleanly (ceiling : Int) (prunes : Bool) (other : Evaluator) (depth : Nat) (program : Program) :
    let settings : Settings := { ceiling, prunes }
    (Trace.ofProgram? settings depth program = none ↔ ∃ m, settings.run depth program = .error .exhausted m) ∧
    (∀ t ∈ Trace.ofProgram? settings depth program, t.Closed ∧
      (t.error.isSome ↔ ∃ f m, settings.run depth program = .error (.fault f) m)) ∧
    (sifted (fun f m ↦ settings.run depth program = .error (.fault f) m.unwound) other settings depth).program
      settings program .initial = settings.run depth program ∧
    ∀ f m, settings.run depth program = .error (.fault f) m →
      (∃ t message, Trace.ofProgram? settings depth program = some t ∧ t.Tells f m message) ∧
      ((ofDepth settings depth).topLevel program .initial = .error (.fault f) m ∧ m.state.loop.executed = 0 ∨
        ∃ l task rest, BreaksOff settings depth program l task rest f m) := by
  intro settings
  have hs : settings.names = .ofScopes := rfl
  rw [Trace.ofProgram?_eq]
  refine ⟨Trace.ofEnd_eq_none, fun t ht ↦ ⟨closed_of_run hs ht, Trace.error_isSome_iff ht⟩,
    sifted_eq_run hs depth program other, fun f m h ↦ ⟨⟨_, _, ?_, Trace.tells_ofFault f m⟩, exists_breaksOff hs h⟩⟩
  rw [h]
  rfl

/-- Three timers, the second of which fails in a block of a function that is called from inside of a loop. -/
def threeTimers : Program where
  hoisted := []
  statements :=
    let call (name : String) (arguments : List Expr) : Stmt :=
      .expression (some (.call (.identifier name) arguments .unknown)) .unknown
    let log : Stmt := .expression (some (.call (.member (.identifier "console") "log") [.null] .unknown)) .unknown
    let loop : Stmt := .loop .none (some (.boolean true)) none (.block [call "inner" []])
    [.function "fine" [] (.block [] [log]) .unknown,
      .function "inner" [] (.block [] [.block [log, call "missing" []]]) .unknown,
      .function "outer" [] (.block [] [loop]) .unknown,
      call "setTimeout" [.identifier "fine"], call "setTimeout" [.identifier "outer"],
      call "setTimeout" [.identifier "fine"]]

/-- The first of the three is carried out and the last one still waits. -/
theorem breaksOff_threeTimers : ∃ f m, Settings.run { ceiling := 9 } 12 threeTimers = .error (.fault f) m ∧
    (∃ t message, Trace.ofProgram? { ceiling := 9 } 12 threeTimers = some t ∧ t.Tells f m message ∧
      t.console.length = 3 ∧ t.finalState.map (·.loop.macrotasks.length) = some 1) ∧
    ∃ l task rest, BreaksOff { ceiling := 9 } 12 threeTimers l task rest f m ∧ m.state.loop.executed = 1 := by
  have hrun : (Trace.ofProgram? { ceiling := 9 } 12 threeTimers).map (fun t ↦ (t.error.isSome, t.stats.tasksExecuted,
      t.console.length, t.finalState.map (·.loop.macrotasks.length))) = some (true, 1, 3, some 1) := by decide +kernel
  obtain ⟨t, ht, hshown⟩ := Option.map_eq_some_iff.mp hrun
  obtain ⟨herror, hexecuted, hconsole, hwaiting⟩ : _ ∧ _ ∧ _ ∧ _ := by simpa only [Prod.mk.injEq] using hshown
  obtain ⟨-, htraces, -, hfaults⟩ := faults_end_cleanly 9 true (exhausted .ofScopes) 12 threeTimers
  obtain ⟨f, m, hfault⟩ := (htraces t ht).2.mp herror
  obtain ⟨⟨t', message, ht', htells⟩, hbreaks⟩ := hfaults f m hfault
  obtain rfl : t = t' := Option.some_inj.mp (ht.symm.trans ht')
  have hm : m.state.loop.executed = 1 := htells.executed.symm.trans hexecuted
  obtain ⟨-, htop⟩ | ⟨l, task, rest, hbreak⟩ := hbreaks
  · rw [htop] at hm
    cases hm
  · exact ⟨f, m, hfault, ⟨t, message, ht, htells, hconsole, hwaiting⟩, l, task, rest, hbreak, hm⟩

end Stepwise
