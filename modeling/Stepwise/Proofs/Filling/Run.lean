import Stepwise.Run
import Stepwise.Proofs.Filling.Statement
/-!
Runs of programs with gaps. A run of a program with a filler in its gaps is a run of the program with an eye on the
gaps, the reports of the filler standing in the place of each arrival.
-/

namespace Stepwise

variable {x : Filler}

namespace Evaluator

namespace Fills

open Eval Engine

variable {a b : Evaluator} (h : Fills x a b)
include h

theorem topLevel (p : Program) : Eval.Fills x id (a.topLevel p) (b.topLevel (p.fill x)) := by
  unfold Evaluator.topLevel
  rw [h.names.1, h.names.2]
  refine (fills_catchReturn ?_).bind fun _ ↦ .pure rfl
  exact (fills_hoist p.hoisted).bind fun _ ↦ (h.stmts p.statements).bind fun _ ↦ .pure rfl

theorem job (line : Int) (j : Job) : Eval.Fills x id (a.job line j) (b.job line (j.recast (Body.fill x))) := by
  cases j with
  | call f arguments => exact (h.call f arguments line "").bind fun _ ↦ .pure rfl
  | fetched address url => exact fills_liftM (recasts_completeFetch address url)
  | react reaction v =>
    cases reaction with
    | handle handler derived =>
      have hconclude (v : Value) := fills_liftM (x := x) (recasts_conclude v derived)
      cases handler with
      | none => exact .bind (r := Value.fill x) (.pure rfl) hconclude
      | some f => exact (h.call f [v] 0 "").bind hconclude
    | collect aggregate index => exact fills_liftM (recasts_gather v aggregate index)
    | race target => exact fills_liftM (recasts_settle v target)
    | adopt target => exact fills_liftM (recasts_settle v target)

theorem task (settings : Settings) (t : Task) :
    Eval.Fills x id (a.task settings t) (b.task settings (t.recast (Body.fill x))) :=
  (fills_record t.line 0 _).bind fun _ ↦ (h.job t.line t.job).bind fun _ ↦ fills_prune settings

end Fills

end Evaluator

section EventLoop

open Eval

variable {f g : Task → Eval Unit} (h : ∀ t, Fills x id (f t) (g (t.recast (Body.fill x))))
include h

omit h in
theorem fills_getLoop : Fills x (EventLoop.recast (Body.fill x)) Activity.getLoop Activity.getLoop := fun _ ↦ rfl

omit h in
theorem fills_modifyLoop {f g : EventLoop → EventLoop}
    (h : ∀ loop, (f loop).recast (Body.fill x) = g (loop.recast (Body.fill x))) :
    Fills x id (Activity.modifyLoop f) (Activity.modifyLoop g) := fills_liftM (Engine.recasts_modifyLoop h)

theorem fills_runTask (t : Task) : Fills x id (Activity.runTask f t) (Activity.runTask g (t.recast (Body.fill x))) := by
  refine .bind (fills_modifyLoop ?_) fun _ ↦ .bind (fills_closing (h t) (Engine.recasts_modifyLoop ?_)) fun _ ↦
    fills_modifyLoop ?_
  all_goals exact fun _ ↦ rfl

theorem fills_drainMicrotasks (budget : Nat) :
    Fills x id (Activity.drainMicrotasks f budget) (Activity.drainMicrotasks g budget) := by
  induction budget with
  | zero => exact fills_getLoop.bind fun loop ↦ .pure List.isEmpty_map
  | succ budget ih =>
    refine fills_getLoop.bind fun loop ↦ ?_
    have hqueue : (loop.recast (Body.fill x)).microtasks = loop.microtasks.map (Task.recast (Body.fill x)) := rfl
    simp only [hqueue]
    cases loop.microtasks with
    | nil => exact .pure rfl
    | cons t rest => exact .bind (fills_modifyLoop fun _ ↦ rfl) fun _ ↦ (fills_runTask h t).bind fun _ ↦ ih

theorem fills_drainPasses (budget passes : Nat) :
    Fills x id (Activity.drainPasses f budget passes) (Activity.drainPasses g budget passes) := by
  induction passes with
  | zero => exact .pure rfl
  | succ passes ih =>
    refine fills_getLoop.bind fun loop ↦ ?_
    rw [EventLoop.isIdle_recast]
    refine .ite (.pure rfl) ((fills_drainMicrotasks h budget).bind fun _ ↦ .ite (.pure rfl) ?_)
    refine fills_getLoop.bind fun loop ↦ ?_
    have hqueue : (loop.recast (Body.fill x)).macrotasks = loop.macrotasks.map (Task.recast (Body.fill x)) := rfl
    simp only [hqueue]
    cases loop.macrotasks with
    | nil => exact ih
    | cons t rest =>
      refine .bind (fills_modifyLoop fun _ ↦ rfl) fun _ ↦ (fills_runTask h t).bind fun _ ↦ ?_
      exact (fills_drainMicrotasks h budget).bind fun _ ↦ .ite (.pure rfl) ih

theorem fills_drain (ceiling : Int) : Fills x id (Activity.drain ceiling f) (Activity.drain ceiling g) := by
  refine (fills_drainPasses h _ _).bind fun _ ↦ fills_getLoop.bind fun loop ↦ ?_
  rw [EventLoop.isIdle_recast]
  exact .bind (fills_modifyLoop fun _ ↦ rfl) fun _ ↦ .pure rfl

end EventLoop

namespace Evaluator

theorem Fills.program {a b : Evaluator} (h : Fills x a b) (settings : Settings) (p : Program) :
    Eval.Fills x id (a.program settings p) (b.program settings (p.fill x)) :=
  (h.topLevel p).bind fun _ ↦ (fills_drain (h.task settings) settings.ceiling).bind fun _ ↦ Eval.fills_prune settings

/-- What is done in front of a statement. -/
def tidy (settings : Settings) : Eval Unit := do
  if (← Eval.getState).frames.isEmpty then Eval.prune settings

theorem evalStmt_eq (self : Evaluator) (settings : Settings) {s : Stmt} (hs : s ≠ .comment) :
    self.evalStmt settings s = tidy settings >>= fun _ ↦ self.execute s := by
  have heval : self.evalStmt settings s = Eval.getState >>= fun state ↦
      if state.frames.isEmpty then Eval.prune settings >>= fun _ ↦ self.execute s else self.execute s := by
    cases s with
    | comment => exact absurd rfl hs
    | _ => rfl
  unfold tidy
  rw [heval, bind_assoc]
  refine congrArg _ (funext fun state ↦ ?_)
  split <;> rfl

/-- Runs a statement. A gap is run like an empty statement, and it is noted down that control reached it. -/
def watchStmt (self : Evaluator) (settings : Settings) (s : Stmt) : Eval Unit :=
  if s.isGap then do
    self.evalStmt settings .empty
    Eval.arrive
  else self.evalStmt settings s

/-- The evaluator of a depth, with an eye on the gaps. -/
def watching (settings : Settings) : Nat → Evaluator
  | 0 => exhausted settings.names
  | n + 1 => { (watching settings n).next settings with stmt := (watching settings n).watchStmt settings }

theorem fills_tidy (settings : Settings) : Eval.Fills x id (tidy settings) (tidy settings) := by
  refine Eval.fills_getState.bind fun s ↦ ?_
  have hframes : (s.recast (Body.fill x)).frames.isEmpty = s.frames.isEmpty := List.isEmpty_map
  rw [hframes]
  exact .ite (Eval.fills_prune settings) (.pure rfl)

theorem fills_arrive (b : Evaluator) : Eval.Fills x id Eval.arrive (b.execute x.stmt) := by
  intro m
  have hreport : x.report .arrival = x.reports := if_pos rfl
  have hdiagnostics : (m.journal.diagnostics ++ [Diagnostic.arrival]).flatMap x.report =
      m.journal.diagnostics.flatMap x.report ++ x.reports := by
    rw [List.flatMap_append, List.flatMap_singleton, hreport]
  have harrive : image (Machine.fill x) (Stop.recast (Body.fill x)) id (Eval.arrive m) = .ok ()
      ⟨(m.fill x).state, (m.fill x).journal.steps, m.journal.diagnostics.flatMap x.report ++ x.reports⟩ := by
    rw [← hdiagnostics]
    rfl
  -- the reports come last here as in the run with the filler, as an arrival is noted down at the end
  rw [harrive]
  cases x with
  | unsupported kind location => rfl
  | empty =>
    rw [show Filler.empty.reports = [] from rfl, List.append_nil]
    rfl

theorem Fills.evalStmt {a b : Evaluator} (h : Fills x a b) (settings : Settings) {s : Stmt} (hs : s.isGap = false) :
    Eval.Fills x id (a.evalStmt settings s) (b.evalStmt settings (s.fill x)) := by
  by_cases hcomment : s = .comment
  · rw [hcomment]
    simp only [Stmt.fill]
    exact .pure rfl
  · rw [a.evalStmt_eq settings hcomment, b.evalStmt_eq settings (s.fill_ne_comment x hcomment)]
    exact (fills_tidy settings).bind fun _ ↦ h.execute s hs

theorem Fills.watchStmt {a b : Evaluator} (h : Fills x a b) (settings : Settings) (s : Stmt) :
    Eval.Fills x id (a.watchStmt settings s) (b.evalStmt settings (s.fill x)) := by
  unfold Evaluator.watchStmt
  cases hgap : s.isGap with
  | true =>
    have hfiller : x.stmt ≠ .comment := by cases x <;> nofun
    rw [Stmt.eq_gap_of_isGap hgap, Stmt.fill_gap, if_pos rfl, b.evalStmt_eq settings hfiller,
      a.evalStmt_eq settings (s := .empty) nofun, bind_assoc]
    exact (fills_tidy settings).bind fun _ ↦ fills_arrive b
  | false => exact h.evalStmt settings hgap

theorem fills_ofDepth {settings : Settings} (hnames : settings.names = .ofScopes) (depth : Nat) :
    Fills x (watching settings depth) (ofDepth settings depth) := by
  -- a depth takes what nested forms do from the depth below, where only the statements are watched as well
  induction depth with
  | zero =>
    exact ⟨⟨hnames, hnames⟩, fun _ ↦ .throw rfl, fun _ ↦ .throw rfl, fun _ _ _ _ ↦ .throw rfl,
      fun _ _ _ _ ↦ .throw rfl⟩
  | succ depth ih => exact ⟨⟨ih.names.1, hnames⟩, ih.evalExpr, ih.watchStmt settings, ih.evalLoop, ih.evalCall⟩

end Evaluator

namespace Trace

/-- What is left behind by a run that ended like this. -/
def ofOutcome? : EStateM.Result Stop (Machine Journal) Unit → Option Trace
  | .ok _ m | .error (.returned _) m => some (ofMachine m none)
  | .error (.fault fault) m => some (ofFault m fault)
  | .error .exhausted _ => none

/-- The trace of a program, each arrival at a gap among the diagnostics. -/
def watched? (settings : Settings) (depth : Nat) (p : Program) : Option Trace :=
  ofOutcome? ((Evaluator.watching settings depth).program settings p .initial)

/-- The same trace with the gaps filled in. -/
def fill (x : Filler) (t : Trace) : Trace where
  steps := t.steps.map (Step.recast (Body.fill x))
  stats := t.stats
  diagnostics := t.diagnostics.flatMap x.report
  error := t.error.map (Message.recast (Body.fill x))
  finalState := t.finalState.map (State.recast (Body.fill x))

theorem ofMachine_fill (m : Machine Journal) (error : Option Message) :
    ofMachine (m.fill x) (error.map (Message.recast (Body.fill x))) = (ofMachine m error).fill x := by
  have hstats : Stats.ofRun (m.fill x).journal.steps (m.fill x).state = .ofRun m.journal.steps m.state := by
    unfold Stats.ofRun
    simp only [Machine.fill, State.recast, EventLoop.recast, Heap.recast, List.length_map, Dict.size_mapValues]
  unfold ofMachine fill
  rw [hstats]
  rfl

theorem ofFault_fill (m : Machine Journal) (fault : Fault) : ofFault (m.fill x) fault = (ofFault m fault).fill x := by
  have hsay : Engine.say .error [.string fault.report] (m.fill x).state = image (State.recast (Body.fill x)) id
      (Message.recast (Body.fill x)) (Engine.say .error [.string fault.report] m.state) :=
    Engine.recasts_say .error [.string fault.report] m.state
  unfold ofFault
  rw [hsay]
  cases Engine.say .error [.string fault.report] m.state with
  | ok message state => exact ofMachine_fill { m with state } (some message)
  | error f state => exact ofMachine_fill { m with state } none

theorem ofOutcome?_image (r : EStateM.Result Stop (Machine Journal) Unit) :
    ofOutcome? (image (Machine.fill x) (Stop.recast (Body.fill x)) id r) = (ofOutcome? r).map (fill x) := by
  rcases r with ⟨_, m⟩ | ⟨v | fault | _, m⟩
  · exact congrArg some (ofMachine_fill m none)
  · exact congrArg some (ofMachine_fill m none)
  · exact congrArg some (ofFault_fill m fault)
  · rfl

theorem ofProgram?_fill {settings : Settings} (hnames : settings.names = .ofScopes) (depth : Nat) (p : Program) :
    ofProgram? settings depth (p.fill x) = (watched? settings depth p).map (fill x) := by
  have hprogram : (Evaluator.ofDepth settings depth).program settings (p.fill x) (Machine.initial.fill x) = _ :=
    (Evaluator.fills_ofDepth hnames depth).program settings p .initial
  have hofProgram : ofProgram? settings depth (p.fill x) =
      ofOutcome? ((Evaluator.ofDepth settings depth).program settings (p.fill x) (Machine.initial.fill x)) := rfl
  rw [hofProgram, hprogram]
  exact ofOutcome?_image _

/-- Two traces that are the same to a reader, apart from what is unsupported in them. -/
structure Agrees (t u : Trace) : Prop where
  steps : t.steps.map Step.toJson = u.steps.map Step.toJson
  console : t.console.map Message.toJson = u.console.map Message.toJson
  consoleLines : t.consoleLines = u.consoleLines
  error : t.error.map Message.toJson = u.error.map Message.toJson
  stats : t.stats = u.stats
  finalState : t.finalState.map State.toJson = u.finalState.map State.toJson

namespace Agrees

variable {t u v : Trace}

theorem symm (h : t.Agrees u) : u.Agrees t :=
  ⟨h.steps.symm, h.console.symm, h.consoleLines.symm, h.error.symm, h.stats.symm, h.finalState.symm⟩

theorem trans (h : t.Agrees u) (h' : u.Agrees v) : t.Agrees v :=
  ⟨h.steps.trans h'.steps, h.console.trans h'.console, h.consoleLines.trans h'.consoleLines, h.error.trans h'.error,
    h.stats.trans h'.stats, h.finalState.trans h'.finalState⟩

end Agrees

theorem console_fill (t : Trace) : (t.fill x).console = t.console.map (Message.recast (Body.fill x)) := by
  unfold console fill
  cases t.finalState with
  | none => exact Option.toList_map
  | some s => rfl

theorem consoleLines_fill (t : Trace) : (t.fill x).consoleLines = t.consoleLines := by
  have hheap : ((t.fill x).finalState.map State.heap).getD Dict.empty =
      ((t.finalState.map State.heap).getD Dict.empty).recast (Body.fill x) := by
    unfold fill
    cases t.finalState <;> rfl
  unfold consoleLines
  simp only [hheap, console_fill, List.map_map, Function.comp_def, Message.toText_recast]

theorem agrees_fill (t : Trace) : (t.fill x).Agrees t where
  steps := by
    unfold fill
    simp only [List.map_map, Function.comp_def, Step.toJson, Step.recast, State.toJson_recast]
    rfl
  console := by
    rw [console_fill]
    simp only [List.map_map, Function.comp_def, Message.toJson_recast]
  consoleLines := t.consoleLines_fill
  error := by
    unfold fill
    simp only [Option.map_map, Function.comp_def, Message.toJson_recast]
  stats := rfl
  finalState := by
    unfold fill
    simp only [Option.map_map, Function.comp_def, State.toJson_recast]

end Trace

end Stepwise
