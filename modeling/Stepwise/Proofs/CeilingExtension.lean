import Stepwise.Proofs.EventLoop.Ceiling
import Stepwise.Proofs.Run.Returning
import Stepwise.Proofs.Run.Soundness
import Stepwise.Proofs.Run.Stacking
/-!
A higher ceiling extends a trace. The event loop carries out the same tasks in the same order and
then perhaps more of them, and a run that was not cut off is the whole run under any higher ceiling.
-/

namespace Stepwise

/-- Nothing that was noted down or said is taken back. -/
structure Machine.Grows (m n : Machine Journal) : Prop where
  steps : m.journal.steps <+: n.journal.steps
  diagnostics : m.journal.diagnostics <+: n.journal.diagnostics
  console : m.state.console <+: n.state.console

namespace Trace

structure ExtendsTo (t t' : Trace) : Prop where
  steps : t.steps <+: t'.steps
  console : t.console <+: t'.console
  diagnostics : t.diagnostics <+: t'.diagnostics
  complete : t.stats.truncated = false → t' = t

/-- The same for runs that may use up their depth, the longer one where the other one was cut off. -/
inductive Continues : Option Trace → Option Trace → Prop
  | both {t t' : Trace} : t.ExtendsTo t' → Continues (some t) (some t')
  | first {t : Trace} : t.stats.truncated = true → Continues (some t) none
  | neither : Continues none none

/-- The trace that a run ends with, if it does not use up its depth. -/
def ofEnd : EStateM.Result Stop (Machine Journal) Unit → Option Trace
  | .ok _ m | .error (.returned _) m => some (ofMachine m none)
  | .error (.fault fault) m => some (ofFault m fault)
  | .error .exhausted _ => none

theorem ofProgram?_eq (settings : Settings) (depth : Nat) (program : Program) :
    ofProgram? settings depth program = ofEnd (settings.run depth program) := by
  unfold ofProgram? Settings.run ofEnd
  split <;> simp only [*]

theorem ExtendsTo.refl (t : Trace) : t.ExtendsTo t :=
  ⟨List.prefix_refl _, List.prefix_refl _, List.prefix_refl _, fun _ ↦ rfl⟩

theorem Continues.refl (t : Option Trace) : Continues t t := by
  cases t with
  | none => exact .neither
  | some t => exact .both (.refl t)

end Trace

namespace Machine.Grows

variable {m n : Machine Journal}

theorem trans {l : Machine Journal} (h : l.Grows m) (h' : m.Grows n) : l.Grows n :=
  ⟨h.steps.trans h'.steps, h.diagnostics.trans h'.diagnostics, h.console.trans h'.console⟩

theorem of_state {t : State} (h : m.state.console <+: t.console) : m.Grows { m with state := t } :=
  ⟨List.prefix_refl _, List.prefix_refl _, h⟩

theorem extendsTo (h : m.Grows n) (htruncated : m.state.loop.truncated = true) :
    (Trace.ofMachine m none).ExtendsTo (Trace.ofMachine n none) :=
  ⟨h.steps, h.console, h.diagnostics, fun hcomplete ↦ by cases hcomplete.symm.trans htruncated⟩

end Machine.Grows

theorem Engine.Storing.grows {α : Type} {x : Engine α} {A : α → Prop} (h : Storing (fun _ ↦ True) x A) :
    Machine.Follows Machine.Grows Machine.Grows x :=
  .of_after id fun m ↦ .of_state (h.develops (holding_anything m.state)).console

open Engine Machine in
theorem habitRun_grows : HabitRun Grows Grows where
  refl _ := .of_state (List.prefix_refl _)
  trans := Grows.trans
  weaken := id
  trans_weak := Grows.trans
  apart h := .of_state h.console
  record _ _ _ _ _ := ⟨List.prefix_append _ _, List.prefix_refl _, List.prefix_refl _⟩
  announce _ _ := ⟨List.prefix_append _ _, List.prefix_refl _, List.prefix_refl _⟩
  report _ _ _ := ⟨List.prefix_refl _, List.prefix_append _ _, List.prefix_refl _⟩
  timer _ _ line := (storing_schedule .macrotask _ _ line fun v _ ↦ within_anything v).grows
  fetch url line := (storing_fetch url line).grows
  all _ := (storing_all fun v _ ↦ within_anything v).grows
  race _ := (storing_race fun v _ ↦ within_anything v).grows
  chain address _ := (storing_chain address fun _ _ ↦ trivial).grows
  modifyLoop _ _ := .of_state (List.prefix_refl _)
  completeFetch address url := (storing_completeFetch address url).grows
  settle target v := (storing_settle target (within_anything v)).grows
  adopt address target := (storing_subscribe address (.adopt target) fun v _ ↦ within_anything v).grows
  gather aggregate index v := (storing_gather aggregate index (within_anything v)).grows

namespace Evaluator

theorem ofDepth_ceiling (prunes : Bool) (ceiling higher : Int) (depth : Nat) :
    ofDepth { ceiling, prunes } depth = ofDepth { ceiling := higher, prunes } depth := by
  induction depth with
  | zero => rfl
  | succ depth ih => rw [ofDepth_succ, ofDepth_succ, ih]; rfl

end Evaluator

open Activity Correspondence.Stacking

variable {ceiling higher : Int} {prunes : Bool} {m n : Machine Journal}

/-- The tasks of a run, which no ceiling has to do with. -/
abbrev Evaluator.carries (ceiling : Int) (prunes : Bool) (depth : Nat) : Task → Eval Unit :=
  (ofDepth { ceiling, prunes } depth).task { ceiling, prunes }

/-- More of the plain schedule only adds to a machine. -/
theorem grows_plain (ceiling : Int) (prunes : Bool) (depth k : Nat) (hm : m.state.Grounded)
    (hf : m.state.frames = []) : m.Grows (after (plain (Evaluator.carries ceiling prunes depth) k m)) := by
  have hsound := soundRun habitRun_grows (s := { ceiling, prunes }) rfl
  have hparts := hsound.parts depth
  exact (kept hm fun hp ↦ hsound.plain (fun p task hp hf hj ↦ hparts.task hsound task hp hf hj) k hp hf).strays

theorem grounded_drain (ceiling : Int) (prunes : Bool) (depth : Nat) (hm : m.state.Grounded)
    (hf : m.state.frames = []) (h : drain ceiling (Evaluator.carries ceiling prunes depth) m = finish n) :
    n.state.Grounded ∧ n.state.frames = [] := by
  have hsound := soundRun habitRun_grows (s := { ceiling, prunes }) rfl
  have hparts := hsound.parts depth
  have hdrain := kept hm fun hp ↦ hsound.drain (fun p task hp hf hj ↦ hparts.task hsound task hp hf hj) hp hf
  change Kept _ _ _ _ (drain ceiling _ m) at hdrain
  rw [h] at hdrain
  exact ⟨⟨hdrain.grounded.opened, hdrain.grounded.known⟩, (hdrain.stays.frames (by decide)).trans hf⟩

/-- The end of a run: it is noted whether tasks are left, and scopes may be forgotten. -/
theorem exists_finished (settings : Settings) (n : Machine Journal) :
    ∃ captured, (finish >>= fun _ ↦ Eval.prune settings) n = .ok () { n with state := { n.state with
      loop := { n.state.loop with truncated := !n.state.loop.isIdle }, captured } } := by
  rw [bind_apply]
  change ∃ captured, Eval.prune settings _ = _
  rw [Eval.prune_apply]
  cases settings.prunes with
  | false => exact ⟨_, rfl⟩
  | true => exact ⟨_, rfl⟩

/-- What a drain leaves comes to an end with the traces of a run that stops there and of one that goes
on. -/
theorem continues_of_plain {k : Nat} {execute : Task → Eval Unit} (settings : Settings)
    (hgrows : n.Grows (after (plain execute k n))) :
    Trace.Continues (Trace.ofEnd ((finish >>= fun _ ↦ Eval.prune settings) n))
      (Trace.ofEnd ((plain execute k >>= fun _ ↦ finish >>= fun _ ↦ Eval.prune settings) n)) := by
  rw [bind_apply (plain execute k)]
  cases hidle : n.state.loop.isIdle with
  | true =>
    -- no task was left, so that the higher ceiling has nothing to add
    rw [plain_of_none k (EventLoop.next?_eq_none.mpr hidle)]
    exact .refl _
  | false =>
    -- the first run is flagged, and only has to be a beginning of the second one
    obtain ⟨captured, hfinished⟩ := exists_finished settings n
    rw [hfinished, hidle]
    cases hr : plain execute k n with
    | ok _ n' =>
      obtain ⟨captured', hfinished'⟩ := exists_finished settings n'
      rw [hr] at hgrows
      dsimp only
      rw [hfinished']
      exact .both (Machine.Grows.extendsTo ⟨hgrows.steps, hgrows.diagnostics, hgrows.console⟩ rfl)
    | error stop n' =>
      rw [hr] at hgrows
      cases stop with
      | returned v => exact .both (Machine.Grows.extendsTo ⟨hgrows.steps, hgrows.diagnostics, hgrows.console⟩ rfl)
      | fault fault =>
        exact .both ⟨hgrows.steps, hgrows.console.trans (List.prefix_append _ _), hgrows.diagnostics, nofun⟩
      | exhausted => exact .first rfl

/-- The trace under a ceiling is the beginning of the trace under a higher one, and the whole of it
unless the run was cut off. -/
theorem ofProgram?_continues (h : ceiling ≤ higher) (prunes : Bool) (depth : Nat) (program : Program) :
    Trace.Continues (Trace.ofProgram? { ceiling, prunes } depth program)
      (Trace.ofProgram? { ceiling := higher, prunes } depth program) := by
  let settings : Settings := { ceiling, prunes }
  let self := Evaluator.ofDepth settings depth
  have hrun (c : Int) : Settings.run { ceiling := c, prunes } depth program = (self.topLevel program >>= fun _ ↦
      drain c (Evaluator.carries ceiling prunes depth) >>= fun _ ↦ Eval.prune settings) .initial := by
    unfold Settings.run
    rw [Evaluator.ofDepth_ceiling prunes c ceiling]
    rfl
  rw [Trace.ofProgram?_eq, Trace.ofProgram?_eq, hrun, hrun, bind_apply, bind_apply]
  have hinitial : Machine.initial.state.Grounded := ⟨List.cons_ne_nil _ _, List.Subset.refl _⟩
  have hsound := soundRun habitRun_grows (s := settings) rfl
  have htop := kept hinitial ((hsound.parts depth).topLevel hsound program)
  change Kept _ _ _ _ (self.topLevel program .initial) at htop
  cases htopLevel : self.topLevel program .initial with
  | error stop m => exact .refl _
  | ok _ m =>
    rw [htopLevel] at htop
    have hframes : m.state.frames = [] := htop.stays.frames (by decide)
    dsimp only
    rw [bind_apply, bind_apply]
    obtain ⟨stop, n, hlow, hhigh⟩ | ⟨k, n, hlow, hhigh⟩ :=
      drain_cases h (Evaluator.carries ceiling prunes depth) m
    · rw [hlow, hhigh]
      exact .refl _
    · obtain ⟨hn, hfn⟩ := grounded_drain ceiling prunes depth htop.grounded hframes hlow
      have hcontinues := continues_of_plain settings (grows_plain ceiling prunes depth k hn hfn)
      rw [hlow, hhigh, ← bind_apply, ← bind_apply, bind_assoc]
      exact hcontinues

/-- Two functions wait for a promise one behind the other, and the second one is cut off. -/
def twoHandlers : Program where
  hoisted := []
  statements :=
    let log : Expr := .function none [.name "x"] (.expression
      (.call (.member (.identifier "console") "log") [.identifier "x"] .unknown)) 1
    let settled : Expr := .call (.member (.identifier "Promise") "all") [.array []] .unknown
    let chained (e : Expr) : Expr := .call (.member e "then") [log] .unknown
    [.expression (some (chained (chained settled))) .unknown]

theorem continues_twoHandlers : (1 : Int) ≤ 2 ∧
    Trace.Continues (Trace.ofProgram? { ceiling := 1, prunes := true } 9 twoHandlers)
      (Trace.ofProgram? { ceiling := 2, prunes := true } 9 twoHandlers) :=
  ⟨by decide, ofProgram?_continues (by decide) true 9 twoHandlers⟩

example : (Trace.ofProgram? { ceiling := 1 } 9 twoHandlers).map (fun t ↦ (t.stats.truncated, t.stats.tasksExecuted)) =
    some (true, 1) := by decide +kernel

end Stepwise
