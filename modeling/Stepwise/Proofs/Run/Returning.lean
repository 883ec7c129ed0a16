import Stepwise.Proofs.EventLoop.Plain
import Stepwise.Proofs.State.Operation
/-!
Where returns end. A call takes the returns of its body, and the top level those of its statements,
so that no return gets out of either, nor out of a task or a run.
-/

namespace Stepwise

/-- An activity that stops, if it does, for another reason than a return. -/
def Activity.NeverReturns {ω α : Type} (x : Activity ω α) : Prop := ∀ m v n, x m ≠ .error (.returned v) n

namespace Activity.NeverReturns

variable {ω α β : Type} {x : Activity ω α}

theorem of_ok (h : ∀ m, ∃ a n, x m = .ok a n) : NeverReturns x := by
  intro m v n hx
  obtain ⟨a, m', ha⟩ := h m
  rw [ha] at hx
  cases hx

theorem pure (a : α) : NeverReturns (Pure.pure a : Activity ω α) := of_ok fun m ↦ ⟨a, m, rfl⟩

theorem bind {f : α → Activity ω β} (hx : NeverReturns x) (hf : ∀ a, NeverReturns (f a)) : NeverReturns (x >>= f) := by
  intro m v n h
  rw [bind_apply] at h
  cases hr : x m with
  | ok a m' =>
    rw [hr] at h
    exact hf a m' v n h
  | error stop m' =>
    rw [hr] at h
    cases h
    exact hx m v n hr

theorem ofEngine (operation : Engine α) : NeverReturns (Activity.ofEngine operation : Activity ω α) := by
  intro m v n h
  unfold Activity.ofEngine at h
  cases hr : operation m.state with
  | ok a s => rw [hr] at h; cases h
  | error f s => rw [hr] at h; cases h

theorem closing {close : Engine Unit} (hx : NeverReturns x) : NeverReturns (Activity.closing x close) := by
  intro m v n h
  unfold Activity.closing at h
  cases hr : x m with
  | ok a m' =>
    rw [hr] at h
    dsimp only at h
    cases hc : Activity.ofEngine close m' with
    | ok _ m'' => rw [hc] at h; cases h
    | error stop m'' =>
      rw [hc] at h
      cases h
      exact ofEngine close m' v n hc
  | error stop m' =>
    rw [hr] at h
    dsimp only at h
    cases hc : Activity.ofEngine close m' with
    | ok _ m'' =>
      rw [hc] at h
      cases h
      exact hx m v m' hr
    | error stop' m'' =>
      rw [hc] at h
      cases h
      exact ofEngine close m' v n hc

theorem runTask {execute : Task → Activity ω Unit} (h : ∀ task, NeverReturns (execute task)) (task : Task) :
    NeverReturns (Activity.runTask execute task) :=
  (ofEngine _).bind fun _ ↦ (h task).closing.bind fun _ ↦ ofEngine _

theorem plain {execute : Task → Activity ω Unit} (h : ∀ task, NeverReturns (execute task)) (n : Nat) :
    NeverReturns (Activity.plain execute n) := by
  induction n with
  | zero => exact pure ()
  | succ n ih =>
    intro m
    cases hnext : m.state.loop.next? with
    | none =>
      rw [plain_succ_of_none hnext]
      exact pure () m
    | some taken =>
      rw [plain_succ_of_some hnext]
      exact (runTask h taken.1).bind (fun _ ↦ ih) (m.withLoop taken.2)

theorem drain {execute : Task → Activity ω Unit} (h : ∀ task, NeverReturns (execute task)) (ceiling : Int) :
    NeverReturns (Activity.drain ceiling execute) := by
  intro m
  obtain ⟨n, hn⟩ := exists_drain_eq_plain ceiling execute m
  have hfinish : NeverReturns (finish : Activity ω Bool) := of_ok fun _ ↦ ⟨_, _, rfl⟩
  rw [hn]
  exact (plain h n).bind (fun _ ↦ hfinish) m

end Activity.NeverReturns

open Activity

theorem Eval.neverReturns_catchReturn (x : Eval Value) : NeverReturns (Eval.catchReturn x) := by
  intro m v n h
  unfold Eval.catchReturn at h
  cases hr : x m with
  | ok a m' => rw [hr] at h; cases h
  | error stop m' =>
    rw [hr] at h
    cases stop <;> cases h

theorem Eval.neverReturns_prune (settings : Settings) : NeverReturns (Eval.prune settings) :=
  .of_ok fun m ↦ ⟨(), _, prune_apply m⟩

namespace Evaluator

theorem neverReturns_inCall (f : Function) (arguments : List Value) (line : Int) (name : String)
    (activity : Nat → Eval Value) : NeverReturns (inCall f arguments line name activity) :=
  (NeverReturns.ofEngine _).bind fun _ ↦ (Eval.neverReturns_catchReturn _).closing

/-- The end of the depth apart, a call is one of its own. -/
theorem neverReturns_call (settings : Settings) (depth : Nat) (f : Function) (arguments : List Value) (line : Int)
    (name : String) : NeverReturns ((ofDepth settings depth).call f arguments line name) := by
  cases depth with
  | zero =>
    intro m v n h
    change EStateM.Result.error Stop.exhausted m = _ at h
    cases h
  | succ n => exact neverReturns_inCall f arguments line _ _

theorem neverReturns_topLevel (self : Evaluator) (program : Program) : NeverReturns (self.topLevel program) :=
  (Eval.neverReturns_catchReturn _).bind fun _ ↦ .pure ()

variable {self : Evaluator} (h : ∀ f arguments line name, NeverReturns (self.call f arguments line name))
include h

theorem neverReturns_job (line : Int) (job : Job) : NeverReturns (self.job line job) := by
  cases job with
  | call f arguments => exact (h f arguments line "").bind fun _ ↦ .pure ()
  | fetched address url => exact .ofEngine _
  | react reaction v =>
    cases reaction with
    | handle handler derived =>
      cases handler with
      | none => exact .ofEngine _
      | some f => exact (h f [v] 0 "").bind fun _ ↦ .ofEngine _
    | collect aggregate index => exact .ofEngine _
    | race target => exact .ofEngine _
    | adopt target => exact .ofEngine _

theorem neverReturns_task (settings : Settings) (task : Task) : NeverReturns (self.task settings task) := by
  have hrecord (line column : Int) (description : Text) : NeverReturns (Eval.record line column description) :=
    .of_ok fun _ ↦ ⟨(), _, rfl⟩
  exact (hrecord _ _ _).bind fun _ ↦ (neverReturns_job h task.line task.job).bind fun _ ↦
    Eval.neverReturns_prune settings

theorem neverReturns_program (settings : Settings) (program : Program) : NeverReturns (self.program settings program) :=
  (neverReturns_topLevel self program).bind fun _ ↦
    (NeverReturns.drain (neverReturns_task h settings) settings.ceiling).bind fun _ ↦ Eval.neverReturns_prune settings

end Evaluator

end Stepwise
