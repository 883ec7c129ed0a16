import Stepwise.Proofs.EventLoop.Plain
import Stepwise.Proofs.Run.Statement
/-!
Runs of whole programs keep every correspondence that single operations and the event loop's own
steps keep.
-/

namespace Stepwise

/-- The values that a reaction refers to, the promises that it settles included. -/
def Reaction.references : Reaction → List Value
  | handle handler derived => .promise derived :: (handler.map Value.function).toList
  | collect aggregate _ => [.promise aggregate]
  | race target | adopt target => [.promise target]

def Job.references : Job → List Value
  | call f arguments => .function f :: arguments
  | fetched address _ => [.promise address]
  | react reaction value => value :: reaction.references

/-- The promises that are settled aside, a job refers to the values that it holds on to. -/
theorem Reaction.forall_references {P : Value → Prop} (hP : ∀ address, P (.promise address)) {reaction : Reaction} :
    (∀ v ∈ reaction.references, P v) ↔ ∀ v ∈ reaction.values, P v := by
  have hpromise {address : Address} {vs : List Value} : (∀ v ∈ .promise address :: vs, P v) ↔ ∀ v ∈ vs, P v := by
    rw [List.forall_mem_cons]
    exact and_iff_right (hP address)
  cases reaction with
  | handle handler derived => exact hpromise
  | collect aggregate index => exact hpromise
  | race target => exact hpromise
  | adopt target => exact hpromise

theorem Job.forall_references {P : Value → Prop} (hP : ∀ address, P (.promise address)) {job : Job} :
    (∀ v ∈ job.references, P v) ↔ ∀ v ∈ job.values, P v := by
  cases job with
  | call f arguments => exact Iff.rfl
  | fetched address url =>
    exact iff_of_true (List.forall_mem_singleton.mpr (hP address)) fun _ hv ↦ absurd hv List.not_mem_nil
  | react reaction v =>
    rw [references, values, List.forall_mem_cons, List.forall_mem_cons]
    exact and_congr_right fun _ ↦ Reaction.forall_references hP

/-- A task is taken from the front of a queue. -/
def EventLoop.Takes (loop : EventLoop) (task : Task) (loop' : EventLoop) : Prop :=
  (∃ rest, loop.microtasks = task :: rest ∧ loop' = { loop with microtasks := rest }) ∨
  ∃ rest, loop.macrotasks = task :: rest ∧ loop' = { loop with macrotasks := rest }

theorem EventLoop.takes_of_next? {loop loop' : EventLoop} {task : Task} (h : loop.next? = some (task, loop')) :
    loop.Takes task loop' := by
  unfold next? at h
  split at h
  next task' rest hmicrotasks =>
    cases h
    exact .inl ⟨rest, hmicrotasks, rfl⟩
  next task' rest hmicrotasks hmacrotasks =>
    cases h
    exact .inr ⟨rest, hmacrotasks, rfl⟩
  · cases h

theorem EventLoop.Takes.executed {loop loop' : EventLoop} {task : Task} (h : loop.Takes task loop') :
    loop'.executed = loop.executed := by
  obtain ⟨rest, -, rfl⟩ | ⟨rest, -, rfl⟩ := h
  · rfl
  · rfl

namespace Correspondence

variable (L : Correspondence) {β : Type}

/-- What promises and tasks have to keep beside expressions and statements. -/
structure SoundJobs (s t : Settings) : Prop extends Sound L s t where
  frames_leads : ∀ {p q}, L.leads .task p q → p.1.state.frames = [] → q.1.state.frames = []
  announce : ∀ {p} (task : Task), L.holds p → L.Related .expression anything
    (Eval.record task.line 0 task.title) (Eval.record task.line 0 task.title) p
  completeFetch : ∀ {p} address url, L.holds p → L.valid p (.promise address) →
    L.Related .expression anything (liftM (Engine.completeFetch address url))
      (liftM (Engine.completeFetch address url)) p
  settle : ∀ {p} target v, L.holds p → L.valid p (.promise target) → L.valid p v →
    L.Related .expression anything (liftM (Engine.settle target v)) (liftM (Engine.settle target v)) p
  adopt : ∀ {p} address target, L.holds p → L.valid p (.promise address) → L.valid p (.promise target) →
    L.Related .expression anything (liftM (Engine.subscribe address (.adopt target)))
      (liftM (Engine.subscribe address (.adopt target))) p
  gather : ∀ {p} aggregate index v, L.holds p → L.valid p (.promise aggregate) → L.valid p v →
    L.Related .expression anything (liftM (Engine.gather aggregate index v))
      (liftM (Engine.gather aggregate index v)) p

/-- The tasks that are carried out correspond, from machines outside of calls. -/
abbrev Carries (L : Correspondence) (x y : Task → Eval Unit) : Prop :=
  ∀ p task, L.holds p → p.1.state.frames = [] → L.allValid p task.job.references →
    L.Related .task anything (x task) (y task) p

/-- What the event loop has to keep for runs under two settings to correspond. -/
structure SoundLoop (s t : Settings) : Prop extends SoundJobs L s t where
  ceiling_eq : t.ceiling = s.ceiling
  loop_eq : ∀ {p}, L.holds p → p.2.state.loop = p.1.state.loop
  next : ∀ {p x y task} {g : EventLoop → EventLoop}, L.Carries x y → L.holds p → p.1.state.frames = [] →
    p.1.state.loop.Takes task (g p.1.state.loop) → L.Related .task anything
      (Activity.modifyLoop g >>= fun _ ↦ Activity.runTask x task)
      (Activity.modifyLoop g >>= fun _ ↦ Activity.runTask y task) p
  truncate : ∀ {p} truncated, L.holds p → L.Related .task anything
    (Activity.modifyLoop fun loop ↦ { loop with truncated })
    (Activity.modifyLoop fun loop ↦ { loop with truncated }) p

/-- The same by the single steps of the event loop: what there is to do for a task is known between them. -/
structure SoundRun (s t : Settings) : Prop extends SoundJobs L s t where
  ceiling_eq : t.ceiling = s.ceiling
  loop_eq : ∀ {p}, L.holds p → p.2.state.loop = p.1.state.loop
  takeMicrotask : ∀ {p} task rest, L.holds p → p.1.state.loop.microtasks = task :: rest →
    L.Related .task (fun q _ ↦ L.allValid q task.job.references)
      (Activity.modifyLoop fun loop ↦ { loop with microtasks := rest })
      (Activity.modifyLoop fun loop ↦ { loop with microtasks := rest }) p
  takeMacrotask : ∀ {p} task rest, L.holds p → p.1.state.loop.macrotasks = task :: rest →
    L.Related .task (fun q _ ↦ L.allValid q task.job.references)
      (Activity.modifyLoop fun loop ↦ { loop with macrotasks := rest })
      (Activity.modifyLoop fun loop ↦ { loop with macrotasks := rest }) p
  start : ∀ {p} task, L.holds p → L.allValid p task.job.references →
    L.Related .task (fun q _ ↦ L.allValid q task.job.references)
      (Activity.modifyLoop fun loop ↦ { loop with current := some task })
      (Activity.modifyLoop fun loop ↦ { loop with current := some task }) p
  finish : ∀ {p}, L.holds p → L.Related .task (fun q _ ↦ ∀ v, L.valid p v → L.valid q v)
    (Activity.ofEngine (Engine.modifyLoop fun loop ↦ { loop with current := none }))
    (Activity.ofEngine (Engine.modifyLoop fun loop ↦ { loop with current := none })) p
  count : ∀ {p}, L.holds p → L.Related .task anything
    (Activity.modifyLoop fun loop ↦ { loop with executed := loop.executed + 1 })
    (Activity.modifyLoop fun loop ↦ { loop with executed := loop.executed + 1 }) p
  truncate : ∀ {p} truncated, L.holds p → L.Related .task anything
    (Activity.modifyLoop fun loop ↦ { loop with truncated })
    (Activity.modifyLoop fun loop ↦ { loop with truncated }) p

variable {L} {s t : Settings} {a b : Evaluator} {p : Machines}

/-- A top level carries out no task. -/
theorem SoundForms.topLevel (h : L.SoundForms s t) (hab : L.Parts s t a b) (program : Program) (hp : L.holds p) :
    L.Related .statement anything (a.topLevel program) (b.topLevel program) p := by
  have hblock : L.Related .statement L.valid (a.body (.block program.hoisted program.statements))
      (b.body (.block program.hoisted program.statements)) p := hab.block h (by decide) _ _ hp
  exact hblock.catchReturn.seq fun q hq _ _ ↦ .pure hq trivial

section Jobs

variable (h : L.SoundJobs s t)
include h

theorem SoundJobs.conclude (derived : Address) (result : Value) (hp : L.holds p)
    (hd : L.valid p (.promise derived)) (hv : L.valid p result) :
    L.Related .expression anything (liftM (Engine.conclude derived result))
      (liftM (Engine.conclude derived result)) p := by
  cases result with
  | promise address => exact h.adopt address derived hp hv hd
  | _ => exact h.settle derived _ hp hd hv

theorem SoundJobs.runReaction {x y : Function → List Value → Eval Value} (reaction : Reaction) (v : Value)
    (hp : L.holds p) (hv : L.valid p v) (hr : L.allValid p reaction.references)
    (hxy : ∀ f, L.valid p (.function f) → L.Related .expression L.valid (x f [v]) (y f [v]) p) :
    L.Related .expression anything (Activity.runReaction x reaction v)
      (Activity.runReaction y reaction v) p := by
  cases reaction with
  | handle handler derived =>
    obtain ⟨hd, hf⟩ := List.forall_mem_cons.mp hr
    cases handler with
    | none => exact h.conclude derived v hp hd hv
    | some f =>
      exact (hxy f (hf _ List.mem_cons_self)).bind fun q w hq hl hw ↦
        h.conclude derived w hq (L.valid_leads hl hd) hw
  | collect aggregate index => exact h.gather aggregate index v hp (hr _ List.mem_cons_self) hv
  | race target => exact h.settle target v hp (hr _ List.mem_cons_self) hv
  | adopt target => exact h.settle target v hp (hr _ List.mem_cons_self) hv

theorem Parts.job (hab : L.Parts s t a b) (line : Int) (job : Job) (hp : L.holds p)
    (hj : L.allValid p job.references) :
    L.Related .expression anything (a.job line job) (b.job line job) p := by
  cases job with
  | call f arguments =>
    obtain ⟨hf, hvs⟩ := List.forall_mem_cons.mp hj
    exact (hab.call f arguments line "" hp hf hvs).seq fun q hq _ _ ↦ .pure hq trivial
  | fetched address url => exact h.completeFetch address url hp (hj _ List.mem_cons_self)
  | react reaction v =>
    obtain ⟨hv, hr⟩ := List.forall_mem_cons.mp hj
    have hvs : L.allValid p [v] := List.forall_mem_singleton.mpr hv
    exact h.runReaction (x := fun f vs ↦ a.call f vs 0 "") (y := fun f vs ↦ b.call f vs 0 "")
      reaction v hp hv hr fun f hf ↦ hab.call f [v] 0 "" hp hf hvs

theorem SoundJobs.task (hab : L.Parts s t a b) : L.Carries (a.task s) (b.task t) := by
  intro p task hp hf hj
  have hrecord := (h.announce task hp).post
      (C := fun q _ ↦ q.1.state.frames = [] ∧ L.allValid q task.job.references)
      fun q _ _ hl _ ↦ ⟨h.frames_leads (L.of_expression hl) hf, hj.leads hl⟩
  refine hrecord.of_expression.bind fun q _ hq _ hfj ↦ ?_
  have hjob := (hab.job h task.line task.job hq hfj.2).post (C := fun r _ ↦ r.1.state.frames = [])
    fun r _ _ hl _ ↦ h.frames_leads (L.of_expression hl) hfj.1
  exact hjob.of_expression.bind fun r _ hr _ hfr ↦ (h.prune hr hfr).of_statement nofun

end Jobs

section Loop

variable (h : L.SoundLoop s t)
include h

theorem SoundLoop.getLoop (hp : L.holds p) {k : Stretch} :
    L.Related k (fun q loop ↦ q = p ∧ loop = p.1.state.loop) Activity.getLoop Activity.getLoop p := by
  unfold Related
  have e : (Activity.getLoop : Eval EventLoop) p.2 = .ok p.1.state.loop p.2 := by
    rw [← h.loop_eq hp]; rfl
  rw [e]
  exact .ok hp (L.refl k p) ⟨rfl, rfl⟩

variable {x y : Task → Eval Unit}

/-- Outside of calls the next task is carried out, and then whatever there is to do. -/
theorem SoundLoop.nextThen {task : Task} {g : EventLoop → EventLoop} {f f' : Unit → Eval β} {B : Machines → β → Prop}
    (hxy : L.Carries x y) (hp : L.holds p) (hf : p.1.state.frames = [])
    (htakes : p.1.state.loop.Takes task (g p.1.state.loop))
    (hff : ∀ q, L.holds q → q.1.state.frames = [] → L.Related .task B (f ()) (f' ()) q) :
    L.Related .task B (Activity.modifyLoop g >>= fun _ ↦ Activity.runTask x task >>= f)
      (Activity.modifyLoop g >>= fun _ ↦ Activity.runTask y task >>= f') p := by
  rw [← bind_assoc, ← bind_assoc]
  exact (h.next hxy hp hf htakes).seq fun q hq hl _ ↦ hff q hq (h.frames_leads hl hf)

theorem SoundLoop.drainMicrotasks (hxy : L.Carries x y) (budget : Nat) (hp : L.holds p)
    (hf : p.1.state.frames = []) :
    L.Related .task anything (Activity.drainMicrotasks x budget) (Activity.drainMicrotasks y budget) p := by
  induction budget generalizing p with
  | zero => exact (h.getLoop hp).seq fun q hq _ _ ↦ .pure hq trivial
  | succ budget ih =>
    refine (h.getLoop hp).bind fun q loop hq _ e ↦ ?_
    obtain ⟨rfl, rfl⟩ := e
    cases hm : q.1.state.loop.microtasks with
    | nil => exact .pure hq trivial
    | cons task rest =>
      have htakes : q.1.state.loop.Takes task { q.1.state.loop with microtasks := rest } := .inl ⟨rest, hm, rfl⟩
      exact h.nextThen (g := fun loop ↦ { loop with microtasks := rest }) hxy hq hf htakes fun r hr hfr ↦ ih hr hfr

theorem SoundLoop.drainPasses (hxy : L.Carries x y) (budget passes : Nat) (hp : L.holds p)
    (hf : p.1.state.frames = []) :
    L.Related .task anything (Activity.drainPasses x budget passes)
      (Activity.drainPasses y budget passes) p := by
  induction passes generalizing p with
  | zero => exact .pure hp trivial
  | succ passes ih =>
    refine (h.getLoop hp).bind fun q loop hq _ e ↦ ?_
    obtain ⟨rfl, rfl⟩ := e
    refine .ite (fun _ ↦ .pure hq trivial) (fun _ ↦ ?_)
    refine (h.drainMicrotasks hxy budget hq hf).seq fun q' hq' hl empty ↦ ?_
    have hf' := h.frames_leads hl hf
    refine .ite (fun _ ↦ .pure hq' trivial) (fun _ ↦ ?_)
    refine (h.getLoop hq').bind fun r loop hr _ e ↦ ?_
    obtain ⟨rfl, rfl⟩ := e
    cases hm : r.1.state.loop.macrotasks with
    | nil => exact ih hr hf'
    | cons task rest =>
      have htakes : r.1.state.loop.Takes task { r.1.state.loop with macrotasks := rest } := .inr ⟨rest, hm, rfl⟩
      refine h.nextThen (g := fun loop ↦ { loop with macrotasks := rest }) hxy hr hf' htakes fun u hu hfu ↦ ?_
      refine (h.drainMicrotasks hxy budget hu hfu).seq fun w hw hl'' empty' ↦ ?_
      exact .ite (fun _ ↦ .pure hw trivial) (fun _ ↦ ih hw (h.frames_leads hl'' hfu))

theorem SoundLoop.drain (hxy : L.Carries x y) (hp : L.holds p) (hf : p.1.state.frames = []) :
    L.Related .task anything (Activity.drain s.ceiling x) (Activity.drain t.ceiling y) p := by
  rw [h.ceiling_eq]
  refine (h.drainPasses hxy _ _ hp hf).seq fun q hq _ _ ↦ ?_
  refine (h.getLoop hq).bind fun r loop hr _ e ↦ ?_
  obtain ⟨rfl, rfl⟩ := e
  exact (h.truncate _ hr).seq fun r hr _ _ ↦ .pure hr trivial

/-- The plain schedule, of which a drain carries out a beginning. -/
theorem SoundLoop.plain (hxy : L.Carries x y) (n : Nat) (hp : L.holds p) (hf : p.1.state.frames = []) :
    L.Related .task anything (Activity.plain x n) (Activity.plain y n) p := by
  induction n generalizing p with
  | zero => exact .pure hp trivial
  | succ n ih =>
    refine (h.getLoop hp).bind fun q loop hq _ e ↦ ?_
    obtain ⟨rfl, rfl⟩ := e
    cases hnext : q.1.state.loop.next? with
    | none => exact .pure hq trivial
    | some taken =>
      exact h.nextThen (g := fun _ ↦ taken.2) hxy hq hf (EventLoop.takes_of_next? hnext) fun r hr hfr ↦ ih hr hfr

theorem SoundLoop.program (hab : L.Parts s t a b) (program : Program) (hp : L.holds p)
    (hf : p.1.state.frames = []) :
    L.Related .task anything (a.program s program) (b.program t program) p := by
  have htop : L.Related .task anything (a.topLevel program) (b.topLevel program) p :=
    (h.toSound.topLevel hab program hp).of_statement nofun
  refine htop.seq fun q hq hl _ ↦ ?_
  have hfq := h.frames_leads hl hf
  refine (h.drain (h.toSoundJobs.task hab) hq hfq).seq fun r hr hl' _ ↦ ?_
  exact (h.prune hr (h.frames_leads hl' hfq)).of_statement nofun

theorem SoundLoop.beginning (hab : L.Parts s t a b) (program : Program) (count : Nat) (hp : L.holds p)
    (hf : p.1.state.frames = []) :
    L.Related .task anything (a.topLevel program >>= fun _ ↦ Activity.plain (a.task s) count)
      (b.topLevel program >>= fun _ ↦ Activity.plain (b.task t) count) p := by
  have htop : L.Related .task anything (a.topLevel program) (b.topLevel program) p :=
    (h.toSound.topLevel hab program hp).of_statement nofun
  exact htop.seq fun q hq hl _ ↦ h.plain (h.toSoundJobs.task hab) count hq (h.frames_leads hl hf)

end Loop

section Run

variable (h : L.SoundRun s t)
include h

variable {x y : Task → Eval Unit}

theorem SoundRun.take {task : Task} {g : EventLoop → EventLoop} (hp : L.holds p)
    (htakes : p.1.state.loop.Takes task (g p.1.state.loop)) :
    L.Related .task (fun q _ ↦ L.allValid q task.job.references) (Activity.modifyLoop g) (Activity.modifyLoop g) p := by
  have hcongr (g' : EventLoop → EventLoop) (hg : g p.1.state.loop = g' p.1.state.loop) (m : Machine Journal)
      (hm : m.state.loop = p.1.state.loop) : (Activity.modifyLoop g : Eval Unit) m = Activity.modifyLoop g' m := by
    change EStateM.Result.ok () _ = EStateM.Result.ok () _
    simp only [hm, hg]
  unfold Related
  rcases htakes with ⟨rest, hqueue, hg⟩ | ⟨rest, hqueue, hg⟩
  · let g' : EventLoop → EventLoop := fun loop ↦ { loop with microtasks := rest }
    rw [hcongr g' hg p.1 rfl, hcongr g' hg p.2 (h.loop_eq hp)]
    exact h.takeMicrotask task rest hp hqueue
  · let g' : EventLoop → EventLoop := fun loop ↦ { loop with macrotasks := rest }
    rw [hcongr g' hg p.1 rfl, hcongr g' hg p.2 (h.loop_eq hp)]
    exact h.takeMacrotask task rest hp hqueue

theorem SoundRun.runTask (hxy : L.Carries x y) (task : Task) (hp : L.holds p)
    (hf : p.1.state.frames = []) (hj : L.allValid p task.job.references) :
    L.Related .task anything (Activity.runTask x task) (Activity.runTask y task) p := by
  refine (h.start task hp hj).bind fun q _ hq hl hjq ↦ ?_
  have htask := hxy q task hq (h.frames_leads hl hf) hjq
  exact (htask.closing fun r hr ↦ h.finish hr).seq fun r hr _ _ ↦ h.count hr

theorem SoundRun.toLoop : L.SoundLoop s t where
  toSoundJobs := h.toSoundJobs
  ceiling_eq := h.ceiling_eq
  loop_eq := h.loop_eq
  next hxy hp hf htakes := (h.take hp htakes).bind fun _ _ hq hl hj ↦ h.runTask hxy _ hq (h.frames_leads hl hf) hj
  truncate := h.truncate

theorem SoundRun.drain (hxy : L.Carries x y) (hp : L.holds p) (hf : p.1.state.frames = []) :
    L.Related .task anything (Activity.drain s.ceiling x) (Activity.drain t.ceiling y) p := h.toLoop.drain hxy hp hf

theorem SoundRun.plain (hxy : L.Carries x y) (n : Nat) (hp : L.holds p) (hf : p.1.state.frames = []) :
    L.Related .task anything (Activity.plain x n) (Activity.plain y n) p := h.toLoop.plain hxy n hp hf

theorem Parts.task (hab : L.Parts s t a b) (task : Task) (hp : L.holds p)
    (hf : p.1.state.frames = []) (hj : L.allValid p task.job.references) :
    L.Related .task anything (a.task s task) (b.task t task) p := h.toSoundJobs.task hab p task hp hf hj

theorem Parts.topLevel (hab : L.Parts s t a b) (program : Program) (hp : L.holds p) :
    L.Related .statement anything (a.topLevel program) (b.topLevel program) p := h.toSound.topLevel hab program hp

theorem Parts.program (hab : L.Parts s t a b) (program : Program) (hp : L.holds p)
    (hf : p.1.state.frames = []) :
    L.Related .task anything (a.program s program) (b.program t program) p := h.toLoop.program hab program hp hf

/-- Runs of a program under two settings take corresponding machines to corresponding ones. -/
theorem SoundRun.program (depth : Nat) (program : Program) (hp : L.holds p)
    (hf : p.1.state.frames = []) :
    L.Related .task anything ((Evaluator.ofDepth s depth).program s program)
      ((Evaluator.ofDepth t depth).program t program) p :=
  (h.toSound.parts depth).program h program hp hf

end Run

end Correspondence

end Stepwise
