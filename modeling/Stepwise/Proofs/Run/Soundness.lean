import Stepwise.Proofs.Run.Nesting
/-!
All operations of a run keep lexical states together with states that may have more captured
scopes, and so do whole runs.
-/

namespace Stepwise

namespace Correspondence.Scoping

open State Engine Eval

variable {exact : Prop} {p : Machines} {k : Stretch} {s t : State} {α : Type}

theorem related_record {line column : Int} {description : Text} (hp : (scoping exact).holds p) :
    (scoping exact).Related .expression anything (Eval.record line column description)
      (Eval.record line column description) p := by
  obtain ⟨⟨s, j⟩, ⟨t, j'⟩⟩ := p
  obtain ⟨hs, ⟨c, ht, hc, he⟩, hsteps, hdiagnostics⟩ := hp
  dsimp only at hs ht hc he hsteps hdiagnostics
  subst ht
  refine .ok ⟨hs, ⟨c, rfl, hc, he⟩, ?_, hdiagnostics⟩ (.refl _ s) trivial
  refine List.rel_append hsteps (.cons ?_ .nil)
  have hlength := hsteps.length_eq
  have hscoped : { s with step := j.steps.length + 1 }.Lexical :=
    hs.withScoping (t := { s with step := j.steps.length + 1 }) (Nat.le_refl _)
      ⟨hs.held.heap, hs.held.promises, hs.held.tasks⟩
  refine ⟨{ s.withCaptured c with step := j.steps.length + 1 }, ?_, ⟨c, rfl, hc, he⟩, hscoped.lexicallyScoped⟩
  unfold Step.behind
  rw [hlength]

theorem related_report {kind : String} {location : Location} (hp : (scoping exact).holds p) :
    (scoping exact).Related .expression anything (Eval.reportUnsupported kind location)
      (Eval.reportUnsupported kind location) p := by
  obtain ⟨hs, ht, hsteps, hdiagnostics⟩ := hp
  refine .ok ⟨hs, ht, hsteps, ?_⟩ (.refl _ _) trivial
  exact congrArg (· ++ [Diagnostic.unsupported kind location]) hdiagnostics

/-- Both runs forget captured scopes, or the first one at most. -/
def Prunes (exact : Prop) (s t : Settings) : Prop :=
  exact ∧ t.prunes = s.prunes ∨ ¬exact ∧ t.prunes = false

theorem related_prune {s t : Settings} (hst : Prunes exact s t) (hp : (scoping exact).holds p)
    (hf : p.1.state.frames = []) :
    (scoping exact).Related .statement anything (Eval.prune s) (Eval.prune t) p := by
  obtain ⟨⟨u, j⟩, ⟨w, j'⟩⟩ := p
  obtain ⟨hu, ⟨c, hw, hc, he⟩, hj⟩ := hp
  dsimp only at hu hw hc he hj hf
  subst hw
  have hpruned : u.prune.captured ⊆ u.captured := fun _ hid ↦ List.mem_of_mem_filter hid
  have hmoves : u.Moves .statement u.prune :=
    ⟨.of_scopes_eq rfl, rfl, rfl, fun _ ↦ rfl, rfl, fun h ↦ absurd hf (h.resolve_left nofun)⟩
  unfold Related
  rw [prune_apply, prune_apply]
  rcases hst with ⟨hexact, hprunes⟩ | ⟨hinexact, hprunes⟩
  · obtain rfl := he hexact
    rw [hprunes]
    cases s.prunes with
    | false => exact .ok ⟨hu, ⟨_, rfl, hc, he⟩, hj⟩ (.refl _ u) trivial
    | true => exact .ok ⟨hu.prune hf, ⟨_, rfl, fun _ h ↦ h, fun _ ↦ rfl⟩, hj⟩ hmoves trivial
  · rw [hprunes]
    cases s.prunes with
    | false => exact .ok ⟨hu, ⟨c, rfl, hc, he⟩, hj⟩ (.refl _ u) trivial
    | true =>
      exact .ok ⟨hu.prune hf, ⟨c, rfl, fun _ h ↦ hc (hpruned h), fun h ↦ absurd h hinexact⟩, hj⟩ hmoves trivial

theorem related_value {x : Engine Value} (hp : (scoping exact).holds p)
    (hx : Storing p.1.state.Captures x (Value.Within p.1.state.Captures)) :
    (scoping exact).Related .expression (scoping exact).valid (liftM x) (liftM x) p :=
  (related_of_storing hp hx).post fun _ _ _ hl hv ↦ hl.within hv

theorem related_stored {x : Engine α} {A : α → Prop} {B : Machines → α → Prop} (hp : (scoping exact).holds p)
    (hx : Storing p.1.state.Captures x A) (hB : ∀ q a, B q a) :
    (scoping exact).Related k B (liftM x) (liftM x) p :=
  (related_of_storing hp hx).post fun q a _ _ _ ↦ hB q a

theorem held_of_holds {v : Value} (hp : (scoping exact).holds p) (hv : p.1.state.heap.Holds v) :
    (scoping exact).valid p v := by
  obtain ⟨address, cell, hcell, hv⟩ := hv
  refine hp.1.held.heap cell (Dict.mem_values_of_get? hcell) v ?_
  exact List.mem_append.mpr hv.symm

theorem sound {s t : Settings} (hs : s.names = .ofScopes) (hn : Faithful exact t.names)
    (hst : Prunes exact s t) : (scoping exact).Sound s t where
  raises _ _ := trivial
  heap_eq hp := by
    obtain ⟨c, hc, -⟩ := hp.2.1
    rw [hc]
    rfl
  frames_isEmpty hp := by
    obtain ⟨c, hc, -⟩ := hp.2.1
    rw [hc]
    rfl
  valid_plain {p v} hv := by
    cases v with
    | function f => cases hv
    | _ => trivial
  valid_held := held_of_holds
  record _ _ _ _ := related_record
  report _ _ := related_report
  resolve {p} name hp := by
    rw [hs]
    exact Related.congr ((hn p hp).resolve name) (related_resolve hp)
  isDeclared {p} name hp := by
    rw [hs]
    exact Related.congr ((hn p hp).isDeclared name) (related_isDeclared hp)
  declare {p} name v kind hp hv := by
    rw [hs]
    exact related_declareIn hn hp hv
  declareAs kind name v hp hv := by
    rw [hs]
    exact related_declareAs kind name (related_functionScopes hn hp) (related_declareIn hn hp hv) fun q scope hq hl _ ↦
      related_declareIn hn hq (hl.within hv)
  assign {p} name v hp hv := by
    rw [hs]
    exact Related.congr ((hn p hp).assign name v) (related_assign hp hv)
  hoist hoisted hp := by
    rw [hs]
    exact related_hoist (B := anything) hoisted hp (headId_eq hp) (fun _ _ ↦ trivial) (fun _ _ ↦ trivial)
      (fun q scope hq _ ↦ scope?_eq hq scope) fun q scope name hq _ ↦ related_declareIn hn hq trivial
  capture {p} hp := by
    rw [hs]
    exact Related.congr (hn p hp).capture (related_capture hp)
  freshIdentity hp := related_stored hp storing_freshIdentity fun _ _ ↦ trivial
  newArray vs hp hvs := related_value hp (storing_newArray hvs)
  newObject fields hp hf := related_value hp (storing_newObject hf)
  setProperty receiver key v hp hv := related_stored hp (storing_setProperty receiver key hv) fun _ _ ↦ trivial
  say level content hp _ := related_stored hp (storing_say level content) fun _ _ ↦ trivial
  timer f arguments line hp hf hvs :=
    related_stored hp (storing_schedule .macrotask _ _ line (List.forall_mem_cons.mpr ⟨hf, hvs⟩)) fun _ _ ↦ trivial
  fetch url line hp := related_stored hp (storing_fetch url line) fun _ _ ↦ trivial
  all vs hp hvs := related_stored hp (storing_all hvs) fun _ _ ↦ trivial
  race vs hp hvs := related_stored hp (storing_race hvs) fun _ _ ↦ trivial
  chain address handler hp _ hf := related_stored hp (storing_chain address hf) fun _ _ ↦ trivial
  inScope _ _ _ hp hxy := related_inScope hp fun q hq hren ↦ hxy q hq fun _ ↦ hren
  renew hp hr := related_renew hp hr
  inCall _ _ _ _ _ _ hp hf _ hxy := related_inCall hp hf fun scope q hq hvalid ↦ hxy scope q hq trivial hvalid
  keepLocals _ hp _ := related_keepLocals hp
  prune hp hf := related_prune hst hp hf

/-- A change of the queues that keeps tasks of before and brings in others that are held already. -/
theorem related_modifyLoop {g : EventLoop → EventLoop} (hp : (scoping exact).holds p)
    (hg : ∀ u : State, ∀ task ∈ { u with loop := g u.loop }.tasks,
      task ∈ u.tasks ∨ AllWithin p.1.state.Captures task.job.values)
    {A : Machines → Unit → Prop} (hA : ∀ q, (scoping exact).leads .expression p q → A q ()) :
    (scoping exact).Related .task A (Activity.modifyLoop g) (Activity.modifyLoop g) p := by
  have hstoring := storing_modifyLoop (F := p.1.state.Captures) (g := g) fun u hu ↦
    ⟨hu.heap, hu.promises, fun task htask ↦ (hg u task htask).elim (hu.tasks task) id⟩
  exact ((related_of_storing hp hstoring).post fun q _ _ hl _ ↦ hA q hl).of_expression

theorem tasks_within {task : Task} (hp : (scoping exact).holds p) (ht : task ∈ p.1.state.tasks) :
    (scoping exact).allValid p task.job.references :=
  (Job.forall_references fun _ ↦ trivial).mpr (hp.1.held.tasks task ht)

theorem soundRun {s t : Settings} (hs : s.names = .ofScopes) (hn : Faithful exact t.names)
    (hst : Prunes exact s t) (hceiling : t.ceiling = s.ceiling) : (scoping exact).SoundRun s t where
  toSound := sound hs hn hst
  ceiling_eq := hceiling
  loop_eq hp := by
    obtain ⟨c, hc, -⟩ := hp.2.1
    rw [hc]
    rfl
  announce _ := related_record
  frames_leads hl hf := by
    have hshapes := hl.shapes
    rw [hf] at hshapes
    exact List.map_eq_nil_iff.mp hshapes
  takeMicrotask {p} task rest hp hm := by
    have htasks (u : Task) (hu : u ∈ task :: rest) : u ∈ p.1.state.tasks := mem_tasks_of_mem_microtasks (hm ▸ hu)
    refine related_modifyLoop hp (fun u w hw ↦ ?_) fun q hl ↦
      (tasks_within hp (htasks task List.mem_cons_self)).leads hl
    exact (mem_tasks_of_microtasks hw).imp_right fun hw ↦ hp.1.held.tasks w (htasks w (List.mem_cons_of_mem task hw))
  takeMacrotask {p} task rest hp hm := by
    have htasks (u : Task) (hu : u ∈ task :: rest) : u ∈ p.1.state.tasks := mem_tasks_of_mem_macrotasks (hm ▸ hu)
    refine related_modifyLoop hp (fun u w hw ↦ ?_) fun q hl ↦
      (tasks_within hp (htasks task List.mem_cons_self)).leads hl
    exact (mem_tasks_of_macrotasks hw).imp_right fun hw ↦ hp.1.held.tasks w (htasks w (List.mem_cons_of_mem task hw))
  start {p} task hp hj := by
    refine related_modifyLoop hp (fun u w hw ↦ ?_) fun q hl ↦ Correspondence.allValid.leads hj hl
    rcases mem_tasks_of_current hw with hw | hw
    · exact .inl hw
    · cases hw
      exact .inr ((Job.forall_references fun _ ↦ trivial).mp hj)
  finish {p} hp := by
    refine related_modifyLoop hp (fun u w hw ↦ .inl ?_) fun q hl v hv ↦ hl.within hv
    exact (mem_tasks_of_current hw).resolve_right nofun
  count hp := related_modifyLoop hp (fun _ _ ↦ .inl) fun _ _ ↦ trivial
  truncate _ hp := related_modifyLoop hp (fun _ _ ↦ .inl) fun _ _ ↦ trivial
  completeFetch address url hp _ := related_stored hp (storing_completeFetch address url) fun _ _ ↦ trivial
  settle target v hp _ hv := related_stored hp (storing_settle target hv) fun _ _ ↦ trivial
  adopt address target hp _ _ :=
    related_stored hp (storing_subscribe address (.adopt target) fun _ hv ↦ absurd hv List.not_mem_nil)
      fun _ _ ↦ trivial
  gather aggregate index v hp _ hv := related_stored hp (storing_gather aggregate index hv) fun _ _ ↦ trivial

end Correspondence.Scoping

/-- A run of a program from the start. -/
def Settings.run (settings : Settings) (depth : Nat) (program : Program) :
    EStateM.Result Stop (Machine Journal) Unit :=
  (Evaluator.ofDepth settings depth).program settings program .initial

namespace Machine

theorem initial_state : initial.state =
    { chain := [1], scopes := [⟨1, .global, Engine.globalScopeName, ∅, none⟩], lastId := 1 } := rfl

theorem lexical_initial : initial.state.Lexical := by
  rw [initial_state]
  have hscope (id : Nat) (scope : Scope)
      (h : State.scope? { scopes := [⟨1, .global, Engine.globalScopeName, ∅, none⟩] } id = some scope) :
      id = 1 ∧ scope = ⟨1, .global, Engine.globalScopeName, ∅, none⟩ := by
    have hmem := List.mem_singleton.mp (List.mem_of_find?_eq_some h)
    have hid := State.id_of_scope? h
    rw [hmem] at hid
    exact ⟨hid.symm, hmem⟩
  refine ⟨fun id scope h ↦ ?_, fun id scope h ↦ ?_, fun id scope h ↦ ?_, State.Lineage.root rfl rfl,
    fun id scope h _ ↦ ?_, List.forall_mem_nil _, List.forall_mem_nil _, List.forall_mem_nil _⟩ <;>
    obtain ⟨rfl, rfl⟩ := hscope id scope h
  · exact Nat.le_refl 1
  · exact iff_of_true rfl rfl
  · exact iff_of_true rfl rfl
  · exact List.forall_mem_nil _

end Machine

namespace Correspondence.Scoping

theorem holds_initial (exact : Prop) : (scoping exact).holds (.initial, .initial) :=
  ⟨Machine.lexical_initial, ⟨_, rfl, fun _ h ↦ h, fun _ ↦ rfl⟩, .nil, rfl⟩

theorem related_run {exact : Prop} {s t : Settings} (hs : s.names = .ofScopes) (hn : Faithful exact t.names)
    (hst : Prunes exact s t) (hceiling : t.ceiling = s.ceiling) (depth : Nat) (program : Program) :
    (scoping exact).Ends .task anything (.initial, .initial) (s.run depth program) (t.run depth program) :=
  (soundRun hs hn hst hceiling).program depth program (holds_initial exact) rfl

end Correspondence.Scoping

end Stepwise
