import Stepwise.Proofs.Run.Conduct
import Stepwise.Proofs.State.Sealing
/-!
What becomes of a sealed scope. Evaluations leave it alone, to whatever depth, but for the calls of functions that
captured it.
-/

namespace Stepwise

variable {α : Type} {i : Nat} {Q : Option Scope → Prop} {settings : Settings}

/-- A scope is sealed, and what there is under its number meets a condition. -/
def Machine.SealedAs (i : Nat) (Q : Option Scope → Prop) (m : Machine Journal) : Prop :=
  m.state.Sealed i ∧ Q (m.state.scope? i)

/-- An activity that keeps a condition on machines, however it ends. -/
abbrev Eval.Keeps (P : Machine Journal → Prop) (x : Eval α) : Prop := Conducts (fun m n ↦ P m → P n) x

theorem Machine.sequential_of (P : Machine Journal → Prop) : Machine.Sequential fun m n ↦ P m → P n :=
  ⟨fun _ ↦ id, fun h h' ↦ h' ∘ h⟩

namespace Machine.SealedAs

variable {m n : Machine Journal}

theorem of_bypasses (hm : m.SealedAs i Q)
    (h : m.state.Sealed i → State.Bypasses i m.state n.state) : n.SealedAs i Q := by
  have hn := h hm.1
  exact ⟨hn.sealed, hn.scope ▸ hm.2⟩

theorem ofEngine {x : Engine α} (hm : m.SealedAs i Q)
    (h : m.state.Sealed i → State.Bypasses i m.state (after (x m.state))) :
    (after (Activity.ofEngine x m)).SealedAs i Q := by
  refine hm.of_bypasses fun hs ↦ ?_
  have hx := h hs
  unfold Activity.ofEngine
  cases hr : x m.state with
  | ok a t =>
    rw [hr] at hx
    exact hx
  | error f t =>
    rw [hr] at hx
    exact hx

end Machine.SealedAs

namespace Evaluator

/-- The evaluator of a depth where other calls stand in for those of functions that captured a scope. -/
def leaving (i : Nat) (other : Nat → Function → List Value → Int → String → Eval Value) (settings : Settings) : Nat → Evaluator
  | 0 => exhausted settings.names
  | n + 1 =>
    let self := leaving i other settings n
    { self.next settings with
      call := fun f arguments line name ↦
        if i ∈ f.closure then other n f arguments line name else self.evalCall f arguments line name }

/-- Nothing is different where the calls stand in for themselves. -/
theorem leaving_evalCall (i : Nat) (settings : Settings) (depth : Nat) :
    leaving i (fun n ↦ (ofDepth settings n).evalCall) settings depth = ofDepth settings depth := by
  induction depth with
  | zero => rfl
  | succ n ih =>
    rw [leaving, ih, ofDepth_succ]
    simp only [ite_self]
    rfl

/-- Whatever a run may do with an evaluator keeps a condition on machines. -/
structure Retains (settings : Settings) (P : Machine Journal → Prop) (self : Evaluator) : Prop where
  expr : ∀ e, Eval.Keeps P (self.expr e)
  stmt : ∀ x, Eval.Keeps P (self.stmt x)
  loop : ∀ perIteration condition update body, Eval.Keeps P (self.loop perIteration condition update body)
  call : ∀ f arguments line name, Eval.Keeps P (self.call f arguments line name)
  renewScope : Eval.Keeps P (liftM Engine.renewScope : Eval Nat)
  closeScope : Eval.Keeps P (liftM (Engine.popScope >>= fun _ ↦ pure ()) : Eval Unit)
  leave : Eval.Keeps P (liftM leave : Eval Unit)
  task : ∀ t, Eval.Keeps P (self.task settings t)
  drain : Eval.Keeps P (Activity.drain settings.ceiling (self.task settings))
  program : ∀ p, Eval.Keeps P (self.program settings p)

end Evaluator

namespace Eval.Conducts

open State Engine

theorem of_bypassing {x : Engine α} (h : Bypassing i x) : Keeps (Machine.SealedAs i Q) (liftM x : Eval α) :=
  fun m hm ↦ hm.ofEngine (h m.state)

theorem of_storing {x : Engine α} {A : α → Prop} (h : Storing (fun _ ↦ True) x A) :
    Keeps (Machine.SealedAs i Q) (liftM x : Eval α) := of_bypassing h.bypassing

end Eval.Conducts

namespace Evaluator

open Correspondence Correspondence.Conducting Engine State

theorem keeps_declareAs (kind : BindingKind) (name : String) (v : Value) :
    Eval.Keeps (Machine.SealedAs i Q) (Eval.declareAs .ofScopes kind name v) := by
  unfold Eval.declareAs
  split
  · simp only [bind_map_left]
    rw [Names.functionScope_eq]
    intro m hm
    rw [bind_apply]
    unfold Eval.reading
    cases hid : m.state.functionScope with
    | error f => exact hm
    | ok id => exact hm.ofEngine fun hs ↦ bypassing_declare name v kind hs fun _ h ↦
        Option.some.inj h ▸ hm.1.ne_of_functionScope hid
  · exact fun m hm ↦ hm.ofEngine fun hs ↦ bypassing_declare name v kind hs nofun

theorem keeps_prune (settings : Settings) : Eval.Keeps (Machine.SealedAs i Q) (Eval.prune settings) := by
  intro m hm
  rw [Eval.prune_apply]
  cases settings.prunes with
  | false => exact hm
  | true => exact hm.of_bypasses fun hs ↦ hs.bypasses_of_eq rfl rfl rfl (Nat.le_refl _)

theorem operations_sealed : Operations fun m n ↦ m.SealedAs i Q → n.SealedAs i Q where
  sequential := Machine.sequential_of _
  record _ _ _ _ _ := id
  report _ _ _ := id
  declare name v kind := Eval.Conducts.of_bypassing fun _ hs ↦ bypassing_declare name v kind hs nofun
  declareAs := keeps_declareAs
  assign name v := Eval.Conducts.of_bypassing (bypassing_assign name v)
  capture := Eval.Conducts.of_bypassing bypassing_capture
  freshIdentity := Eval.Conducts.of_storing storing_freshIdentity
  newArray _ := Eval.Conducts.of_storing (storing_newArray fun v _ ↦ within_anything v)
  newObject _ := Eval.Conducts.of_storing (storing_newObject fun v _ ↦ within_anything v)
  setProperty receiver key v := Eval.Conducts.of_storing (storing_setProperty receiver key (within_anything v))
  say level content := Eval.Conducts.of_storing (storing_say level content)
  timer _ _ line := Eval.Conducts.of_storing (storing_schedule .macrotask _ _ line fun v _ ↦ within_anything v)
  fetch url line := Eval.Conducts.of_storing (storing_fetch url line)
  all _ := Eval.Conducts.of_storing (storing_all fun v _ ↦ within_anything v)
  race _ := Eval.Conducts.of_storing (storing_race fun v _ ↦ within_anything v)
  chain address _ := Eval.Conducts.of_storing (storing_chain address fun _ _ ↦ trivial)
  pushScope name := Eval.Conducts.of_bypassing (bypassing_pushScope .block name none)
  closeScope := Eval.Conducts.of_bypassing bypassing_closeScope
  renewScope := Eval.Conducts.of_bypassing bypassing_renewScope
  keepLocals scope := Eval.Conducts.of_bypassing (bypassing_keepLocals scope)
  prune := keeps_prune

section Leaving

variable {other : Nat → Function → List Value → Int → String → Eval Value}

theorem parts_leaving (hs : settings.names = .ofScopes)
    (hother : ∀ n f arguments line name, i ∈ f.closure → Eval.Keeps (Machine.SealedAs i Q) (other n f arguments line name))
    (depth : Nat) :
    (leading (Machine.sequential_of (Machine.SealedAs i Q))).Parts settings settings (leaving i other settings depth)
      (leaving i other settings depth) := by
  have h := (operations_sealed (i := i) (Q := Q)).soundForms hs
  induction depth with
  | zero => exact parts_exhausted _ settings settings
  | succ n ih =>
    refine ⟨ih.names, fun e hp ↦ ih.evalExpr h e hp, fun x hp ↦ ih.evalStmt h x hp,
      fun r c u x hp hr ↦ ih.evalLoop h r c u x hp hr, fun f vs line name hp _ _ ↦ .ite (fun hf ↦ ?_) fun hf ↦ ?_⟩
    · exact related hp (hother n f vs line name hf) fun _ _ ↦ trivial
    · have hbody (scope : Nat) {q : Machines} (hq : q.2 = q.1) :=
        (ih.callBody h f vs scope hq trivial fun _ _ ↦ trivial).catchReturn
      exact related_between hp (Eval.Conducts.of_bypassing (bypassing_enter hf vs line _))
        (Eval.Conducts.of_bypassing bypassing_leave) (fun scope _ hq ↦ hbody scope hq) fun _ _ ↦ trivial

/-- Whatever is done keeps a sealed scope as it is, as far as calls of functions that captured it do. -/
theorem retains_leaving (hs : settings.names = .ofScopes)
    (hother : ∀ n f arguments line name, i ∈ f.closure → Eval.Keeps (Machine.SealedAs i Q) (other n f arguments line name))
    (depth : Nat) : Retains settings (Machine.SealedAs i Q) (leaving i other settings depth) := by
  have h := (operations_sealed (i := i) (Q := Q)).soundForms hs
  have hparts := parts_leaving hs hother depth
  have hR := Machine.sequential_of (Machine.SealedAs i Q)
  have hcall f vs line name : Eval.Keeps (Machine.SealedAs i Q) ((leaving i other settings depth).call f vs line name) :=
    conducts fun _ hp ↦ hparts.call f vs line name hp trivial fun _ _ ↦ trivial
  have htask (t : Task) : Eval.Keeps (Machine.SealedAs i Q) ((leaving i other settings depth).task settings t) := by
    have hrecord : Eval.Keeps (Machine.SealedAs i Q) (Eval.record t.line 0 t.title) := fun _ hm ↦ hm
    have hjob := Eval.Conducts.job hR hcall (fun address url ↦ .of_storing (storing_completeFetch address url))
      (fun derived v ↦ .of_storing (storing_conclude derived (within_anything v)))
      (fun aggregate index v ↦ .of_storing (storing_gather aggregate index (within_anything v)))
      (fun target v ↦ .of_storing (storing_settle target (within_anything v)))
    exact hrecord.bind hR fun _ ↦ (hjob t.line t.job).bind hR fun _ ↦ keeps_prune settings
  have hloop (g : EventLoop → EventLoop) : Eval.Keeps (Machine.SealedAs i Q) (liftM (Engine.modifyLoop g) : Eval Unit) :=
    Eval.Conducts.of_storing (storing_modifyLoop fun _ _ ↦ holding_anything _)
  have hdrain := Eval.Conducts.drain hR hloop htask settings.ceiling
  exact {
    expr := fun e ↦ conducts fun _ hp ↦ hparts.expr e hp
    stmt := fun x ↦ conducts fun _ hp ↦ hparts.stmt x hp
    loop := fun r c u x ↦ conducts fun _ hp ↦ hparts.loop r c u x hp fun _ ↦ trivial
    call := hcall
    renewScope := .of_bypassing bypassing_renewScope
    closeScope := .of_bypassing bypassing_closeScope
    leave := .of_bypassing bypassing_leave
    task := htask
    drain := hdrain
    program := fun p ↦
      (conducts fun _ hp ↦ h.topLevel hparts p hp).bind hR fun _ ↦ hdrain.bind hR fun _ ↦ keeps_prune settings }

end Leaving

open Correspondence.Stacking in
/-- Numbers that were given away stay given away. -/
theorem habit_lastId : Habit (fun m n ↦ m.state.lastId ≤ n.state.lastId) fun m n ↦ m.state.lastId ≤ n.state.lastId := by
  have hstoring {α : Type} {x : Engine α} {A : α → Prop} (hx : Storing (fun _ ↦ True) x A) :
      Machine.Follows (fun m n ↦ m.state.lastId ≤ n.state.lastId) (fun m n ↦ m.state.lastId ≤ n.state.lastId) x :=
    .of_after id fun m ↦ (hx.develops (holding_anything m.state)).lastId
  exact {
    refl := fun _ ↦ Nat.le_refl _
    trans := Nat.le_trans
    weaken := id
    trans_weak := Nat.le_trans
    apart := State.Apart.lastId
    record := fun _ _ _ _ _ ↦ Nat.le_refl _
    report := fun _ _ _ ↦ Nat.le_refl _
    timer := fun f arguments line ↦
      hstoring (storing_schedule .macrotask _ (.call f arguments) line fun v _ ↦ within_anything v)
    fetch := fun url line ↦ hstoring (storing_fetch url line)
    all := fun _ ↦ hstoring (storing_all fun v _ ↦ within_anything v)
    race := fun _ ↦ hstoring (storing_race fun v _ ↦ within_anything v)
    chain := fun address _ ↦ hstoring (storing_chain address fun _ _ ↦ trivial) }

/-- Behind a call, whichever it is, a scope is sealed that was sealed before. -/
theorem keeps_evalCall (hs : settings.names = .ofScopes) (depth : Nat) (f : Function) (arguments : List Value)
    (line : Int) (name : String) :
    Eval.Keeps (Machine.SealedAs i fun _ ↦ True) ((ofDepth settings depth).evalCall f arguments line name) := by
  intro m hm
  have hsound := Correspondence.Stacking.sound habit_lastId hs
  have hkept := Correspondence.Stacking.kept hm.1.grounded fun hp ↦
    (hsound.parts depth).evalCall hsound f arguments line name hp trivial fun _ _ ↦ trivial
  refine ⟨⟨hkept.grounded, hm.1.made.trans hkept.strays, ?_, ?_⟩, trivial⟩
  · rw [hkept.stays.chain (by decide)]
    exact hm.1.closed
  · rw [hkept.stays.frames (by decide)]
    exact hm.1.uncaptured

/-- What is true of the scope of a number wherever it is sealed: nothing changes it but calls of functions that captured
it. -/
structure Seals (settings : Settings) (i : Nat) : Prop where
  /-- whatever stands in for those calls, and whichever condition on the scope they keep, all that a run does keeps it;
  where nothing is done in their place the scope stays the same -/
  spared : ∀ (Q : Option Scope → Prop) (other : Nat → Function → List Value → Int → String → Eval Value),
    (∀ n f arguments line name, i ∈ f.closure → Eval.Keeps (Machine.SealedAs i Q) (other n f arguments line name)) →
    ∀ depth, Retains settings (Machine.SealedAs i Q) (leaving i other settings depth)
  /-- among those calls are the ones of a run itself -/
  itself : ∀ depth, leaving i (fun n ↦ (ofDepth settings n).evalCall) settings depth = ofDepth settings depth
  /-- and behind them the scope is sealed again -/
  again : ∀ depth, Retains settings (Machine.SealedAs i fun _ ↦ True) (ofDepth settings depth)

theorem seals (hs : settings.names = .ofScopes) (i : Nat) : Seals settings i where
  spared _ _ hother depth := retains_leaving hs hother depth
  itself := leaving_evalCall i settings
  again depth := by
    rw [← leaving_evalCall i settings depth]
    exact retains_leaving hs (fun n f arguments line name _ ↦ keeps_evalCall hs n f arguments line name) depth

end Evaluator

end Stepwise
