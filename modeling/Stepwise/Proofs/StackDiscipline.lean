import Stepwise.Proofs.Run.Returning
import Stepwise.Proofs.Run.Soundness
import Stepwise.Proofs.Run.Stacking
/-!
The discipline of the stacks. Whatever form a run evaluates, wherever that happens and however it
ends: the calls in progress and the open scopes are afterwards what they were before.
-/

namespace Stepwise

variable {α : Type}

/-- An activity that started on a machine leaves the calls in progress and the open scopes as they
were, however it ends, and does not fail to close a scope. -/
structure Restores (m : Machine Journal) (r : EStateM.Result Stop (Machine Journal) α) : Prop where
  frames : (after r).state.frames = m.state.frames
  chain : (after r).state.chain = m.state.chain
  noPop : ∀ n, r ≠ .error (.fault .popOfGlobalScope) n

/-- The scope that is closed behind an activity, however that ends, is a certain one. -/
def Removes (id : Nat) (r : EStateM.Result Stop (Machine Journal) α) : Prop :=
  ∃ s, Engine.popScope (after r).state = .ok id s

namespace Evaluator

/-- One iteration of a loop up to the renewal of its scope, whose number it gives. -/
def iteration (self : Evaluator) (condition : Option Expr) (body : Stmt) : Eval (Option Nat) := do
  if ← self.goesOn condition then
    self.stmt body
    return some (← Engine.renewScope)
  else return none

/-- The scopes that the iterations of a loop bring in, in their order. -/
def renewals (settings : Settings) (condition update : Option Expr) (body : Stmt) : Nat → Machine Journal → List Nat
  | 0, _ => []
  | n + 1, m =>
    match (ofDepth settings n).iteration condition body m with
    | .ok (some id) m => id ::
      match (ofDepth settings n).optional update m with
      | .ok _ m => renewals settings condition update body n m
      | .error _ _ => []
    | _ => []

/-- The same for a loop from its initializer on. -/
def loopRenewals (settings : Settings) (depth : Nat) (initializer : Initializer) (condition update : Option Expr)
    (body : Stmt) (m : Machine Journal) : List Nat :=
  match (ofDepth settings depth).startLoop initializer m with
  | .ok _ m => renewals settings condition update body depth m
  | .error _ _ => []

end Evaluator

open Evaluator in
/-- What is true of a machine on which the stacks are in order: every form can be evaluated there,
to any depth, and leaves them so. -/
structure Disciplined (settings : Settings) (m : Machine Journal) : Prop where
  expr : ∀ depth e, Restores m ((ofDepth settings depth).expr e m)
  stmt : ∀ depth x, Restores m ((ofDepth settings depth).stmt x m)
  call : ∀ depth f arguments line name, Restores m ((ofDepth settings depth).call f arguments line name m)
  /-- no return gets out of a call -/
  returns : ∀ depth f arguments line name v n,
    (ofDepth settings depth).call f arguments line name m ≠ .error (.returned v) n
  /-- behind a block its own scope is closed -/
  ofBlock : ∀ depth xs, ∃ id s, Engine.pushScope .block "block" none m.state = .ok id s ∧
    Removes id ((ofDepth settings depth).stmts xs { m with state := s })
  /-- behind a loop that renews its scope the last renewal is closed -/
  ofLoop : ∀ depth initializer condition update body,
    ∃ id s, Engine.pushScope .block "for" none m.state = .ok id s ∧
      Removes ((loopRenewals settings depth initializer condition update body { m with state := s }).getLastD id)
        ((do
          (ofDepth settings depth).startLoop initializer
          (ofDepth settings depth).loop true condition update body : Eval Unit) { m with state := s })
  /-- behind a call its own scope is closed -/
  ofCall : ∀ depth (f : Function) arguments line name, ∃ id s, enter f arguments line name m.state = .ok id s ∧
    Removes id (Eval.catchReturn (do
      (ofDepth settings depth).bindParams f.params arguments
      keepLocals id
      (ofDepth settings depth).body f.body) { m with state := s })

namespace Correspondence.Stacking

open State

variable {settings : Settings} {m : Machine Journal}

theorem habitRun_true : HabitRun (fun _ _ ↦ True) fun _ _ ↦ True := by
  have hfollows {α : Type} (x : Engine α) : Machine.Follows (fun _ _ ↦ True) (fun _ _ ↦ True) x :=
    ⟨fun _ _ _ _ ↦ trivial, fun _ _ _ _ ↦ trivial⟩
  constructor
  · constructor <;> intros <;> first | trivial | exact hfollows _
  all_goals intros; first | trivial | exact hfollows _

theorem Kept.restores {R S : Machine Journal → Machine Journal → Prop} {k : Stretch}
    {r : EStateM.Result Stop (Machine Journal) α} (h : Kept R S k m r) (hbody : k ≠ .body)
    (hiteration : k ≠ .iteration) : Restores m r := ⟨h.stays.frames hbody, h.stays.chain hiteration, h.raises⟩

theorem removes_of_chain {id : Nat} {chain : List Nat} {r : EStateM.Result Stop (Machine Journal) α}
    (h : (after r).state.chain = id :: chain) (hchain : chain ≠ []) : Removes id r := by
  obtain ⟨outer, rest, rfl⟩ := List.exists_cons_of_ne_nil hchain
  exact ⟨_, Engine.popScope_apply h⟩

/-- What holds where an activity ends, and what holds where it stops. -/
def Meets (x : Eval α) (m : Machine Journal) (P : α → Machine Journal → Prop) (Q : Machine Journal → Prop) : Prop :=
  match x m with
  | .ok a n => P a n
  | .error _ n => Q n

theorem Meets.bind {β : Type} {x : Eval α} {f : α → Eval β} {P : α → Machine Journal → Prop}
    {P' : β → Machine Journal → Prop} {Q : Machine Journal → Prop} (h : Meets x m P Q)
    (hf : ∀ a n, P a n → Meets (f a) n P' Q) : Meets (x >>= f) m P' Q := by
  unfold Meets at h ⊢
  rw [bind_apply]
  cases hx : x m with
  | ok a n =>
    rw [hx] at h
    exact hf a n h
  | error stop n =>
    rw [hx] at h
    exact h

theorem Kept.meets {R S : Machine Journal → Machine Journal → Prop} {x : Eval α} {k : Stretch} (h : Kept R S k m (x m))
    (hk : k ≠ .iteration) : Meets x m (fun _ n ↦ n.state.Grounded ∧ n.state.chain = m.state.chain)
      (fun n ↦ n.state.chain = m.state.chain) := by
  have hchain := h.stays.chain hk
  have hgrounded := h.grounded
  unfold Meets
  cases hx : x m with
  | ok a n =>
    rw [hx] at hchain hgrounded
    exact ⟨hgrounded, hchain⟩
  | error stop n =>
    rw [hx] at hchain
    exact hchain

section Grounded

variable (hs : settings.names = .ofScopes) {id : Nat} {rest : List Nat} (condition update : Option Expr) (body : Stmt)
include hs

/-- Up to a renewal an iteration leaves the innermost scope, and then the renewed one is there. -/
theorem meets_iteration (depth : Nat) (hm : m.state.Grounded) (hchain : m.state.chain = id :: rest)
    (hrest : rest ≠ []) :
    Meets ((Evaluator.ofDepth settings depth).iteration condition body) m
      (fun new n ↦ n.state.Grounded ∧ n.state.chain = new.getD id :: rest) (fun n ↦ n.state.chain = id :: rest) := by
  have hsound := sound habitRun_true.toHabit hs
  have hparts := hsound.parts depth
  have hgoesOn := (kept hm (hparts.goesOn hsound condition)).meets (by decide)
  rw [hchain] at hgoesOn
  refine hgoesOn.bind fun goesOn n hn ↦ ?_
  cases goesOn with
  | false => exact hn
  | true =>
    have hstmt := (kept hn.1 (hparts.stmt body)).meets (by decide)
    rw [hn.2] at hstmt
    refine Meets.bind hstmt fun _ n' hn' ↦ ?_
    have htail : n'.state.chain.tail = rest := by rw [hn'.2, List.tail_cons]
    obtain ⟨scopes, hrenew, hids⟩ := Engine.exists_renewScope hn'.1 (htail ▸ hrest)
    rw [htail] at hrenew
    have happly : (liftM Engine.renewScope : Eval Nat) n' = .ok _ _ := Activity.ofEngine_apply hrenew
    unfold Meets
    rw [bind_apply, happly]
    have hnew : n'.state.lastId + 1 ∈ scopes.map (·.id) := hids ▸ List.mem_cons_self
    have hsub : n'.state.scopeIds ⊆ scopes.map (·.id) := fun _ hid ↦ hids ▸ List.mem_cons_of_mem _ hid
    refine ⟨⟨List.cons_ne_nil _ _, List.cons_subset.mpr ⟨hnew, fun i hi ↦ hsub (hn'.1.known ?_)⟩⟩, rfl⟩
    exact hn'.2 ▸ List.mem_cons_of_mem id hi

omit hs in
theorem evalLoop_eq (self : Evaluator) : self.evalLoop true condition update body =
    self.iteration condition body >>= fun new ↦ if new.isSome then
      self.optional update >>= fun _ ↦ self.loop true condition update body else pure () := by
  funext m
  unfold Evaluator.evalLoop Evaluator.iteration
  rw [bind_apply, bind_apply, bind_apply]
  cases self.goesOn condition m with
  | error stop n => rfl
  | ok goesOn n =>
    cases goesOn with
    | false => rfl
    | true =>
      simp only [if_true, bind_apply]
      cases self.stmt body n with
      | error stop n' => rfl
      | ok _ n' =>
        dsimp only
        cases (liftM Engine.renewScope : Eval Nat) n' <;> rfl

/-- Behind the iterations of a loop the scope of the last renewal is the innermost one. -/
theorem chain_loop (depth : Nat) (hm : m.state.Grounded) (hchain : m.state.chain = id :: rest) (hrest : rest ≠ []) :
    (after ((Evaluator.ofDepth settings depth).loop true condition update body m)).state.chain =
      (Evaluator.renewals settings condition update body depth m).getLastD id :: rest := by
  -- each iteration uses up one level of depth and leaves another innermost scope to the next one
  induction depth generalizing m id with
  | zero => exact hchain
  | succ depth ih =>
    have hsound := sound habitRun_true.toHabit hs
    have hloop : (Evaluator.ofDepth settings (depth + 1)).loop true condition update body m =
        (Evaluator.ofDepth settings depth).evalLoop true condition update body m := rfl
    have hiteration := meets_iteration hs condition body depth hm hchain hrest
    rw [hloop, evalLoop_eq, bind_apply]
    unfold Evaluator.renewals
    unfold Meets at hiteration
    cases hi : (Evaluator.ofDepth settings depth).iteration condition body m with
    | error stop n =>
      rw [hi] at hiteration
      exact hiteration
    | ok new n =>
      rw [hi] at hiteration
      cases new with
      | none => exact hiteration.2
      | some new =>
        have hupdate := (kept hiteration.1 (((hsound.parts depth).optional hsound) update)).meets (by decide)
        unfold Meets at hupdate
        dsimp only
        rw [Option.isSome_some, if_pos rfl, bind_apply, List.getLastD_cons]
        cases ho : (Evaluator.ofDepth settings depth).optional update n with
        | error stop n' =>
          rw [ho] at hupdate
          exact hupdate.trans hiteration.2
        | ok _ n' =>
          rw [ho] at hupdate
          exact ih hupdate.1 (hupdate.2.trans hiteration.2)

theorem chain_forLoop (initializer : Initializer) (depth : Nat) (hm : m.state.Grounded)
    (hchain : m.state.chain = id :: rest) (hrest : rest ≠ []) :
    (after (((Evaluator.ofDepth settings depth).startLoop initializer >>= fun _ ↦
        (Evaluator.ofDepth settings depth).loop true condition update body) m)).state.chain =
      (Evaluator.loopRenewals settings depth initializer condition update body m).getLastD id :: rest := by
  have hstart := (kept hm (((sound habitRun_true.toHabit hs).parts depth).startLoop initializer)).meets (by decide)
  unfold Meets at hstart
  unfold Evaluator.loopRenewals
  rw [bind_apply]
  cases hi : (Evaluator.ofDepth settings depth).startLoop initializer m with
  | error stop n =>
    rw [hi] at hstart
    exact hstart.trans hchain
  | ok _ n =>
    rw [hi] at hstart
    exact chain_loop hs condition update body depth hstart.1 (hstart.2.trans hchain) hrest

end Grounded

theorem Disciplined.of_grounded (hs : settings.names = .ofScopes) (hm : m.state.Grounded) : Disciplined settings m := by
  have hsound := sound habitRun_true.toHabit hs
  have hparts := hsound.parts
  have hopen (scope : Scope) (frames : List Frame) : (m.state.openScope scope m.state.chain frames).Grounded :=
    Grounded.openScope hm scope frames
  refine ⟨fun depth e ↦ ?_, fun depth x ↦ ?_, fun depth f vs line name ↦ ?_, fun depth f vs line name ↦ ?_,
    fun depth xs ↦ ?_, fun depth i c u b ↦ ?_, fun depth f vs line name ↦ ?_⟩
  · exact (kept hm ((hparts depth).expr e)).restores (by decide) (by decide)
  · exact (kept hm ((hparts depth).stmt x)).restores (by decide) (by decide)
  · have hcall := kept hm fun hp ↦ (hparts depth).call f vs line name hp trivial fun _ _ ↦ trivial
    exact hcall.restores (by decide) (by decide)
  · exact Evaluator.neverReturns_call settings depth f vs line name m
  · refine ⟨_, _, Engine.pushScope_apply _ _ _ _, removes_of_chain ?_ hm.opened⟩
    exact (kept (m := ⟨_, m.journal⟩) (hopen _ _) ((hparts depth).stmts xs)).stays.chain (by decide)
  · refine ⟨_, _, Engine.pushScope_apply _ _ _ _, removes_of_chain ?_ hm.opened⟩
    exact chain_forLoop hs c u b i depth (hopen _ _) rfl hm.opened
  · refine ⟨_, _, Evaluator.enter_apply _ _ _ _ _, removes_of_chain ?_ hm.opened⟩
    have hbody (scope : Nat) {n : Machine Journal} (hn : n.state.Grounded) :=
      kept hn fun hp ↦ ((hparts depth).callBody hsound f vs scope hp trivial fun _ _ ↦ trivial).catchReturn
    exact (hbody _ (n := ⟨_, m.journal⟩) (hopen _ _)).stays.chain (by decide)

end Correspondence.Stacking

open Classical in
/-- An evaluator that goes one way on machines where a condition holds and another way elsewhere. -/
noncomputable def Evaluator.inCase (P : Machine Journal → Prop) (a b : Evaluator) : Evaluator where
  names := a.names
  expr e m := if P m then a.expr e m else b.expr e m
  stmt x m := if P m then a.stmt x m else b.stmt x m
  loop r c u x m := if P m then a.loop r c u x m else b.loop r c u x m
  call f vs line name m := if P m then a.call f vs line name m else b.call f vs line name m

/-- The evaluator of a depth that goes another way wherever a form is to be evaluated on a machine
for which a condition does not hold. -/
noncomputable def Evaluator.watched (P : Machine Journal → Prop) (other : Evaluator) (settings : Settings) :
    Nat → Evaluator
  | 0 => exhausted settings.names
  | n + 1 => inCase P ((watched P other settings n).next settings) other

/-- Wherever a correspondence holds the condition does, and the other way is not taken. -/
theorem Correspondence.Sound.watched {L : Correspondence} {settings : Settings} {P : Machine Journal → Prop}
    (h : L.Sound settings settings) (hP : ∀ {p}, L.holds p → P p.2) (other : Evaluator) (depth : Nat) :
    L.Parts settings settings (Evaluator.ofDepth settings depth) (Evaluator.watched P other settings depth) := by
  induction depth with
  | zero => exact L.parts_exhausted settings settings
  | succ n ih =>
    have hnext := ih.next h
    rw [Evaluator.ofDepth_succ]
    refine ⟨hnext.names, fun e hp ↦ ?_, fun x hp ↦ ?_, fun r c u x hp hr ↦ ?_, fun f vs line name hp hf hvs ↦ ?_⟩
    · exact Related.congr (if_pos (hP hp)) (hnext.expr e hp)
    · exact Related.congr (if_pos (hP hp)) (hnext.stmt x hp)
    · exact Related.congr (if_pos (hP hp)) (hnext.loop r c u x hp hr)
    · exact Related.congr (if_pos (hP hp)) (hnext.call f vs line name hp hf hvs)

theorem Correspondence.Stacking.parts_watched {R S : Machine Journal → Machine Journal → Prop} (hR : Habit R S)
    {settings : Settings} {P : Machine Journal → Prop} (hs : settings.names = .ofScopes)
    (hP : ∀ m : Machine Journal, m.state.Grounded → P m) (other : Evaluator) (depth : Nat) :
    (stacking hR).Parts settings settings (Evaluator.ofDepth settings depth)
      (Evaluator.watched P other settings depth) := by
  refine (sound hR hs).watched (fun hp ↦ ?_) other depth
  obtain ⟨m, rfl, hm⟩ := exists_of_holds hp
  exact hP m hm

open Correspondence.Stacking in
/-- The stacks are in order wherever a run evaluates a form: what would be done on other machines
makes no difference, since a run never comes to one. No return gets out of the top level, and no
run fails to close a scope. -/
theorem run_disciplined (ceiling : Int) (prunes : Bool) (other : Evaluator) (depth : Nat) (program : Program) :
    let settings : Settings := { ceiling, prunes }
    (Evaluator.watched (Disciplined settings) other settings depth).program settings program .initial =
      settings.run depth program ∧
    Restores .initial ((Evaluator.ofDepth settings depth).topLevel program .initial) ∧
    (∀ v m, (Evaluator.ofDepth settings depth).topLevel program .initial ≠ .error (.returned v) m) ∧
    Restores .initial (settings.run depth program) ∧ ∀ v m, settings.run depth program ≠ .error (.returned v) m := by
  intro settings
  have hs : settings.names = .ofScopes := rfl
  have hm : Machine.initial.state.Grounded := ⟨List.cons_ne_nil _ _, List.Subset.refl _⟩
  have hsound := soundRun habitRun_true hs
  have hhabit := habitRun_true.toHabit
  have hwatched := parts_watched hhabit hs (fun m hm ↦ Disciplined.of_grounded hs hm) other depth
  have hrun := kept_of_ends (hwatched.program hsound program ⟨rfl, hm⟩ rfl)
  have htop := kept hm ((hsound.parts depth).topLevel hsound program)
  have hcalls := Evaluator.neverReturns_call settings depth
  exact ⟨hrun.1, htop.restores (by decide) (by decide), Evaluator.neverReturns_topLevel _ program .initial,
    hrun.2.restores (by decide) (by decide), Evaluator.neverReturns_program hcalls settings program .initial⟩

end Stepwise
