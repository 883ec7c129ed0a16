import Stepwise.Proofs.Run.Soundness
import Stepwise.Proofs.Run.Stacking
/-!
What single operations do to any machine, evaluations of forms do to any machine. No order of the
stacks is asked for: where they are not in order an evaluation fails, and has done no more up to
there.
-/

namespace Stepwise

namespace State

variable {s t u : State}

theorem Apart.trans (h : s.Apart t) (h' : t.Apart u) : s.Apart u where
  promises := h'.promises.trans h.promises
  loop := h'.loop.trans h.loop
  console := h.console.trans h'.console
  lastId := h.lastId.trans h'.lastId
  fresh n hn hs := h'.fresh n hn (h.fresh n (h'.lastId.trans_lt hn) hs)

end State

namespace Engine

variable {α β : Type} {x : Engine α} {f : α → Engine β}

theorem apart_seq (hx : ∀ s : State, s.Apart (after (x s))) (hf : ∀ a (s : State), s.Apart (after (f a s)))
    (s : State) : s.Apart (after ((x >>= f) s)) := by
  have h := hx s
  rw [bind_apply]
  cases hr : x s with
  | ok a t =>
    rw [hr] at h
    exact h.trans (hf a t)
  | error e t =>
    rw [hr] at h
    exact h

theorem apart_pushScope (kind : ScopeKind) (name : String) (parent : Option Nat) (s : State) :
    s.Apart (after (pushScope kind name parent s)) := .of_scoping (Nat.le_succ _)

theorem apart_popScope (s : State) : s.Apart (after (popScope s)) := by
  unfold popScope
  rw [bind_apply, get_apply]
  dsimp only
  rcases s.chain with _ | ⟨id, _ | ⟨outer, rest⟩⟩
  · exact .refl s
  · exact .refl s
  · exact .of_scoping (Nat.le_refl _)

theorem apart_renewScope (s : State) : s.Apart (after (renewScope s)) := by
  refine apart_seq apart_popScope (fun id s ↦ ?_) s
  rw [bind_apply, get_apply]
  dsimp only
  cases s.scope? id with
  | none => exact .refl s
  | some old =>
    have hrest (fresh : Nat) := apart_seq (x := modify fun s : State ↦
      s.updateScope fresh fun scope ↦ { scope with bindings := old.bindings }) (f := fun _ ↦ pure fresh)
      (fun s ↦ .of_scoping (Nat.le_refl _)) fun _ s ↦ .refl s
    exact apart_seq (apart_pushScope _ _ _) hrest s

theorem apart_closeScope (s : State) : s.Apart (after ((popScope >>= fun _ ↦ pure () : Engine Unit) s)) := by
  refine apart_seq apart_popScope (fun _ s ↦ ?_) s
  exact .refl s

end Engine

namespace Evaluator

theorem apart_enter (f : Function) (arguments : List Value) (line : Int) (name : String) (s : State) :
    s.Apart (after (enter f arguments line name s)) := by
  rw [enter_apply]
  exact .of_scoping (s.lt_callScope f name).le

theorem apart_leave (s : State) : s.Apart (after (leave s)) :=
  Engine.apart_seq Engine.apart_popScope (fun _ s ↦ .of_scoping (Nat.le_refl s.lastId)) s

theorem apart_keepLocals (scope : Nat) (s : State) : s.Apart (after (keepLocals scope s)) := by
  obtain ⟨frames, h, -⟩ := keepLocals_apply scope s
  rw [h]
  exact .of_scoping (Nat.le_refl _)

end Evaluator

variable {R : Machine Journal → Machine Journal → Prop} {α β : Type}

/-- A relation that holds where nothing is done, and where one thing is done after another if it does for each. -/
structure Machine.Sequential (R : Machine Journal → Machine Journal → Prop) : Prop where
  refl : ∀ m, R m m
  trans : ∀ {l m n}, R l m → R m n → R l n

theorem Habit.sequential {S : Machine Journal → Machine Journal → Prop} (hR : Habit R S) : Machine.Sequential R :=
  ⟨hR.refl, hR.trans⟩

/-- An activity that takes any machine to a related one, however it ends. -/
def Eval.Conducts (R : Machine Journal → Machine Journal → Prop) (x : Eval α) : Prop := ∀ m, R m (after (x m))

namespace Eval.Conducts

variable {x : Eval α}

theorem bind {f : α → Eval β} (hR : Machine.Sequential R) (hx : Conducts R x) (hf : ∀ a, Conducts R (f a)) :
    Conducts R (x >>= f) := by
  intro m
  have h := hx m
  rw [bind_apply]
  cases hr : x m with
  | ok a n =>
    rw [hr] at h
    exact hR.trans h (hf a n)
  | error stop n =>
    rw [hr] at h
    exact h

theorem pure (hR : Machine.Sequential R) (a : α) : Conducts R (Pure.pure a) := hR.refl

theorem ite {c : Prop} [Decidable c] {y : Eval α} (hx : Conducts R x) (hy : Conducts R y) :
    Conducts R (if c then x else y) := by
  split
  · exact hx
  · exact hy

theorem closing {close : Engine Unit} (hR : Machine.Sequential R) (hx : Conducts R x)
    (hclose : Conducts R (liftM close : Eval Unit)) : Conducts R (Activity.closing x close) := by
  intro m
  have hafter : after (Activity.closing x close m) = after (Activity.ofEngine close (after (x m))) := by
    unfold Activity.closing
    cases x m with
    | ok a n =>
      dsimp only [after]
      cases Activity.ofEngine close n <;> rfl
    | error stop n =>
      dsimp only [after]
      cases Activity.ofEngine close n <;> rfl
  rw [hafter]
  exact hR.trans (hx m) (hclose _)

theorem of_follows {x : Engine α} (h : Machine.Follows R R x) : Conducts R (liftM x : Eval α) := by
  intro m
  change R m (after (Activity.ofEngine x m))
  unfold Activity.ofEngine
  cases hr : x m.state with
  | ok a t => exact h.ends m a t hr
  | error f t => exact h.fails m f t hr

theorem of_apart (hR : Habit R R) {x : Engine α} (h : ∀ s : State, s.Apart (after (x s))) :
    Conducts R (liftM x : Eval α) := of_follows (hR.follows h)

theorem reading (hR : Machine.Sequential R) (e : State → Except Fault α) : Conducts R (Eval.reading e) := by
  intro m
  unfold Eval.reading
  cases e m.state <;> exact hR.refl m

theorem prune (hR : Habit R R) (settings : Settings) : Conducts R (Eval.prune settings) := by
  intro m
  rw [Eval.prune_apply]
  cases settings.prunes with
  | false => exact hR.refl m
  | true => exact hR.apart (.of_scoping (Nat.le_refl _))

section Work

variable (hR : Machine.Sequential R) {execute : Task → Eval Unit}
include hR

/-- A job is a call at most, and settles promises. -/
theorem job {self : Evaluator} (hcall : ∀ f arguments line name, Conducts R (self.call f arguments line name))
    (hfetched : ∀ address url, Conducts R (liftM (Engine.completeFetch address url) : Eval Unit))
    (hconclude : ∀ derived v, Conducts R (liftM (Engine.conclude derived v) : Eval Unit))
    (hgather : ∀ aggregate index v, Conducts R (liftM (Engine.gather aggregate index v) : Eval Unit))
    (hsettle : ∀ target v, Conducts R (liftM (Engine.settle target v) : Eval Unit)) (line : Int) (job : Job) :
    Conducts R (self.job line job) := by
  cases job with
  | call f arguments => exact (hcall f arguments line "").bind hR fun _ ↦ .pure hR ()
  | fetched address url => exact hfetched address url
  | react reaction v =>
    cases reaction with
    | handle handler derived =>
      cases handler with
      | none => exact hconclude derived v
      | some f => exact (hcall f [v] 0 "").bind hR (hconclude derived)
    | collect aggregate index => exact hgather aggregate index v
    | race target => exact hsettle target v
    | adopt target => exact hsettle target v

variable (hmodify : ∀ g, Conducts R (Activity.modifyLoop g : Eval Unit)) (he : ∀ task, Conducts R (execute task))
include hmodify he

theorem runTask (task : Task) : Conducts R (Activity.runTask execute task) :=
  (hmodify _).bind hR fun _ ↦ ((he task).closing hR (hmodify fun loop ↦ { loop with current := none })).bind hR fun _ ↦
    hmodify _

theorem drainMicrotasks (budget : Nat) : Conducts R (Activity.drainMicrotasks execute budget) := by
  have hloop : Conducts R (Activity.getLoop : Eval EventLoop) := fun m ↦ hR.refl m
  induction budget with
  | zero => exact hloop.bind hR fun _ ↦ .pure hR _
  | succ budget ih =>
    refine hloop.bind hR fun loop ↦ ?_
    cases loop.microtasks with
    | nil => exact .pure hR true
    | cons task rest => exact (hmodify _).bind hR fun _ ↦ (runTask hR hmodify he task).bind hR fun _ ↦ ih

theorem drain (ceiling : Int) : Conducts R (Activity.drain ceiling execute) := by
  have hloop : Conducts R (Activity.getLoop : Eval EventLoop) := fun m ↦ hR.refl m
  have hmicrotasks (budget : Nat) := drainMicrotasks hR hmodify he budget
  have hstop : Conducts R (Pure.pure () : Eval Unit) := .pure hR ()
  have hpasses (budget passes : Nat) : Conducts R (Activity.drainPasses execute budget passes) := by
    induction passes with
    | zero => exact hstop
    | succ passes ih =>
      refine hloop.bind hR fun loop ↦ ite hstop ((hmicrotasks budget).bind hR fun empty ↦ ite hstop ?_)
      refine hloop.bind hR fun loop ↦ ?_
      cases loop.macrotasks with
      | nil => exact ih
      | cons task rest =>
        refine (hmodify _).bind hR fun _ ↦ (runTask hR hmodify he task).bind hR fun _ ↦ ?_
        exact (hmicrotasks budget).bind hR fun empty ↦ ite hstop ih
  refine (hpasses _ _).bind hR fun _ ↦ hloop.bind hR fun loop ↦ (hmodify _).bind hR fun _ ↦ .pure hR _

end Work

end Eval.Conducts

/-- One evaluation twice, on whatever machine. -/
def Correspondence.leading (hR : Machine.Sequential R) : Correspondence where
  holds p := p.2 = p.1
  leads _ p q := R p.1 q.1
  strays _ p q := R p.1 q.1
  valid _ _ := True
  closed _ _ := True
  renewable _ := True
  entered _ _ := True
  raises _ := True
  refl _ p := hR.refl p.1
  trans := hR.trans
  of_expression := id
  of_statement _ := id
  strays_of_leads := id
  strays_trans := hR.trans
  strays_of_expression := id
  strays_of_statement _ := id
  valid_leads _ _ := trivial
  closed_leads _ _ := trivial
  entered_leads _ _ := trivial
  renewable_leads _ _ := trivial
  valid_function := Iff.rfl

/-- The same for a habit. -/
abbrev Correspondence.conducting (hR : Habit R R) : Correspondence := .leading hR.sequential

namespace Correspondence.Conducting

open State Engine Evaluator Activity Eval

variable {p : Machines} {k k' : Stretch} {A : Machines → α → Prop}

section Leading

variable {hR : Machine.Sequential R}

theorem related {x : Eval α} (hp : (leading hR).holds p) (hx : Conducts R x) (hA : ∀ q a, A q a) :
    (leading hR).Related k A x x p := by
  obtain ⟨m, n⟩ := p
  cases hp
  have h := hx m
  unfold Related
  dsimp only
  cases hr : x m with
  | ok a n =>
    rw [hr] at h
    exact .ok rfl h (hA _ _)
  | error stop n =>
    rw [hr] at h
    refine .error rfl (stops_of_leads h stop) ?_
    cases stop <;> trivial

/-- What is evaluated twice alike is evaluated once. -/
theorem conducts {x y : Eval α} (h : ∀ p, (leading hR).holds p → (leading hR).Related k A x y p) :
    Conducts R x := by
  intro m
  have hm := h (m, m) rfl
  unfold Related at hm
  dsimp only at hm
  generalize x m = a, y m = b at hm
  cases hm with
  | ok _ hl _ => exact hl
  | error _ hl _ => exact hl.strays

/-- An activity between an opening and a closing operation. -/
theorem related_between {B : Machines → α → Prop} {opens : Engine β} {close : Engine Unit} {x y : β → Eval α}
    (hp : (leading hR).holds p) (hopen : Conducts R (liftM opens : Eval β))
    (hclose : Conducts R (liftM close : Eval Unit))
    (hxy : ∀ b q, (leading hR).holds q → (leading hR).Related k' A (x b) (y b) q)
    (hB : ∀ q a, B q a) :
    (leading hR).Related k B ((liftM opens : Eval β) >>= fun b ↦ closing (x b) close)
      ((liftM opens : Eval β) >>= fun b ↦ closing (y b) close) p := by
  refine Related.seq (related (A := anything) hp hopen fun _ _ ↦ trivial) fun q hq _ b ↦ ?_
  have hbody : (leading hR).Related k anything (x b) (y b) q :=
    Ends.mono (hxy b q hq) (fun _ ↦ id) (fun _ ↦ id) fun _ _ _ _ _ ↦ trivial
  refine (hbody.closing fun r hr ↦ ?_).post fun _ a _ _ _ ↦ hB _ a
  exact related hr hclose fun _ _ _ _ ↦ trivial

end Leading

theorem conducts_hoist (hR : Machine.Sequential R) (hoisted : List String)
    (hdeclare : ∀ name, Conducts R (liftM (declare name .undefined .functionScoped none) : Eval Unit)) :
    Conducts R (Eval.hoist .ofScopes hoisted) := by
  have hstate : Conducts R Eval.getState := fun m ↦ hR.refl m
  have hlift {e : State → Except Fault Nat} (s : State) : Conducts R (liftM (e s) : Eval Nat) := by
    cases e s <;> exact fun m ↦ hR.refl m
  refine hstate.bind hR fun s ↦ (hlift s).bind hR fun scope ↦ ?_
  induction hoisted with
  | nil => exact .pure hR ()
  | cons name hoisted ih =>
    refine Conducts.bind hR (hstate.bind hR fun s ↦ ?_) fun _ ↦ ih
    dsimp only
    split
    · exact hdeclare name
    · exact .pure hR ()

theorem conducts_declareAs (hR : Habit R R) (kind : BindingKind) (name : String) (v : Value) :
    Conducts R (Eval.declareAs .ofScopes kind name v) := by
  have hdeclare (scope : Option Nat) : Conducts R (liftM (declare name v kind scope) : Eval Unit) :=
    .of_apart hR (apart_declare name v kind scope)
  unfold Eval.declareAs
  split
  · simp only [bind_map_left]
    rw [Names.functionScope_eq]
    exact (Conducts.reading hR.sequential _).bind hR.sequential fun scope ↦ hdeclare (some scope)
  · exact hdeclare none

/-- The single operations of an evaluation, each of which takes any machine to a related one. -/
structure Operations (R : Machine Journal → Machine Journal → Prop) : Prop where
  sequential : Machine.Sequential R
  record : ∀ line column description, description.isTitle = false → Conducts R (Eval.record line column description)
  report : ∀ kind location, Conducts R (Eval.reportUnsupported kind location)
  declare : ∀ name v kind, Conducts R (liftM (declare name v kind none) : Eval Unit)
  declareAs : ∀ kind name v, Conducts R (Eval.declareAs .ofScopes kind name v)
  assign : ∀ name v, Conducts R (liftM (assign name v) : Eval Unit)
  capture : Conducts R (liftM capture : Eval (List Nat))
  freshIdentity : Conducts R (liftM freshIdentity : Eval Nat)
  newArray : ∀ vs, Conducts R (liftM (newArray vs) : Eval Value)
  newObject : ∀ fields, Conducts R (liftM (newObject fields) : Eval Value)
  setProperty : ∀ receiver key v, Conducts R (liftM (Engine.setProperty receiver key v) : Eval Unit)
  say : ∀ level content, Conducts R (liftM (say level content) : Eval Message)
  timer : ∀ f arguments line,
    Conducts R (liftM (schedule .macrotask "setTimeout callback" (.call f arguments) line) : Eval Task)
  fetch : ∀ url line, Conducts R (liftM (fetch url line) : Eval Address)
  all : ∀ vs, Conducts R (liftM (all vs) : Eval Address)
  race : ∀ vs, Conducts R (liftM (race vs) : Eval Address)
  chain : ∀ address handler, Conducts R (liftM (chain address handler) : Eval Address)
  pushScope : ∀ name, Conducts R (liftM (pushScope .block name none) : Eval Nat)
  closeScope : Conducts R (liftM (popScope >>= fun _ ↦ pure ()) : Eval Unit)
  renewScope : Conducts R (liftM renewScope : Eval Nat)
  keepLocals : ∀ scope, Conducts R (liftM (keepLocals scope) : Eval Unit)
  prune : ∀ settings, Conducts R (Eval.prune settings)

/-- What all operations keep, all forms without calls do. -/
theorem Operations.soundForms (h : Operations R) {s : Settings} (hs : s.names = .ofScopes) :
    (leading h.sequential).SoundForms s s where
  raises _ _ := trivial
  heap_eq hp := by rw [hp]
  frames_isEmpty hp := by rw [hp]
  valid_plain _ := trivial
  valid_held _ _ := trivial
  record line column description ht hp := related hp (h.record line column description ht) fun _ _ ↦ trivial
  report kind location hp := related hp (h.report kind location) fun _ _ ↦ trivial
  resolve name hp := by
    rw [hs, Names.resolve_eq]
    exact related hp (.reading h.sequential _) fun _ _ ↦ trivial
  isDeclared name hp := by
    rw [hs, Names.isDeclared_eq]
    exact related hp (.reading h.sequential _) fun _ _ ↦ trivial
  declare name v kind hp _ := by
    rw [hs]
    exact related hp (h.declare name v kind) fun _ _ ↦ trivial
  declareAs kind name v hp _ := by
    rw [hs]
    exact related hp (h.declareAs kind name v) fun _ _ ↦ trivial
  assign name v hp _ := by
    rw [hs]
    exact related hp (h.assign name v) fun _ _ ↦ trivial
  hoist hoisted hp := by
    rw [hs]
    exact related hp (conducts_hoist h.sequential hoisted fun name ↦ h.declare name .undefined .functionScoped)
      fun _ _ ↦ trivial
  capture hp := by
    rw [hs]
    exact related hp h.capture fun _ _ ↦ trivial
  freshIdentity hp := related hp h.freshIdentity fun _ _ ↦ trivial
  newArray vs hp _ := related hp (h.newArray vs) fun _ _ ↦ trivial
  newObject fields hp _ := related hp (h.newObject fields) fun _ _ ↦ trivial
  setProperty receiver key v hp _ := related hp (h.setProperty receiver key v) fun _ _ ↦ trivial
  say level content hp _ := related hp (h.say level content) fun _ _ ↦ trivial
  timer f arguments line hp _ _ := related hp (h.timer f arguments line) fun _ _ ↦ trivial
  fetch url line hp := related hp (h.fetch url line) fun _ _ ↦ trivial
  all vs hp _ := related hp (h.all vs) fun _ _ ↦ trivial
  race vs hp _ := related hp (h.race vs) fun _ _ ↦ trivial
  chain address handler hp _ _ := related hp (h.chain address handler) fun _ _ ↦ trivial
  inScope name x y hp hxy := related_between hp (h.pushScope name) h.closeScope
    (fun _ q hq ↦ hxy q hq fun _ ↦ trivial) fun _ _ ↦ trivial
  renew hp _ := related hp h.renewScope fun _ _ ↦ trivial
  keepLocals scope hp _ := related hp (h.keepLocals scope) fun _ _ ↦ trivial
  prune hp _ := related hp (h.prune s) fun _ _ ↦ trivial

theorem operations (hR : Habit R R) : Operations R where
  sequential := hR.sequential
  record := hR.record
  report := hR.report
  declare name v kind := .of_apart hR (apart_declare name v kind none)
  declareAs := conducts_declareAs hR
  assign name v := .of_apart hR (apart_assign name v)
  capture := .of_apart hR apart_capture
  freshIdentity := .of_apart hR apart_freshIdentity
  newArray vs := .of_apart hR (apart_newArray vs)
  newObject fields := .of_apart hR (apart_newObject fields)
  setProperty receiver key v := .of_apart hR (apart_setProperty receiver key v)
  say level content := .of_apart hR (apart_say level content)
  timer f arguments line := .of_follows (hR.timer f arguments line)
  fetch url line := .of_follows (hR.fetch url line)
  all vs := .of_follows (hR.all vs)
  race vs := .of_follows (hR.race vs)
  chain address handler := .of_follows (hR.chain address handler)
  pushScope name := .of_apart hR (apart_pushScope .block name none)
  closeScope := .of_apart hR apart_closeScope
  renewScope := .of_apart hR apart_renewScope
  keepLocals scope := .of_apart hR (apart_keepLocals scope)
  prune := .prune hR

theorem sound (hR : Habit R R) {s : Settings} (hs : s.names = .ofScopes) : (conducting hR).Sound s s where
  toSoundForms := (operations hR).soundForms hs
  inCall f arguments line name _ _ hp _ _ hxy := related_between hp (.of_apart hR (apart_enter f arguments line name))
    (.of_apart hR apart_leave) (fun scope q hq ↦ (hxy scope q hq trivial fun _ _ ↦ trivial).catchReturn)
    fun _ _ ↦ trivial

end Correspondence.Conducting

end Stepwise
