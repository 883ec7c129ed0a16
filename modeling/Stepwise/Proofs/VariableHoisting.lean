import Stepwise.Proofs.Hoisting.Declaring
import Stepwise.Proofs.Run.Chronicle
/-!
Variables are hoisted. Wherever a run executes the declaration of a variable, the names that it binds are bound
already, in the scope in which they were declared when the body around it was entered, and that is the scope that the
declaration goes to.
-/

namespace Stepwise

namespace Evaluator

variable (self : Evaluator)

/-- A declarator of variables that are to be at home in a scope. -/
noncomputable def hoistedDeclarator (other : Eval Unit) (home : Nat) : Declarator → Eval Unit
  | .mk target initial => do
    let value ← self.optional initial
    if target.isPlain then
      Eval.bindingNoName other (bindTarget (Eval.declareHoisted other home) target value)
    else bindTarget (Eval.declareAs self.names .functionScoped) target value

noncomputable def hoistedDeclarators (other : Eval Unit) (home : Nat) : List Declarator → Eval Unit
  | [] => return ()
  | d :: ds => do
    self.hoistedDeclarator other home d
    hoistedDeclarators other home ds

/-- A statement of a body whose variables are to be at home in a scope. -/
noncomputable def housedStmt (settings : Settings) (other : Eval Unit) (home : Nat) : Stmt → Eval Unit
  | .declaration .functionScoped ds location => do
    if (← Eval.getState).frames.isEmpty then Eval.prune settings
    Eval.recordAt location "Declaring variable"
    self.hoistedDeclarators other home ds
  | x => self.evalStmt settings x

open Classical in
/-- A block of a function or a program, its statements carried out by the evaluator for the scope that its variables
are declared in on entry. -/
noncomputable def hoistingBlock (housed : Nat → Evaluator) (hoisted : List String) (statements : List Stmt) :
    Eval Value :=
  if Stmt.AllWithin hoisted statements then do
    let home ← (← Eval.getState).headId
    Eval.hoist self.names hoisted
    (housed home).stmts statements
    return .undefined
  else self.body (.block hoisted statements)

noncomputable def hoistingBody (housed : Nat → Evaluator) : Body → Eval Value
  | .block hoisted statements => self.hoistingBlock housed hoisted statements
  | x => self.body x

/-- The evaluator of a depth by which every variable of a body is to be at home where it was declared on entry of
the body; where it is not, something else happens. Inside of a body the home of its variables is known. -/
noncomputable def hoisting (settings : Settings) (other : Eval Unit) : Nat → Option Nat → Evaluator
  | 0, _ => exhausted settings.names
  | n + 1, home? =>
    let plain := hoisting settings other n none
    let self := hoisting settings other n home?
    { names := settings.names
      expr := plain.evalExpr
      stmt := home?.elim (self.evalStmt settings) (self.housedStmt settings other)
      loop := self.evalLoop
      call := fun f arguments line name ↦
        inCall f arguments line (if f.isAnonymous && !name.isEmpty then name else f.name) fun scope ↦ do
          plain.bindParams f.params arguments
          keepLocals scope
          plain.hoistingBody (fun home ↦ hoisting settings other n (some home)) f.body }

/-- The top level of a program by this evaluator. -/
noncomputable def hoistingTopLevel (settings : Settings) (other : Eval Unit) (depth : Nat) (p : Program) :
    Eval Unit := do
  let _ ← Eval.catchReturn ((hoisting settings other depth none).hoistingBlock
    (fun home ↦ hoisting settings other depth (some home)) p.hoisted p.statements)

/-- A program and everything that it defers, by this evaluator. -/
noncomputable def hoistingProgram (settings : Settings) (other : Eval Unit) (depth : Nat) (p : Program) : Eval Unit := do
  hoistingTopLevel settings other depth p
  let _ ← Activity.drain settings.ceiling ((hoisting settings other depth none).task settings)
  Eval.prune settings

theorem expr_hoisting (settings : Settings) (other : Eval Unit) (n : Nat) (home? : Option Nat) :
    (hoisting settings other n home?).expr = (hoisting settings other n none).expr := by
  cases n <;> rfl

theorem names_hoisting (settings : Settings) (other : Eval Unit) (n : Nat) (home? : Option Nat) :
    (hoisting settings other n home?).names = settings.names := by
  cases n <;> rfl

theorem optional_congr {a b : Evaluator} (hexpr : a.expr = b.expr) (e : Option Expr) : a.optional e = b.optional e := by
  cases e with
  | none => rfl
  | some e => exact congrFun hexpr e

theorem condition_congr {a b : Evaluator} (hexpr : a.expr = b.expr) (e : Expr) : a.condition e = b.condition e := by
  unfold condition
  rw [hexpr]

theorem declarators_congr {a b : Evaluator} (hexpr : a.expr = b.expr) (hnames : a.names = b.names) (kind : BindingKind)
    (ds : List Declarator) : a.declarators kind ds = b.declarators kind ds := by
  obtain ⟨names, expr, stmt, loop, call⟩ := a
  obtain ⟨names', expr', stmt', loop', call'⟩ := b
  cases hexpr
  cases hnames
  induction ds with
  | nil => rfl
  | cons d ds ih => exact congrArg (fun rest : Eval Unit ↦ (declarator _ kind d >>= fun _ ↦ rest)) ih

end Evaluator

/-- The variables of a body are at home, and the innermost scope is not their home where it is to be renewed. -/
structure State.Inside (s : State) (home : Nat) (names : List String) (renews : Bool) : Prop where
  houses : s.Houses home names
  head : renews = true → s.chain.head? ≠ some home

namespace State

variable {s : State} {home : Nat} {names : List String}

theorem Houses.inside (h : s.Houses home names) : s.Inside home names false := ⟨h, nofun⟩

/-- A scope that is not the home of the variables is a block inside of it. -/
theorem Inside.exists_block (h : s.Inside home names true) : ∃ id outer rest old,
    s.chain = id :: outer :: rest ∧ s.scope? id = some old ∧ old.kind = .block := by
  obtain ⟨blocks, outer, hline, -, hblocks⟩ := h.houses.line
  cases blocks with
  | nil => exact absurd (congrArg List.head? hline) (h.head rfl)
  | cons id blocks =>
    obtain ⟨old, hold, hkind⟩ := hblocks id List.mem_cons_self
    obtain ⟨next, rest, hrest⟩ := List.exists_cons_of_ne_nil (List.append_ne_nil_of_right_ne_nil blocks
      (List.cons_ne_nil home outer))
    exact ⟨id, next, rest, old, hline.trans (congrArg (id :: ·) hrest), hold, hkind⟩

end State

namespace Correspondence.Unfolding

open State Engine Evaluator Activity Eval

variable {l : Machine Journal} {p q : Machines} {k : Stretch} {α : Type} {A : Machines → α → Prop} {s t : State}
variable {home id : Nat} {names : List String} {renews : Bool} {settings : Settings}

theorem inside_leads (hk : k = .expression ∨ k = .statement) (hp : (unfolding l).holds p)
    (hl : (unfolding l).leads k p q) (h : p.1.state.Inside home names renews) : q.1.state.Inside home names renews := by
  have hchain : q.1.state.chain = p.1.state.chain := hl.1.chain (by rintro rfl; simp at hk)
  have hframes : q.1.state.frames = p.1.state.frames := hl.1.frames (by rintro rfl; simp at hk)
  obtain ⟨handed, hrow⟩ := hl.2
  refine ⟨h.houses.mono_frames hchain hframes (hrow.state.retains hp.2.proper.numbered), fun hr ↦ ?_⟩
  rw [hchain]
  exact h.head hr

theorem inside_related {x y : Eval α} (hk : k = .expression ∨ k = .statement) (hp : (unfolding l).holds p)
    (hi : p.1.state.Inside home names renews) (h : (unfolding l).Related k A x y p) :
    (unfolding l).Related k (fun q a ↦ A q a ∧ q.1.state.Inside home names renews) x y p :=
  h.post fun _ _ _ hl ha ↦ ⟨ha, inside_leads hk hp hl hi⟩

theorem home_le (hs : s.Numbered) (h : s.Houses home names) : home ≤ s.lastId := by
  obtain ⟨scope, hscope, -⟩ := h.scope
  exact hs.le_of_mem_scopeIds (List.mem_map.mpr ⟨scope, List.mem_of_find?_eq_some hscope, id_of_scope? hscope⟩)

theorem inside_pushScope {name : String} (hs : s.Numbered) (h : s.Houses home names)
    (hopen : pushScope .block name none s = .ok id t) : t.Inside home names true := by
  rw [pushScope_apply] at hopen
  cases hopen
  have hhome := home_le hs h
  refine ⟨h.openBlock hs (Nat.lt_succ_self s.lastId) rfl (.inl rfl), fun _ hhead ↦ ?_⟩
  have heq : s.lastId + 1 = home := Option.some.inj hhead
  omega

theorem inside_renewScope (hs : s.Numbered) (h : s.Inside home names true) (hrenew : renewScope s = .ok id t) :
    t.Inside home names true := by
  obtain ⟨innermost, outer, rest, old, hchain, hold, hkind⟩ := h.exists_block
  have hhome := home_le hs h.houses
  have hfresh (scope : Scope) (hscope : scope ∈ s.scopes) : scope.id ≠ s.lastId + 1 := by
    have hle := hs.le_of_mem_scopeIds (List.mem_map_of_mem hscope)
    omega
  have htail : outer :: rest = s.chain.tail := by rw [hchain, List.tail_cons]
  rw [renewScope_of_fresh hfresh hchain hold] at hrenew
  cases hrenew
  refine ⟨h.houses.openBlock hs (Nat.lt_succ_self s.lastId) hkind (.inr ⟨htail, h.head rfl⟩), fun _ hhead ↦ ?_⟩
  have heq : s.lastId + 1 = home := Option.some.inj hhead
  omega

theorem renewable_of_inside (h : p.1.state.Inside home names true) : (unfolding l).renewable p := by
  obtain ⟨id, outer, rest, old, hchain, -⟩ := h.exists_block
  change p.1.state.chain.tail ≠ []
  rw [hchain, List.tail_cons]
  exact List.cons_ne_nil outer rest

/-- On entry of a call no block is open yet, and its own scope is the innermost one. -/
theorem houses_enter {f : Function} {arguments : List Value} {line : Int} {name : String}
    (henter : enter f arguments line name s = .ok id t) : t.Houses id [] ∧ t.headId = .ok id := by
  rw [enter_apply] at henter
  cases henter
  have hscope {scope : Scope} {frames : List Frame} (hkind : scope.kind = .function) :
      ∃ found, (s.openScope scope s.chain frames).scope? scope.id = some found ∧
        (found.kind = .function ∨ found.kind = .global) ∧ ∀ name ∈ ([] : List String), name ∈ found.bindings.keys :=
    ⟨scope, by rw [scope?_openScope, if_pos rfl], .inl hkind, List.forall_mem_nil _⟩
  refine ⟨⟨⟨[], s.chain, rfl, ?_, List.forall_mem_nil _⟩, hscope rfl⟩, rfl⟩
  rintro frame ⟨⟩
  rfl

theorem houses_keepLocals (scope : Nat) (h : s.Houses home names) :
    (after (keepLocals scope s)).Houses home names ∧ (after (keepLocals scope s)).headId = s.headId := by
  obtain hkeep | ⟨frame, frames, found, hf, -, hkeep⟩ := keepLocals_cases scope s
  · rw [hkeep]
    exact ⟨h, rfl⟩
  · rw [hkeep]
    refine ⟨h.mono rfl ?_ (.of_scopes_eq rfl), rfl⟩
    rintro kept ⟨⟩
    exact ⟨frame, by rw [hf]; rfl, rfl⟩

/-- Statements that declare variables which are at home, and loops of them, go the same way in two evaluators. -/
structure AtHome (l : Machine Journal) (home : Nat) (names : List String) (a b : Evaluator) : Prop where
  stmt : ∀ {p} x, (unfolding l).holds p → p.1.state.Houses home names → (∀ name, x.Declares name → name ∈ names) →
    (unfolding l).Related .statement anything (a.stmt x) (b.stmt x) p
  loop : ∀ {p} r c u x, (unfolding l).holds p → p.1.state.Inside home names r → (∀ name, x.Declares name → name ∈ names) →
    (unfolding l).Related (.ofLoop r) anything (a.loop r c u x) (b.loop r c u x) p

namespace AtHome

variable {a b plain : Evaluator} (hb : AtHome l home names a b)
include hb

theorem stmts {xs : List Stmt} (hxs : Stmt.AllWithin names xs) (hp : (unfolding l).holds p)
    (hh : p.1.state.Houses home names) :
    (unfolding l).Related .statement anything (a.stmts xs) (b.stmts xs) p := by
  induction xs generalizing p with
  | nil => exact .pure hp trivial
  | cons x xs ih =>
    obtain ⟨hx, hxs⟩ := List.forall_mem_cons.mp hxs
    have hstmt := inside_related (.inr rfl) hp hh.inside (hb.stmt x hp hh hx)
    exact hstmt.bind fun q _ hq _ hi ↦ ih hxs hq hi.2.houses

variable (hs : settings.names = .ofScopes) (hab : (unfolding l).Parts settings settings a plain)
variable (hexpr : b.expr = plain.expr) (hnames : b.names = plain.names)
include hs hab hexpr

omit hs in
theorem startLoop {initializer : Initializer} {c u : Option Expr} {body : Stmt}
    (hx : ∀ name, (Stmt.loop initializer c u body).Declares name → name ∈ names) (hp : (unfolding l).holds p)
    (hh : p.1.state.Houses home names) :
    (unfolding l).Related .statement anything (a.startLoop initializer) (b.startLoop initializer) p := by
  cases initializer with
  | none => exact .pure hp trivial
  | expression e =>
    simp only [Evaluator.startLoop, hexpr]
    exact (hab.expr e hp).of_expression.seq fun q hq _ _ ↦ .pure hq trivial
  | declaration fresh x => exact hb.stmt x hp hh fun name h ↦ hx name (.initializer h)

omit hs in
theorem forLoop {initializer : Initializer} {c u : Option Expr} {body : Stmt}
    (hx : ∀ name, (Stmt.loop initializer c u body).Declares name → name ∈ names) (hp : (unfolding l).holds p)
    (hh : p.1.state.Houses home names) :
    (unfolding l).Related .statement anything (a.forLoop initializer c u body) (b.forLoop initializer c u body) p := by
  have hactivity (r : Bool) (q : Machines) (hq : (unfolding l).holds q) (hi : q.1.state.Inside home names r) :
      (unfolding l).Related (.ofLoop r) anything (a.startLoop initializer >>= fun _ ↦ a.loop r c u body)
        (b.startLoop initializer >>= fun _ ↦ b.loop r c u body) q := by
    have hstart := inside_related (.inr rfl) hq hi (hb.startLoop hab hexpr hx hq hi.houses)
    exact (hstart.of_statement (Stretch.ofLoop_ne r)).bind fun q' _ hq' _ hi' ↦
      hb.loop r c u body hq' hi'.2 fun name h ↦ hx name (.body h)
  unfold Evaluator.forLoop
  cases isFresh initializer with
  | true =>
    refine related_inScope hp fun q hq _ hopen ↦ hactivity true q hq ?_
    exact inside_pushScope hp.2.proper.numbered hh hopen
  | false => exact hactivity false p hp hh.inside

theorem evalLoop (r : Bool) (c u : Option Expr) {body : Stmt} (hx : ∀ name, body.Declares name → name ∈ names)
    (hp : (unfolding l).holds p) (hi : p.1.state.Inside home names r) :
    (unfolding l).Related (.ofLoop r) anything (a.evalLoop r c u body) (b.evalLoop r c u body) p := by
  have hsound := sound (l := l) hs
  have hagain (q : Machines) (hq : (unfolding l).holds q) (hi : q.1.state.Inside home names r) :
      (unfolding l).Related (.ofLoop r) anything (a.optional u >>= fun _ ↦ a.loop r c u body)
        (plain.optional u >>= fun _ ↦ b.loop r c u body) q := by
    have hupdate := inside_related (.inl rfl) hq hi (hab.optional hsound u hq)
    exact hupdate.of_expression.bind fun q' _ hq' _ hi' ↦ hb.loop r c u body hq' hi'.2 hx
  have hgoesOn : b.goesOn c = plain.goesOn c := by
    cases c with
    | none => rfl
    | some e => exact condition_congr hexpr e
  unfold Evaluator.evalLoop
  rw [hgoesOn, optional_congr hexpr u]
  refine (inside_related (.inl rfl) hp hi (hab.goesOn hsound c hp)).of_expression.bind fun q goesOn hq _ hi ↦ ?_
  refine .ite (fun _ ↦ ?_) (fun _ ↦ .pure hq trivial)
  have hbody := inside_related (.inr rfl) hq hi.2 (hb.stmt body hq hi.2.houses hx)
  refine (hbody.of_statement (Stretch.ofLoop_ne r)).bind fun q' _ hq' _ hi' ↦ ?_
  cases r with
  | true =>
    have hrenew := (related_renew hq' (renewable_of_inside hi'.2)).post_first
      (C := fun n _ ↦ n.state.Inside home names true) fun id n hn ↦
        inside_renewScope hq'.2.proper.numbered hi'.2 (ofEngine_eq_ok hn)
    exact hrenew.bind fun q'' _ hq'' _ hi'' ↦ hagain q'' hq'' hi''
  | false => exact hagain q' hq' hi'.2

theorem conditional (c : Expr) {x : Stmt} {alternative : Option (Option Stmt)} {location : Location}
    (hx : ∀ name, (Stmt.conditional c x alternative location).Declares name → name ∈ names)
    (hp : (unfolding l).holds p) (hh : p.1.state.Houses home names) :
    (unfolding l).Related .statement anything (a.conditional c x alternative location)
      (b.conditional c x alternative location) p := by
  have hsound := sound (l := l) hs
  have hrecord (description : Text) (htitle : description.isTitle = false) {q : Machines} (hq : (unfolding l).holds q)
      (hh : q.1.state.Houses home names) :=
    inside_related (.inl rfl) hq hh.inside (hsound.record location.startLine location.startColumn description htitle hq)
  unfold Evaluator.conditional
  rw [condition_congr hexpr]
  refine (inside_related (.inl rfl) hp hh.inside (hab.condition hsound c hp)).of_expression.bind fun q holds hq _ hi ↦ ?_
  refine .ite (fun _ ↦ ?_) (fun _ ↦ ?_)
  · exact (hrecord _ (by decide) hq hi.2.houses).of_expression.bind fun r _ hr _ hi' ↦
      hb.stmt x hr hi'.2.houses fun name h ↦ hx name (.consequence h)
  · cases alternative with
    | none => exact .pure hq trivial
    | some branch =>
      refine (hrecord _ (by decide) hq hi.2.houses).of_expression.bind fun r _ hr _ hi' ↦ ?_
      cases branch with
      | none => exact .pure hr trivial
      | some y => exact hb.stmt y hr hi'.2.houses fun name h ↦ hx name (.alternative h)

variable (hnames : b.names = plain.names) (other : Eval Unit)
include hnames

omit hb in
theorem hoistedDeclarator {d : Declarator} (hd : d.target.isPlain = true → d.target.names ⊆ names)
    (hp : (unfolding l).holds p) (hh : p.1.state.Houses home names) :
    (unfolding l).Related .expression anything (a.declarator .functionScoped d) (b.hoistedDeclarator other home d) p := by
  obtain ⟨target, initial⟩ := d
  have hsound := sound (l := l) hs
  rw [declarator_mk]
  unfold Evaluator.hoistedDeclarator
  dsimp only
  rw [optional_congr hexpr, hnames, hab.names.1, hab.names.2, hs]
  refine (inside_related (.inl rfl) hp hh.inside (hab.optional hsound initial hp)).bind fun q v hq _ hv ↦ ?_
  have htarget : (unfolding l).Related .expression anything (bindTarget (Eval.declareAs .ofScopes .functionScoped) target v)
      (bindTarget (Eval.declareAs .ofScopes .functionScoped) target v) q :=
    hsound.bindTarget target hq hv.1 fun name w hr hw ↦ hs ▸ hsound.declareAs .functionScoped name w hr hw
  cases hplain : target.isPlain with
  | true =>
    have hkeeps := KeepsHome.bindTarget other v hplain (hd hplain) hv.2.houses
    refine Related.congr ?_ htarget
    rw [if_pos rfl, hq.1]
    exact bindingNoName_of_keepsHome other hkeeps
  | false => exact htarget

omit hb in
theorem hoistedDeclarators {ds : List Declarator}
    (hds : ∀ d ∈ ds, d.target.isPlain = true → d.target.names ⊆ names) (hp : (unfolding l).holds p)
    (hh : p.1.state.Houses home names) :
    (unfolding l).Related .expression anything (a.declarators .functionScoped ds)
      (b.hoistedDeclarators other home ds) p := by
  induction ds generalizing p with
  | nil => exact .pure hp trivial
  | cons d ds ih =>
    obtain ⟨hd, hds⟩ := List.forall_mem_cons.mp hds
    have hfirst := hoistedDeclarator hs hab hexpr hnames other hd hp hh
    exact (inside_related (.inl rfl) hp hh.inside hfirst).bind fun q _ hq _ hi ↦ ih hds hq hi.2.houses

theorem execute {x : Stmt} (hx : ∀ name, x.Declares name → name ∈ names) (hp : (unfolding l).holds p)
    (hh : p.1.state.Houses home names) :
    (unfolding l).Related .statement anything (a.execute x) (b.execute x) p := by
  have hsound := sound (l := l) hs
  cases x with
  | conditional c x alternative location => exact hb.conditional hs hab hexpr c hx hp hh
  | loop initializer c u body => exact hb.forLoop hab hexpr hx hp hh
  | block xs =>
    refine related_inScope hp fun q hq _ hopen ↦ ?_
    have hi := inside_pushScope hp.2.proper.numbered hh hopen
    exact (hb.stmts (fun x hmem name h ↦ hx name (.block hmem h)) hq hi.houses).of_statement nofun
  | declaration kind ds location =>
    have hdeclaration := hab.execute hsound (.declaration kind ds location) hp
    have hsame : b.execute (.declaration kind ds location) = plain.execute (.declaration kind ds location) := by
      unfold Evaluator.execute
      dsimp only
      rw [declarators_congr hexpr hnames]
    exact hsame ▸ hdeclaration
  | _ =>
    -- what holds no statements is a matter of names and expressions
    clear hb hx
    obtain ⟨names, expr, stmt, loop, call⟩ := b
    obtain ⟨names', expr', stmt', loop', call'⟩ := plain
    cases hexpr
    cases hnames
    exact hab.execute hsound _ hp

theorem housedStmt {x : Stmt} (hx : ∀ name, x.Declares name → name ∈ names) (hp : (unfolding l).holds p)
    (hh : p.1.state.Houses home names) :
    (unfolding l).Related .statement anything (a.evalStmt settings x) (b.housedStmt settings other home x) p := by
  have hsound := sound (l := l) hs
  have hplain {x : Stmt} (hx : ∀ name, x.Declares name → name ∈ names) :
      (unfolding l).Related .statement anything (a.evalStmt settings x) (b.evalStmt settings x) p := by
    have hpruned := hsound.pruned hp (x := a.execute x) (y := b.execute x) fun q hq hl ↦
      hb.execute hs hab hexpr hnames hx hq (inside_leads (.inr rfl) hp hl hh.inside).houses
    cases x with
    | comment => exact .pure hp trivial
    | _ => exact hpruned
  cases x with
  | declaration kind ds location =>
    cases kind with
    | functionScoped =>
      refine hsound.pruned hp fun q hq hl ↦ ?_
      have hi := inside_leads (.inr rfl) hp hl hh.inside
      have hrecord := hsound.record location.startLine location.startColumn "Declaring variable" (by decide) hq
      refine (inside_related (.inl rfl) hq hi hrecord).of_expression.bind fun r _ hr _ hi' ↦ ?_
      refine (hoistedDeclarators hs hab hexpr hnames other (fun d hd hplain name hname ↦ ?_) hr hi'.2.houses).of_expression
      exact hx name (.here hd hplain hname)
    | _ => exact hplain hx
  | _ => exact hplain hx

end AtHome

section Bodies

variable {a plain : Evaluator} {housed : Nat → Evaluator} (hs : settings.names = .ofScopes)
variable (hab : (unfolding l).Parts settings settings a plain)
variable (hhoused : ∀ home names, AtHome l home names a (housed home))
include hs hab hhoused

theorem related_hoistingBlock (hk : k ≠ .expression) (hoisted : List String) (statements : List Stmt)
    (hp : (unfolding l).holds p) (hh : p.1.state.Houses home []) (hhead : p.1.state.headId = .ok home) :
    (unfolding l).Related k (unfolding l).valid (a.body (.block hoisted statements))
      (plain.hoistingBlock housed hoisted statements) p := by
  have hsound := sound (l := l) hs
  unfold hoistingBlock
  split
  next hwithin =>
    have hhome : (Eval.getState >>= fun state ↦ (liftM state.headId : Eval Nat) >>= fun home ↦
        Eval.hoist plain.names hoisted >>= fun _ ↦ (housed home).stmts statements >>= fun _ ↦
          pure Value.undefined : Eval Value) p.2 =
        (Eval.hoist plain.names hoisted >>= fun _ ↦ (housed home).stmts statements >>= fun _ ↦
          pure Value.undefined : Eval Value) p.2 := by
      change ((liftM p.2.state.headId : Eval Nat) >>= _) p.2 = _
      rw [hp.1, hhead]
      rfl
    refine Related.congr hhome ?_
    unfold Evaluator.body
    dsimp only
    rw [hab.names.1, hab.names.2]
    obtain ⟨t, ht, hhouses⟩ := exists_hoist hoisted hh hhead
    have hhoist := (hsound.hoist hoisted hp).post_first (C := fun n _ ↦ n.state.Houses home hoisted) fun _ n hn ↦ by
      rw [hs, ht] at hn
      cases hn
      exact hhouses
    refine hhoist.of_expression.bind fun q _ hq _ hh' ↦ ?_
    have hstmts := (hhoused home hoisted).stmts hwithin hq hh'
    exact (hstmts.of_statement hk).seq fun r hr _ _ ↦ .pure hr trivial
  next => exact hab.block hsound hk hoisted statements hp

theorem related_hoistingCall (f : Function) (vs : List Value) (line : Int) (name : String) (hp : (unfolding l).holds p)
    (hvs : (unfolding l).allValid p vs) :
    (unfolding l).Related .expression (unfolding l).valid (a.evalCall f vs line name)
      (inCall f vs line (if f.isAnonymous && !name.isEmpty then name else f.name) fun scope ↦
        plain.bindParams f.params vs >>= fun _ ↦ liftM (keepLocals scope) >>= fun _ ↦ plain.hoistingBody housed f.body)
      p := by
  have hsound := sound (l := l) hs
  refine related_inCall hp hvs fun scope q hq hvalid henter ↦ ?_
  obtain ⟨hh, hhead⟩ := houses_enter henter
  have hparams := (hab.bindParams hsound f.params vs hq fun v hv ↦ hvalid v (hvs v hv)).post
    (C := fun r _ ↦ r.1.state.Houses scope [] ∧ r.1.state.headId = .ok scope) fun r _ _ hl _ ↦ by
      refine ⟨(inside_leads (.inl rfl) hq hl hh.inside).houses, ?_⟩
      rw [headId, hl.1.chain nofun]
      exact hhead
  refine hparams.of_expression.bind fun r _ hr _ hentry ↦ ?_
  have hlocals : (unfolding l).Related .body _ (liftM (keepLocals scope)) (liftM (keepLocals scope)) r :=
    (related_keepLocals hr).post_first
    (C := fun n _ ↦ n.state.Houses scope [] ∧ n.state.headId = .ok scope) fun _ n hn ↦ by
      have hkept := houses_keepLocals scope hentry.1
      have hn : keepLocals scope r.1.state = .ok () n.state := ofEngine_eq_ok hn
      rw [hn, hentry.2] at hkept
      exact hkept
  refine hlocals.bind fun u _ hu _ hentry' ↦ ?_
  cases f.body with
  | block hoisted statements =>
    exact related_hoistingBlock hs hab hhoused (by decide) hoisted statements hu hentry'.1 hentry'.2
  | expression value => exact hab.body hsound (.expression value) hu
  | incomplete => exact hab.body hsound .incomplete hu

end Bodies

theorem parts_hoisting (hs : settings.names = .ofScopes) (other : Eval Unit) (depth : Nat) :
    (unfolding l).Parts settings settings (ofDepth settings depth) (hoisting settings other depth none) ∧
      ∀ home names, AtHome l home names (ofDepth settings depth) (hoisting settings other depth (some home)) := by
  have hsound := sound (l := l) hs
  induction depth with
  | zero => exact ⟨hsound.parts 0, fun _ _ ↦ ⟨fun _ hp _ _ ↦ .throw hp trivial, fun _ _ _ _ hp _ _ ↦ .throw hp trivial⟩⟩
  | succ n ih =>
    obtain ⟨hab, hhome⟩ := ih
    have hnext := hab.next hsound
    have hnames (home? : Option Nat) : (hoisting settings other n home?).names = (hoisting settings other n none).names := by
      rw [names_hoisting, names_hoisting]
    rw [ofDepth_succ]
    refine ⟨⟨⟨hab.names.1, rfl⟩, hnext.expr, hnext.stmt, hnext.loop, fun f vs line name hp _ hvs ↦ ?_⟩, fun home names ↦ ?_⟩
    · exact related_hoistingCall hs hab hhome f vs line name hp hvs
    · have hexpr := expr_hoisting settings other n (some home)
      refine ⟨fun x hp hh hx ↦ ?_, fun r c u x hp hi hx ↦ ?_⟩
      · exact (hhome home names).housedStmt hs hab hexpr (hnames (some home)) other hx hp hh
      · exact (hhome home names).evalLoop hs hab hexpr r c u hx hp hi

theorem related_hoistingProgram (hs : settings.names = .ofScopes) (other : Eval Unit) (depth : Nat) (program : Program) :
    (unfolding .initial).Related .task anything ((ofDepth settings depth).program settings program)
      (hoistingProgram settings other depth program) (.initial, .initial) := by
  have hsound := soundLoop (l := .initial) hs
  obtain ⟨hab, hhome⟩ := parts_hoisting (l := .initial) hs other depth
  have hentry : Machine.initial.state.Houses 1 [] :=
    ⟨⟨[], [], rfl, nofun, List.forall_mem_nil _⟩, _, rfl, .inr rfl, List.forall_mem_nil _⟩
  have hp : (unfolding .initial).holds (.initial, .initial) := ⟨rfl, Machine.reaches_initial⟩
  have hblock := related_hoistingBlock hs hab hhome (k := .task) (by decide) program.hoisted program.statements hp hentry rfl
  have htop : (unfolding .initial).Related .task anything ((ofDepth settings depth).topLevel program)
      (hoistingTopLevel settings other depth program) (.initial, .initial) :=
    hblock.catchReturn.seq fun q hq _ _ ↦ .pure hq trivial
  refine htop.seq fun q hq hl _ ↦ ?_
  have hf := hsound.frames_leads hl rfl
  refine (hsound.drain (hsound.toSoundJobs.task hab) hq hf).seq fun r hr hl' _ ↦ ?_
  exact (hsound.prune hr (hsound.frames_leads hl' hf)).of_statement nofun

end Correspondence.Unfolding

open Correspondence.Unfolding in
/-- Hoisting and execution agree on variables. Whatever the statements of a program or of the block of a function
declare as variables is among the names that are declared on entry; and wherever a run executes such a declaration,
each of its names is at home in the scope of that entry, and no scope comes to bind a name that it did not bind. -/
theorem variables_hoisted {source : Source} {root : Node} (h : root.Regular source) (ceiling : Int) (prunes : Bool)
    (other : Eval Unit) (depth : Nat) :
    let settings : Settings := { ceiling, prunes }
    let program := Program.ofTree source root
    Stmt.AllWithin program.hoisted program.statements ∧
      (∀ n ∈ root.preorder, ∀ hoisted statements, (n.read source).body = .block hoisted statements →
        Stmt.AllWithin hoisted statements) ∧
      Evaluator.hoistingProgram settings other depth program .initial = settings.run depth program := by
  intro settings program
  refine ⟨Program.allWithin_ofTree h, fun n hn hoisted statements hbody ↦ ?_, ?_⟩
  · exact Node.allWithin_body (h.inside hn) hbody
  · exact (outcome_of_ends (related_hoistingProgram rfl other depth program)).1

/-- `function f(){{var [a]=[]}}` -/
def nestedVariable : Node :=
  let token (name : String) (start stop : Nat) : Node := .leaf (.other name) false start stop
  let pattern : Node := .branch .arrayPattern [token "[" 18 19, .leaf .identifier true 19 20, token "]" 20 21]
  let value : Node := .branch .array [token "[" 22 23, token "]" 23 24]
  let declarator : Node := .branch .variableDeclarator [.inRole "name" pattern, token "=" 21 22, .inRole "value" value]
  let inner : Node := .branch .statementBlock
    [token "\x7b" 13 14, .branch .variableDeclaration [token "var" 14 17, declarator], token "\x7d" 24 25]
  let body : Node := .branch .statementBlock [token "\x7b" 12 13, inner, token "\x7d" 25 26]
  let params : Node := .branch (.other "formal_parameters") [token "(" 10 11, token ")" 11 12]
  .branch (.other "program") [.branch .functionDeclaration
    [token "function" 0 8, .inRole "name" (.leaf .identifier true 9 10), .inRole "parameters" params, .inRole "body" body]]

/-- The name is hoisted in the function, whose block is not that of the declaration, and not outside of it. -/
theorem hoisted_nestedVariable :
    let source := Source.ofString "function f()\x7b\x7bvar [a]=[]\x7d\x7d"
    let program := Program.ofTree source nestedVariable
    nestedVariable.Regular source ∧ program.hoisted = [] ∧
      (∀ n ∈ nestedVariable.preorder, ∀ hoisted statements, (n.read source).body = .block hoisted statements →
        Stmt.AllWithin hoisted statements) ∧
      Evaluator.hoistingProgram { ceiling := 9, prunes := true } (throw .exhausted) 12 program .initial =
        Settings.run { ceiling := 9, prunes := true } 12 program := by
  intro source program
  have hregular : nestedVariable.Regular source := by decide
  obtain ⟨-, hbodies, hrun⟩ := variables_hoisted hregular 9 true (throw .exhausted) 12
  exact ⟨hregular, by decide, hbodies, hrun⟩

end Stepwise
