import Stepwise.Proofs.Assignment
import Stepwise.Proofs.Run.Leaving
/-!
Loops with a scope for each iteration. When the body of an iteration has ended, a new scope with the same bindings takes
the place of that iteration's scope, and nothing but what captured the old one gets at it any more.
-/

namespace Stepwise

namespace State

variable {s t : State} {i j : Nat}

/-- A new scope has taken the place of the innermost one. -/
structure Renews (s : State) (i j : Nat) (t : State) : Prop where
  fresh : s.scope? j = none
  chain : ∃ rest, s.chain = i :: rest ∧ t.chain = j :: rest
  bindings : ∃ old, s.scope? i = some old ∧ t.scope? j = some { old with id := j }
  others : ∀ k, k ≠ j → t.scope? k = s.scope? k
  elsewhere : t = { s with lastId := j, chain := t.chain, scopes := t.scopes }
  /-- from then on binding a name in one of the two leaves the other one alone -/
  apart : ∀ (u : State) (scope : Scope) name v, (scope.id = j → (u.bind scope name v).scope? i = u.scope? i) ∧
    (scope.id = i → (u.bind scope name v).scope? j = u.scope? j)

theorem scope?_bind_of_ne (s : State) {scope : Scope} (name : String) (v : Value) (h : scope.id ≠ i) :
    (s.bind scope name v).scope? i = s.scope? i := by
  rw [scope?_bind]
  cases hs : s.scope? i with
  | none => rfl
  | some old =>
    rw [Option.map_some, if_neg]
    rw [id_of_scope? hs]
    exact h.symm

theorem Lexical.grounded (hs : s.Lexical) : s.Grounded := by
  refine ⟨hs.stacked.ne_nil, fun id hid ↦ ?_⟩
  obtain ⟨scope, hscope⟩ := hs.stacked.exists_scope id hid
  exact List.mem_map.mpr ⟨scope, List.mem_of_find?_eq_some hscope, id_of_scope? hscope⟩

section Newer

variable {r : State} {id : Nat} (hr : r.Lexical) (hi : r.lastId < i)
include hr hi

/-- Scopes that are open are older than new ones, and so are those that calls in progress captured. -/
theorem Lexical.lt_of_mem_chain (hid : id ∈ r.chain) : id < i := by
  obtain ⟨scope, hscope⟩ := hr.stacked.exists_scope id hid
  exact (hr.fresh id scope hscope).trans_lt hi

theorem Lexical.lt_of_mem_closure {frame : Frame} (hframe : frame.shape ∈ r.frames.map Frame.shape)
    (hid : id ∈ frame.closure) : id < i := by
  obtain ⟨other, hother, hsame⟩ := List.mem_map.mp hframe
  have hclosure : other.closure = frame.closure := congrArg Prod.snd hsame
  obtain ⟨scope, hscope⟩ := hr.stacked.exists_scope_of_closure other hother id (hclosure ▸ hid)
  exact (hr.fresh id scope hscope).trans_lt hi

end Newer

/-- A scope that was opened inside of the calls and scopes of a state gives way to a new one, and is sealed. -/
theorem exists_renews {r : State} (hr : r.Lexical) (hs : s.Lexical) (hinner : s.Stacked s.frames s.chain.tail)
    (hchain : s.chain = i :: r.chain) (hi : r.lastId < i) (hshapes : s.frames.map Frame.shape = r.frames.map Frame.shape) :
    ∃ j t, Engine.renewScope s = .ok j t ∧ s.Renews i j t ∧ r.lastId < j ∧ t.Sealed i := by
  obtain ⟨id, outer, rest, old, hcons, hold, hparent⟩ := Correspondence.Scoping.exists_innermost hs hinner
  obtain ⟨rfl, hrest⟩ := List.cons_eq_cons.mp (hchain.symm.trans hcons)
  have hfresh := Correspondence.Scoping.ne_lastId_succ hs
  have hle : i ≤ s.lastId := hs.fresh i old hold
  have hne : i ≠ s.lastId + 1 := (Nat.lt_succ_of_le hle).ne
  have hnone : s.scope? (s.lastId + 1) = none :=
    List.find?_eq_none.mpr fun scope hscope h ↦ hfresh scope hscope (beq_iff_eq.mp h)
  let renewed := s.openScope { old with id := s.lastId + 1 } (outer :: rest) s.frames
  have hrenews : s.Renews i (s.lastId + 1) renewed := {
    fresh := hnone
    chain := ⟨_, hcons, rfl⟩
    bindings := ⟨old, hold, by rw [scope?_openScope, if_pos rfl]⟩
    others := fun k hk ↦ by rw [scope?_openScope, if_neg hk]
    elsewhere := rfl
    apart := fun u scope name v ↦
      ⟨fun h ↦ u.scope?_bind_of_ne name v (h ▸ hne.symm), fun h ↦ u.scope?_bind_of_ne name v (h ▸ hne)⟩ }
  have hknown : renewed.Grounded := by
    refine ⟨List.cons_ne_nil _ _, List.cons_subset_cons _ fun id hid ↦ hs.grounded.known ?_⟩
    rw [hcons]
    exact List.mem_cons_of_mem _ hid
  have hclosed : i ∉ renewed.chain := fun hmem ↦
    (List.mem_cons.mp hmem).elim hne fun hmem ↦ (hr.lt_of_mem_chain hi (hrest ▸ hmem)).ne rfl
  have huncaptured : ∀ frame ∈ renewed.frames, i ∉ frame.closure := fun frame hframe hmem ↦
    (hr.lt_of_mem_closure hi (hshapes ▸ List.mem_map_of_mem hframe) hmem).ne rfl
  have hsealed : renewed.Sealed i := ⟨hknown, Nat.le_succ_of_le hle, hclosed, huncaptured⟩
  exact ⟨_, renewed, Engine.renewScope_apply hfresh hcons hold hparent, hrenews, hi.trans (Nat.lt_succ_of_le hle), hsealed⟩

end State

namespace Evaluator

/-- Before a statement outside of calls captured scopes are forgotten, where that is due. -/
def pruneOutside (settings : Settings) : Eval Unit := do
  if (← Eval.getState).frames.isEmpty then Eval.prune settings

/-- A for statement up to its iterations, where those have a scope each: a scope for the first one is opened, and names
are declared in it. -/
def beginLoop (self : Evaluator) (settings : Settings) (declaration : Stmt) : Eval Unit := do
  pruneOutside settings
  let _ ← Engine.pushScope .block "for" none
  self.stmt declaration

variable {settings : Settings} {condition update : Option Expr} {body : Stmt} {m n : Machine Journal}

theorem evalStmt_apply {self : Evaluator} {x : Stmt} (hx : x ≠ .comment) (m : Machine Journal) :
    self.evalStmt settings x m = (pruneOutside settings >>= fun _ ↦ self.execute x) m := by
  have houtside : self.evalStmt settings x m =
      (if m.state.frames.isEmpty = true then Eval.prune settings >>= fun _ ↦ self.execute x else self.execute x) m := by
    cases x with
    | comment => exact absurd rfl hx
    | _ => rfl
  have hprune : pruneOutside settings m = (if m.state.frames.isEmpty = true then Eval.prune settings else pure ()) m := rfl
  rw [houtside, bind_apply, hprune]
  split <;> rfl

theorem evalStmt_loop {self : Evaluator} {declaration : Stmt} (h : self.beginLoop settings declaration m = .ok () n) :
    self.evalStmt settings (.loop (.declaration true declaration) condition update body) m =
      Activity.closing (self.loop true condition update body) (Engine.popScope >>= fun _ ↦ pure ()) n := by
  obtain ⟨_, l, hprune, hbegin⟩ := bind_eq_ok h
  obtain ⟨id, l', hpush, hstmt⟩ := bind_eq_ok hbegin
  have hexecute : self.execute (.loop (.declaration true declaration) condition update body) =
      inScope "for" (self.stmt declaration >>= fun _ ↦ self.loop true condition update body) := rfl
  have hloop : Stmt.loop (.declaration true declaration) condition update body ≠ .comment := nofun
  rw [evalStmt_apply hloop, bind_apply, hprune]
  dsimp only
  rw [hexecute]
  unfold inScope
  rw [bind_apply, hpush]
  unfold Activity.closing
  dsimp only
  rw [bind_apply, hstmt]

/-- The iterations that a loop comes to, within a depth, with the machine that one starts on and the one on which its
body has ended. -/
inductive Iterates (settings : Settings) (condition update : Option Expr) (body : Stmt) :
    Nat → Machine Journal → Machine Journal → Machine Journal → Prop
  | first {depth : Nat} {m l n : Machine Journal} :
      (ofDepth settings depth).goesOn condition m = .ok true l → (ofDepth settings depth).stmt body l = .ok () n →
      Iterates settings condition update body (depth + 1) m m n
  | later {depth id : Nat} {v : Value} {m l n n' m' a b : Machine Journal} :
      (ofDepth settings depth).goesOn condition m = .ok true l → (ofDepth settings depth).stmt body l = .ok () n →
      (liftM Engine.renewScope : Eval Nat) n = .ok id n' → (ofDepth settings depth).optional update n' = .ok v m' →
      Iterates settings condition update body depth m' a b → Iterates settings condition update body (depth + 1) m a b

/-- Behind the body of an iteration, what is left of a loop is to renew the scope, to update and to go on. -/
theorem Iterates.loop_eq {depth : Nat} {a b : Machine Journal} (h : Iterates settings condition update body depth m a b) :
    ∃ n, (ofDepth settings depth).loop true condition update body m =
      ((liftM Engine.renewScope : Eval Nat) >>= fun _ ↦ (ofDepth settings n).optional update >>= fun _ ↦
        (ofDepth settings n).loop true condition update body) b := by
  have hloop {depth : Nat} {m l n : Machine Journal} (hgoesOn : (ofDepth settings depth).goesOn condition m = .ok true l)
      (hbody : (ofDepth settings depth).stmt body l = .ok () n) :
      (ofDepth settings (depth + 1)).loop true condition update body m =
        ((liftM Engine.renewScope : Eval Nat) >>= fun _ ↦ (ofDepth settings depth).optional update >>= fun _ ↦
          (ofDepth settings depth).loop true condition update body) n := by
    change (ofDepth settings depth).evalLoop true condition update body m = _
    unfold evalLoop
    rw [bind_apply, hgoesOn]
    dsimp only
    rw [if_pos rfl, bind_apply, hbody]
    rfl
  induction h with
  | first hgoesOn hbody => exact ⟨_, hloop hgoesOn hbody⟩
  | later hgoesOn hbody hrenew hupdate _ ih =>
    obtain ⟨n, hn⟩ := ih
    refine ⟨n, ?_⟩
    rw [hloop hgoesOn hbody, bind_apply, hrenew]
    dsimp only
    rw [bind_apply, hupdate]
    exact hn

end Evaluator

namespace Correspondence.Scoping

open State Evaluator

variable {settings : Settings} {k : Stretch} {α : Type} {A : Machines → α → Prop} {r : State} {m n : Machine Journal}

/-- A loop is in one of its iterations, the scope of which is newer than what there was before the loop. -/
structure Turning (r : State) (m : Machine Journal) : Prop where
  holds : (scoping True).holds (m, m)
  inner : (scoping True).renewable (m, m)
  chain : ∃ i, m.state.chain = i :: r.chain ∧ r.lastId < i
  shapes : m.state.frames.map Frame.shape = r.frames.map Frame.shape

theorem moves_of_ok {x : Eval α} {a : α} (h : (scoping True).Related k A x x (m, m)) (hx : x m = .ok a n) :
    (scoping True).holds (n, n) ∧ m.state.Moves k n.state := by
  unfold Related at h
  dsimp only at h
  rw [hx] at h
  cases h with
  | ok hq hl _ => exact ⟨hq, hl⟩

/-- Whatever happens in an iteration, its scope stays the innermost one. -/
theorem Turning.step (hm : Turning r m) {x : Eval α} {a : α} (h : (scoping True).Related .statement A x x (m, m))
    (hx : x m = .ok a n) : Turning r n ∧ n.state.chain = m.state.chain := by
  obtain ⟨hn, hmoves⟩ := moves_of_ok h hx
  have hchain := hmoves.chain (by decide)
  have hinner := (scoping True).renewable_leads (p := (m, m)) (q := (n, n)) (hmoves.of_statement (by decide)) hm.inner
  exact ⟨⟨hn, hinner, hchain ▸ hm.chain, hmoves.shapes.trans hm.shapes⟩, hchain⟩

theorem Turning.renew (hr : r.Lexical) (hm : Turning r m) {id : Nat}
    (hx : (liftM Engine.renewScope : Eval Nat) m = .ok id n) : Turning r n := by
  obtain ⟨hn, hmoves⟩ := moves_of_ok (related_renew hm.holds hm.inner) hx
  have hinner := (scoping True).renewable_leads (p := (m, m)) (q := (n, n)) hmoves hm.inner
  obtain ⟨i, hchain, hi⟩ := hm.chain
  have hlexical : m.state.Lexical := hm.holds.1
  obtain ⟨j, t, ht, hrenews, hnew, -⟩ := exists_renews hr hlexical hm.inner hchain hi hm.shapes
  have hstate : Engine.renewScope m.state = .ok id n.state := Activity.ofEngine_eq_ok hx
  obtain ⟨rfl, rfl⟩ : j = id ∧ t = n.state := by
    cases ht.symm.trans hstate
    exact ⟨rfl, rfl⟩
  obtain ⟨rest, hrest, hchain'⟩ := hrenews.chain
  obtain rfl : rest = r.chain := (List.cons_eq_cons.mp (hrest.symm.trans hchain)).2
  have hframes : n.state.frames = m.state.frames := by rw [hrenews.elsewhere]
  exact ⟨hn, hinner, ⟨j, hchain', hnew⟩, hframes ▸ hm.shapes⟩

section Loop

variable (hs : settings.names = .ofScopes) (hr : r.Lexical) {condition update : Option Expr} {body : Stmt}
include hs

include hr in
/-- So the scope is still there where the body has ended. -/
theorem Turning.iterates {depth : Nat} {a b : Machine Journal} (h : Iterates settings condition update body depth m a b)
    (hm : Turning r m) : Turning r b ∧ b.state.chain = a.state.chain := by
  have hsound := (sound_ofScopes hs).toSound
  have hbody {depth : Nat} {m l n : Machine Journal} (hm : Turning r m)
      (hgoesOn : (ofDepth settings depth).goesOn condition m = .ok true l)
      (hstmt : (ofDepth settings depth).stmt body l = .ok () n) : Turning r n ∧ n.state.chain = m.state.chain := by
    obtain ⟨hl, hchain⟩ := hm.step ((hsound.parts depth).goesOn hsound condition hm.holds).of_expression hgoesOn
    obtain ⟨hn, hchain'⟩ := hl.step ((hsound.parts depth).stmt body hl.holds) hstmt
    exact ⟨hn, hchain'.trans hchain⟩
  induction h with
  | first hgoesOn hstmt => exact hbody hm hgoesOn hstmt
  | @later depth id v m l n n' m' a b hgoesOn hstmt hrenew hupdate h ih =>
    have hn' := (hbody hm hgoesOn hstmt).1.renew hr hrenew
    exact ih (hn'.step ((hsound.parts depth).optional hsound update hn'.holds).of_expression hupdate).1

omit hr in
theorem turning_beginLoop {depth : Nat} {declaration : Stmt} (hm : (scoping True).holds (m, m))
    (h : (ofDepth settings depth).beginLoop settings declaration m = .ok () n) :
    ∃ r : State, r.Lexical ∧ r.chain = m.state.chain ∧ Turning r n := by
  have hsound := (sound_ofScopes hs).toSound
  have houtside : (scoping True).Related .statement anything (pruneOutside settings) (pruneOutside settings) (m, m) := by
    refine related_getState (.ite (fun hempty ↦ ?_) fun _ ↦ .pure hm trivial)
    exact hsound.prune hm (List.isEmpty_iff.mp hempty)
  obtain ⟨_, l, hprune, hbegin⟩ := bind_eq_ok h
  obtain ⟨id, l', hpush, hstmt⟩ := bind_eq_ok hbegin
  obtain ⟨hl, hmoves⟩ := moves_of_ok houtside hprune
  have hopened := holds_opened "for" hl
  have hl' : Turning l.state l' := by
    cases hpush
    exact ⟨hopened.1, hopened.2, ⟨_, rfl, Nat.lt_succ_self _⟩, rfl⟩
  exact ⟨l.state, hl.1, hmoves.chain (by decide), (hl'.step ((hsound.parts depth).stmt declaration hl'.holds) hstmt).1⟩

end Loop

end Correspondence.Scoping

/-- What is true of a machine where a for statement with a scope for each iteration begins, whichever it is. -/
structure Machine.Isolates (settings : Settings) (m : Machine Journal) : Prop where
  /-- behind its beginning the statement is a loop, and a scope is closed at the end -/
  statement : ∀ depth declaration condition update body start,
    (Evaluator.ofDepth settings depth).beginLoop settings declaration m = .ok () start →
    (Evaluator.ofDepth settings (depth + 1)).stmt (.loop (.declaration true declaration) condition update body) m =
      Activity.closing ((Evaluator.ofDepth settings depth).loop true condition update body)
        (Engine.popScope >>= fun _ ↦ pure ()) start
  /-- the scope that is the innermost one during an iteration gives way to a new one when the body has ended, and is
  sealed; the update comes after that, and so do the other iterations -/
  iterations : ∀ depth declaration condition update body start,
    (Evaluator.ofDepth settings depth).beginLoop settings declaration m = .ok () start →
    ∀ a b, Evaluator.Iterates settings condition update body depth start a b →
    ∃ n i j t, (Evaluator.ofDepth settings depth).loop true condition update body start =
        ((liftM Engine.renewScope : Eval Nat) >>= fun _ ↦ (Evaluator.ofDepth settings n).optional update >>= fun _ ↦
          (Evaluator.ofDepth settings n).loop true condition update body) b ∧
      a.state.chain = i :: m.state.chain ∧ Engine.renewScope b.state = .ok j t ∧ b.state.Renews i j t ∧ t.Sealed i

open Correspondence.Scoping in
theorem Machine.isolates {settings : Settings} (hs : settings.names = .ofScopes) {m : Machine Journal}
    (hm : (Correspondence.scoping True).holds (m, m)) : m.Isolates settings := by
  refine ⟨fun depth declaration condition update body start hstart ↦ Evaluator.evalStmt_loop hstart,
    fun depth declaration condition update body start hstart a b h ↦ ?_⟩
  obtain ⟨n, hloop⟩ := h.loop_eq
  obtain ⟨r, hr, hchain, hturning⟩ := turning_beginLoop hs hm hstart
  obtain ⟨hb, hsame⟩ := hturning.iterates hs hr h
  obtain ⟨i, hi, hnew⟩ := hb.chain
  obtain ⟨j, t, hrenew, hrenews, -, hsealed⟩ := State.exists_renews hr hb.holds.1 hb.inner hi hnew hb.shapes
  exact ⟨n, i, j, t, hloop, hsame ▸ hchain ▸ hi, hrenew, hrenews, hsealed⟩

open Evaluator in
/-- The second iteration of a loop without an end, whose scope is the third one. -/
example (location : Location) : ∃ start a b,
    (ofDepth {} 4).beginLoop {} (.declaration .blockScoped [.mk (.name "i") none] location) .initial = .ok () start ∧
    Iterates {} none none .empty 4 start a b ∧ a.state.chain = [3, 1] :=
  ⟨_, _, _, rfl, .later rfl rfl rfl rfl (.first rfl rfl), rfl⟩

theorem Reading.isFresh_readInitializer (kind : Kind) (stmt : Stmt) (clause : Option Expr) :
    Evaluator.isFresh (readInitializer kind stmt clause) = true ↔ kind = .lexicalDeclaration := by
  unfold readInitializer
  split
  · exact iff_of_true rfl rfl
  · exact iff_of_false nofun nofun
  next hkind _ => exact iff_of_false nofun fun h ↦ hkind h
  next hkind _ => exact iff_of_false nofun fun h ↦ hkind h

open Correspondence.Scoping in
/-- Wherever a run comes to a for statement that begins with let or const, the scope of each iteration gives way to a new
one with the same bindings when the body has ended, and nothing else is different. From then on it is sealed: the update,
the condition, the later iterations and whatever comes behind the loop leave it alone, but for calls of functions that
captured it. -/
theorem iterations_isolated (ceiling : Int) (prunes : Bool) (other : Evaluator) (depth : Nat) (program : Program) :
    let settings : Settings := { ceiling, prunes }
    (∀ kind stmt clause, Evaluator.isFresh (Reading.readInitializer kind stmt clause) = true ↔ kind = .lexicalDeclaration) ∧
    (Evaluator.watched (Machine.Isolates settings) other settings depth).program settings program .initial =
      settings.run depth program ∧
    ∀ i, Evaluator.Seals settings i := by
  intro settings
  have hs : settings.names = .ofScopes := rfl
  have hsound := sound_ofScopes hs
  have hparts := hsound.watched (P := Machine.Isolates settings) (fun {p} hp ↦ ?_) other depth
  · have hwatched := hparts.program hsound program (holds_initial True) rfl
    exact ⟨Reading.isFresh_readInitializer, (eq_of_ends hwatched).1, Evaluator.seals hs⟩
  · obtain ⟨m, n⟩ := p
    obtain rfl : n = m := eq_of_holds hp
    exact Machine.isolates hs hp

end Stepwise
