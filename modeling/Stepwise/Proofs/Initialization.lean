import Stepwise.Proofs.State.Row
import Stepwise.Proofs.Run.Statement
/-!
What declared names are bound to. A declarator binds its names to the very value of its initializer, or to the very
elements that this holds, unless the value is a function without a name. A literal of a function without a name takes
the name that it is declared under; where another initializer comes to such a function the program puts a copy with that
name in its place.
-/

namespace Stepwise

/-- The name of the function that a literal makes, in parentheses or not. -/
def Expr.literalName? : Expr → Option String
  | .function name _ _ _ => some (name.getD Function.anonymous)
  | .parenthesized (some inner) => inner.literalName?
  | _ => none

/-- What the slots of a pattern report, each that is no name on its own. -/
def slotProblems (slots : List (Nat × Slot)) : List Diagnostic :=
  slots.filterMap fun (_, slot) => match slot with
    | .target _ _ => none
    | .unsupported kind location => some (.unsupported kind location)

/-- The names that the slots of a pattern bind, each with the element at its place. -/
def slotRow (elements : List Value) (slots : List (Nat × Slot)) : List (String × Value) :=
  slots.filterMap fun (index, slot) => match slot with
    | .target text _ => some (text, elements.getD index .undefined)
    | .unsupported _ _ => none

namespace Binder

def problems : Binder → List Diagnostic
  | .slots targets => slotProblems targets
  | .unsupported kind location => [.unsupported kind location]
  | _ => []

/-- The names that a target binds when it is declared with a value. -/
def row (heap : Heap) (v : Value) : Binder → List (String × Value)
  | .name text => [(text, v)]
  | .slots targets => slotRow ((heap.elements? v).getD []) targets
  | _ => []

end Binder

namespace Machine

/-- A machine with problems noted down. -/
def reporting (m : Machine Journal) (problems : List Diagnostic) : Machine Journal :=
  { m with journal := { m.journal with diagnostics := m.journal.diagnostics ++ problems } }

theorem reporting_nil (m : Machine Journal) : m.reporting [] = m := by
  unfold reporting
  rw [List.append_nil]

theorem reporting_append (m : Machine Journal) (problems problems' : List Diagnostic) :
    (m.reporting problems).reporting problems' = m.reporting (problems ++ problems') := by
  unfold reporting
  rw [List.append_assoc]

theorem reportUnsupported_apply (kind : String) (location : Location) (m : Machine Journal) :
    Eval.reportUnsupported kind location m = .ok () (m.reporting [.unsupported kind location]) := rfl

end Machine

namespace State

/-- A target is declared with a value. Every name that it binds is found in the scope of the declaration as it was
declared last, and means just that if variables of the whole function are left aside. -/
structure Binds (s : State) (kind : BindingKind) (id : Nat) (target : Binder) (v : Value) (t : State) : Prop where
  home : s.home kind = .ok id
  declares : s.Declares kind id (target.row s.heap v) t
  found : ∀ before x a behind, target.row s.heap v = before ++ (x, a) :: behind → x ∉ behind.map Prod.fst →
    ∃ scope, t.scope? id = some scope ∧ scope.bindings.get? x = some a
  resolves : kind ≠ .functionScoped → ∀ before x a behind, target.row s.heap v = before ++ (x, a) :: behind →
    x ∉ behind.map Prod.fst → t.resolve x = .ok a

namespace LexicallyScoped

variable {s : State} (h : s.LexicallyScoped)
include h

theorem exists_functionScope : ∃ id scope, s.functionScope = .ok id ∧ s.scope? id = some scope := by
  obtain ⟨scopes, hvisible, hline, -, hlast⟩ := h.line
  obtain ⟨outermost, houtermost⟩ := List.getLast?_isSome.mpr hline.ne_nil |> Option.isSome_iff_exists.mp
  obtain ⟨last, hmem, hid⟩ := List.mem_map.mp (List.mem_of_getLast? houtermost)
  obtain ⟨i, hi⟩ := exists_of_visible hvisible hmem
  obtain rfl := id_of_scope? hi
  -- the outermost of the visible scopes is one to which variables can go
  have hglobal : last.kind = .global := by
    refine (h.global last.id last hi).mpr ?_
    rw [← hlast, houtermost, hid]
  have hfound : (scopes.find? fun scope ↦ scope.kind = .function || scope.kind = .global).isSome := by
    refine List.find?_isSome.mpr ⟨last, hmem, ?_⟩
    rw [hglobal]
    rfl
  obtain ⟨scope, hscope⟩ := Option.isSome_iff_exists.mp hfound
  obtain ⟨i, hi⟩ := exists_of_visible hvisible (List.mem_of_find?_eq_some hscope)
  obtain rfl := id_of_scope? hi
  refine ⟨scope.id, scope, ?_, hi⟩
  unfold functionScope
  rw [hvisible]
  simp only [Bind.bind, Except.bind]
  rw [hscope]
  rfl

theorem exists_home (kind : BindingKind) : ∃ id scope, s.home kind = .ok id ∧ s.scope? id = some scope := by
  unfold home
  split
  next => exact h.exists_functionScope
  next =>
    obtain ⟨id, -, scope, -, hhead, hscope⟩ := h.exists_visible
    exact ⟨id, scope, hhead, hscope⟩

/-- What is declared outside of the scope of the function is innermost. -/
theorem binds {kind : BindingKind} {id : Nat} {scope : Scope} {target : Binder} {v : Value} {identity : Nat} {t : State}
    (hhome : s.home kind = .ok id) (hscope : s.scope? id = some scope)
    (hdeclares : { s with lastIdentity := identity }.Declares kind id (target.row s.heap v) t) :
    { s with lastIdentity := identity }.Binds kind id target v t := by
  refine ⟨hhome, hdeclares, fun before x a behind hrow hlast ↦ ?_, fun hkind before x a behind hrow hlast ↦ ?_⟩
  · exact (hrow ▸ hdeclares).get?_of_last hscope hlast
  · obtain ⟨head, outer, innermost, hvisible, hhead, hinnermost⟩ := h.exists_visible
    rw [home, if_neg hkind, hhead] at hhome
    cases hhome
    rw [List.filterMap_cons_some hinnermost] at hvisible
    exact (hrow ▸ hdeclares).resolve_of_last hvisible (id_of_scope? hinnermost) hlast

end LexicallyScoped

end State

namespace Eval

variable {m : Machine Journal} {kind : BindingKind} {id : Nat} {scope : Scope}

theorem exists_declareAs (hhome : m.state.home kind = .ok id) (hscope : m.state.scope? id = some scope) (name : String)
    (v : Value) : ∃ t, declareAs .ofScopes kind name v m = .ok () { m with state := t } ∧
      m.state.Declares kind id [(name, v)] t := by
  refine ⟨_, ?_, State.declares_bind hscope kind name v⟩
  unfold State.home at hhome
  unfold declareAs
  split at hhome
  next hkind =>
    rw [if_pos hkind, bind_map_left, Names.functionScope_eq, bind_apply, reading, hhome]
    exact Activity.ofEngine_apply (Engine.declare_of_scope? hscope name v kind)
  next hkind =>
    rw [if_neg hkind, pure_bind]
    exact Activity.ofEngine_apply (Engine.declare_of_headId hhome hscope name v kind)

/-- The slots of a pattern declare their names in the scope of the declaration, and what is no name is reported. -/
theorem exists_bindSlots (elements : List Value) (slots : List (Nat × Slot)) (hhome : m.state.home kind = .ok id)
    (hscope : m.state.scope? id = some scope) :
    ∃ t, Evaluator.bindSlots elements (fun text _ item ↦ declareAs .ofScopes kind text item) slots m =
        .ok () ({ m with state := t }.reporting (slotProblems slots)) ∧
      m.state.Declares kind id (slotRow elements slots) t := by
  induction slots generalizing m scope with
  | nil =>
    refine ⟨m.state, ?_, State.declares_nil m.state kind id⟩
    exact congrArg _ (Machine.reporting_nil m).symm
  | cons slot slots ih =>
    obtain ⟨index, slot⟩ := slot
    cases slot with
    | target text place =>
      obtain ⟨t, ht, hdeclares⟩ := exists_declareAs hhome hscope text (elements.getD index .undefined)
      obtain ⟨scope', hscope'⟩ := hdeclares.exists_scope? hscope
      obtain ⟨u, hu, hrest⟩ := ih (m := { m with state := t }) ((hdeclares.home_eq kind).trans hhome) hscope'
      refine ⟨u, ?_, hdeclares.append hrest⟩
      unfold Evaluator.bindSlots
      dsimp only
      rw [bind_apply, ht]
      exact hu
    | unsupported form location =>
      obtain ⟨u, hu, hrest⟩ := ih (m := m.reporting [.unsupported form location]) hhome hscope
      refine ⟨u, ?_, hrest⟩
      unfold Evaluator.bindSlots
      dsimp only
      rw [bind_apply, Machine.reportUnsupported_apply]
      refine hu.trans (congrArg _ ?_)
      exact Machine.reporting_append { m with state := u } [.unsupported form location] (slotProblems slots)

theorem named_of_not_anonymous (name : String) {v : Value} (hv : ∀ f, v = .function f → f.isAnonymous = false) :
    named name v = pure v := by
  cases v with
  | function f =>
    unfold named
    dsimp only
    rw [hv f rfl, if_neg Bool.false_ne_true]
  | _ => rfl

theorem named_of_anonymous (name : String) {f : Function} (hf : f.isAnonymous = true) (m : Machine Journal) :
    named name (.function f) m = .ok (.function { f with name, identity := m.state.lastIdentity + 1 })
      { m with state := { m.state with lastIdentity := m.state.lastIdentity + 1 } } := by
  unfold named
  dsimp only
  rw [if_pos hf]
  rfl

theorem name_of_makeFunction {names : Names} {name : String} {params : List Param} {body : Body} {line : Int}
    {f : Function} {n : Machine Journal} (h : makeFunction names name params body line m = .ok f n) :
    f.name = name := by
  obtain ⟨_, _, -, h⟩ := bind_eq_ok h
  obtain ⟨_, _, -, h⟩ := bind_eq_ok h
  obtain ⟨_, _, -, h⟩ := bind_eq_ok h
  cases h
  rfl

end Eval

namespace Evaluator

variable {settings : Settings} {depth : Nat} {m n : Machine Journal}

theorem function_of_literal {e : Expr} {g : String} {v : Value} (he : e.literalName? = some g)
    (hv : (ofDepth settings depth).expr e m = .ok v n) : ∃ f, v = .function f ∧ f.name = g := by
  induction depth generalizing e with
  | zero => cases hv
  | succ depth ih =>
    rw [ofDepth_succ] at hv
    cases e with
    | function name params body line =>
      obtain ⟨f, n', hf, h⟩ := bind_eq_ok hv
      cases h
      refine ⟨f, rfl, (Eval.name_of_makeFunction hf).trans ?_⟩
      exact Option.some.inj he
    | parenthesized inner =>
      cases inner with
      | none => cases he
      | some inner => exact ih (e := inner) he hv
    | _ => cases he

/-- Only a function without a name is not bound as it is: the name of its variable goes to a new one like it. -/
theorem exists_bindTarget {kind : BindingKind} {id : Nat} {scope : Scope} (hhome : m.state.home kind = .ok id)
    (hscope : m.state.scope? id = some scope) {target : Binder} (htarget : target ≠ .incomplete) (v : Value) :
    ∃ w identity t, bindTarget (Eval.declareAs .ofScopes kind) target v m =
        .ok () ({ m with state := t }.reporting target.problems) ∧
      { m.state with lastIdentity := identity }.Declares kind id (target.row m.state.heap w) t ∧
      ((∀ x f, target = .name x → v = .function f → f.isAnonymous = false) →
        w = v ∧ identity = m.state.lastIdentity) ∧
      ∀ x f, target = .name x → v = .function f → f.isAnonymous = true →
        w = .function { f with name := x, identity } ∧ identity = m.state.lastIdentity + 1 := by
  cases target with
  | name x =>
    by_cases hf : ∃ f, v = .function f ∧ f.isAnonymous = true
    · obtain ⟨f, rfl, hf⟩ := hf
      obtain ⟨t, ht, hdeclares⟩ := Eval.exists_declareAs (m := { m with state := { m.state with
        lastIdentity := m.state.lastIdentity + 1 } }) hhome hscope x
        (.function { f with name := x, identity := m.state.lastIdentity + 1 })
      refine ⟨_, _, t, ?_, hdeclares, fun h ↦ ?_, ?_⟩
      · rw [bindTarget, bind_apply, Eval.named_of_anonymous x hf]
        refine ht.trans (congrArg _ ?_)
        exact (Machine.reporting_nil _).symm
      · rw [h x f rfl rfl] at hf
        cases hf
      · rintro _ _ ⟨⟩ ⟨⟩ -
        exact ⟨rfl, rfl⟩
    · obtain ⟨t, ht, hdeclares⟩ := Eval.exists_declareAs hhome hscope x v
      refine ⟨v, m.state.lastIdentity, t, ?_, hdeclares, fun _ ↦ ⟨rfl, rfl⟩, fun _ f _ hv h ↦ absurd ⟨f, hv, h⟩ hf⟩
      rw [bindTarget, Eval.named_of_not_anonymous x fun f hv ↦ ?_]
      · refine ht.trans (congrArg _ ?_)
        exact (Machine.reporting_nil _).symm
      · exact Bool.eq_false_iff.mpr fun h ↦ hf ⟨f, hv, h⟩
  | slots slots =>
    obtain ⟨t, ht, hdeclares⟩ := Eval.exists_bindSlots ((m.state.heap.elements? v).getD []) slots hhome hscope
    exact ⟨v, m.state.lastIdentity, t, ht, hdeclares, fun _ ↦ ⟨rfl, rfl⟩, fun _ _ hname ↦ by cases hname⟩
  | unsupported form location =>
    have hnothing := State.declares_nil m.state kind id
    exact ⟨v, m.state.lastIdentity, m.state, rfl, hnothing, fun _ ↦ ⟨rfl, rfl⟩, fun _ _ hname ↦ by cases hname⟩
  | incomplete => exact absurd rfl htarget

open Correspondence.Scoping in
theorem lexicallyScoped_of_optional {initial : Option Expr} {v : Value} (hs : settings.names = .ofScopes)
    (hm : (Correspondence.scoping True).holds (m, m)) (hv : (ofDepth settings depth).optional initial m = .ok v n) :
    n.state.LexicallyScoped := by
  have hsound := (sound_ofScopes hs).toSound
  have hends := (hsound.parts depth).optional hsound.toSoundForms initial hm
  unfold Correspondence.Related at hends
  rw [hv] at hends
  exact lexicallyScoped_of_ends hends

/-- A declarator binds its names to the value of its initializer, and those of a pattern to the elements that it holds,
where this is not a function without a name that comes from elsewhere. Only a literal of such a function is replaced, by
one that has the name declared. -/
theorem declarator_keeps_value (kind : BindingKind) {target : Binder} {initial : Option Expr} {v : Value}
    (hs : settings.names = .ofScopes) (htarget : target ≠ .incomplete)
    (hvalue : (ofDepth settings depth).optional initial m = .ok v n) (hn : n.state.LexicallyScoped)
    (hfunction : ∀ x f, target = .name x → initial.bind Expr.literalName? = none → v = .function f →
      f.isAnonymous = false) :
    ∃ id w identity t, (ofDepth settings depth).declarator kind (.mk target initial) m =
        .ok () ({ n with state := t }.reporting target.problems) ∧
      { n.state with lastIdentity := identity }.Binds kind id target w t ∧
      (initial.bind Expr.literalName? = none → w = v ∧ identity = n.state.lastIdentity) ∧
      ∀ g, initial.bind Expr.literalName? = some g → ∃ f, v = .function f ∧ f.name = g ∧
        (∀ x, target = .name x → g = Function.anonymous →
          w = .function { f with name := x, identity } ∧ identity = n.state.lastIdentity + 1) ∧
        ((∀ x, target ≠ .name x) ∨ g ≠ Function.anonymous → w = v ∧ identity = n.state.lastIdentity) := by
  obtain ⟨id, scope, hhome, hscope⟩ := hn.exists_home kind
  obtain ⟨w, identity, t, ht, hdeclares, hkept, hnamed⟩ := exists_bindTarget hhome hscope htarget v
  refine ⟨id, w, identity, t, ?_, hn.binds hhome hscope hdeclares, fun hinitial ↦ ?_, fun g hg ↦ ?_⟩
  · rw [declarator_mk, bind_apply, hvalue, names_ofDepth, hs]
    exact ht
  · exact hkept fun x f hx hf ↦ hfunction x f hx hinitial hf
  · cases initial with
    | none => cases hg
    | some e =>
      obtain ⟨f, rfl, rfl⟩ := function_of_literal hg hvalue
      refine ⟨f, rfl, rfl, fun x hx hf ↦ hnamed x f hx rfl (beq_iff_eq.mpr hf), fun h ↦ hkept fun x f' hx hf' ↦ ?_⟩
      cases hf'
      exact beq_eq_false_iff_ne.mpr (h.resolve_left fun hne ↦ hne x hx)

/-- The first element of an array that has a function for it. -/
def firstOfFunction (name : Option String) : Expr :=
  .subscript (.array [(0, .function name [] .incomplete 1)]) (.number "0")

theorem declarator_keeps_firstOfFunction :
    let self := ofDepth {} 3
    let initial := firstOfFunction (some "f")
    ∃ f n t, self.optional (some initial) .initial = .ok (.function f) n ∧
      self.declarator .constant (.mk (.name "g") (some initial)) .initial = .ok () { n with state := t } ∧
      t.resolve "g" = .ok (.function f) := by
  intro self initial
  have hs : ({} : Settings).names = .ofScopes := rfl
  obtain ⟨f, n, hvalue, hf⟩ : ∃ f n, self.optional (some initial) .initial = .ok (.function f) n ∧
      f.isAnonymous = false := ⟨_, _, rfl, by decide +kernel⟩
  have hn := lexicallyScoped_of_optional hs (Correspondence.Scoping.holds_initial True) hvalue
  have htarget : Binder.name "g" ≠ .incomplete := nofun
  obtain ⟨id, w, identity, t, ht, hbinds, hsame, -⟩ := declarator_keeps_value .constant hs htarget hvalue hn
    (by rintro x f' - - ⟨⟩; exact hf)
  obtain ⟨rfl, -⟩ := hsame rfl
  have hproblems : (Binder.name "g").problems = [] := rfl
  rw [hproblems, Machine.reporting_nil] at ht
  exact ⟨f, n, t, hvalue, ht, hbinds.resolves (by decide) [] "g" (.function f) [] rfl List.not_mem_nil⟩

/-- A function without a name is not equal to what it is declared as, even if it is the element of an array. -/
theorem declarator_replaces_firstOfFunction :
    let self := ofDepth {} 3
    let initial := firstOfFunction none
    ∃ v w n t, initial.literalName? = none ∧ self.optional (some initial) .initial = .ok v n ∧
      self.declarator .constant (.mk (.name "g") (some initial)) .initial = .ok () t ∧
      t.state.resolve "g" = .ok w ∧ v.strictEquals w = false :=
  ⟨_, _, _, _, rfl, rfl, rfl, rfl, rfl⟩

end Evaluator

end Stepwise
