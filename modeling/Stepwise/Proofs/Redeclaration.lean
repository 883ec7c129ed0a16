import Stepwise.Proofs.Hoisting.Declaring
import Stepwise.Proofs.Initialization
import Stepwise.Proofs.IterationIsolation
/-!
Declarations of variables that are bound already. On entry of a body they are left alone. A declaration without a value
that is executed makes them undefined, wherever control comes from.
-/

namespace Stepwise

namespace State

variable {s t u : State} {kind : BindingKind} {id : Nat} {names names' : List String} {name : String} {v : Value}
  {scope : Scope}

theorem Declares.cell?_eq (h : s.Declares kind id [(name, v)] t) (hscope : s.scope? id = some scope) (i : Nat) (x : String) :
    t.cell? i x = if i = id ∧ x = name then some v else s.cell? i x := by
  have hrebound (i : Nat) : t.scope? i = (s.scope? i).map (rebound id name v) := h.scope?_eq i
  rw [cell?_of_rebound hrebound]
  by_cases hcell : i = id ∧ x = name
  · rw [if_pos hcell, if_pos hcell, hcell.1, hscope, Option.map_some]
  · rw [if_neg hcell, if_neg hcell]

/-- Some names are undefined in the scope that variables go to. Everything else that is bound is as it was. -/
structure Undefines (s : State) (id : Nat) (names : List String) (t : State) : Prop where
  home : t.functionScope = .ok id
  scope : ∃ scope, t.scope? id = some scope
  cells : ∀ i x, t.cell? i x = if i = id ∧ x ∈ names then some .undefined else s.cell? i x

namespace Undefines

theorem refl (hhome : s.functionScope = .ok id) (hscope : s.scope? id = some scope) : s.Undefines id [] s := by
  refine ⟨hhome, ⟨scope, hscope⟩, fun i x ↦ ?_⟩
  rw [if_neg fun h ↦ List.not_mem_nil h.2]

theorem trans (h : s.Undefines id names t) (h' : t.Undefines id names' u) : s.Undefines id (names ++ names') u := by
  refine ⟨h'.home, h'.scope, fun i x ↦ ?_⟩
  rw [h'.cells, h.cells]
  by_cases hid : i = id
  · by_cases hx : x ∈ names' <;> by_cases hx' : x ∈ names <;> simp [hid, hx, hx']
  · simp [hid]

theorem congr (h : s.Undefines id names t) (hnames : ∀ x, x ∈ names ↔ x ∈ names') : s.Undefines id names' t := by
  refine ⟨h.home, h.scope, fun i x ↦ ?_⟩
  simp only [h.cells, hnames]

theorem of_declares (hhome : s.functionScope = .ok id) (hscope : s.scope? id = some scope)
    (h : s.Declares kind id [(name, .undefined)] t) : s.Undefines id [name] t := by
  refine ⟨h.functionScope_eq.trans hhome, h.exists_scope? hscope, fun i x ↦ ?_⟩
  simp only [h.cell?_eq hscope, List.mem_singleton]

end Undefines

/-- Outside of calls it does not matter for variables what is captured. -/
theorem functionScope_withCaptured (h : s.frames = []) (captured : List Nat) :
    { s with captured }.functionScope = s.functionScope := by
  unfold functionScope visible visibleIds
  rw [h]
  rfl

end State

namespace Evaluator

open State

variable {settings : Settings} {self : Evaluator} {depth : Nat} {m : Machine Journal} {id : Nat} {names : List String}
  {scope : Scope}

/-- A declaration of variables without values. -/
def bareDeclaration (names : List String) (location : Location) : Stmt :=
  .declaration .functionScoped (names.map fun name ↦ .mk (.name name) none) location

theorem exists_pruneOutside (settings : Settings) (hhome : m.state.functionScope = .ok id)
    (hscope : m.state.scope? id = some scope) :
    ∃ t, pruneOutside settings m = .ok () { m with state := t } ∧ m.state.Undefines id [] t := by
  have hsame : m.state.Undefines id [] m.state := .refl hhome hscope
  have houtside : pruneOutside settings m = (if m.state.frames.isEmpty = true then Eval.prune settings else pure ()) m := rfl
  rw [houtside]
  by_cases hframes : m.state.frames.isEmpty = true
  · rw [if_pos hframes]
    unfold Eval.prune
    by_cases hprunes : settings.prunes = true
    · rw [if_pos hprunes]
      have hhome' : m.state.prune.functionScope = .ok id :=
        (functionScope_withCaptured (List.isEmpty_iff.mp hframes) _).trans hhome
      exact ⟨m.state.prune, rfl, hhome', ⟨scope, hscope⟩, hsame.cells⟩
    · rw [if_neg hprunes]
      exact ⟨m.state, rfl, hsame⟩
  · rw [if_neg hframes]
    exact ⟨m.state, rfl, hsame⟩

theorem exists_declarators (hs : self.names = .ofScopes) (names : List String) (hhome : m.state.functionScope = .ok id)
    (hscope : m.state.scope? id = some scope) :
    ∃ t, self.declarators .functionScoped (names.map fun name ↦ .mk (.name name) none) m = .ok () { m with state := t } ∧
      m.state.Undefines id names t := by
  induction names generalizing m scope with
  | nil => exact ⟨m.state, rfl, .refl hhome hscope⟩
  | cons name names ih =>
    have hkind : m.state.home .functionScoped = .ok id := hhome
    obtain ⟨t, ht, hdeclares⟩ := Eval.exists_declareAs hkind hscope name .undefined
    have hone := Undefines.of_declares hhome hscope hdeclares
    obtain ⟨scope', hscope'⟩ := hone.scope
    obtain ⟨u, hu, hrest⟩ := ih (m := { m with state := t }) hone.home hscope'
    refine ⟨u, ?_, hone.trans hrest⟩
    have hdeclarator : self.declarator .functionScoped (.mk (.name name) none) m = .ok () { m with state := t } := by
      rw [declarator_mk, hs]
      exact ht
    rw [List.map_cons, declarators, bind_apply, hdeclarator]
    exact hu

theorem exists_bareDeclaration (hs : settings.names = .ofScopes) (depth : Nat) (names : List String) (location : Location)
    (hhome : m.state.functionScope = .ok id) (hscope : m.state.scope? id = some scope) :
    ∃ n, (ofDepth settings (depth + 1)).stmt (bareDeclaration names location) m = .ok () n ∧
      m.state.Undefines id names n.state := by
  obtain ⟨s, hprune, hpruned⟩ := exists_pruneOutside settings hhome hscope
  obtain ⟨scope', hscope'⟩ := hpruned.scope
  obtain ⟨r, hrecord, hr⟩ : ∃ r, Eval.recordAt location "Declaring variable" { m with state := s } = .ok () r ∧
      r.state = s := ⟨_, rfl, rfl⟩
  obtain ⟨t, ht, hundefines⟩ := exists_declarators ((names_ofDepth settings depth).trans hs) names
    (m := r) (hr ▸ hpruned.home) (hr ▸ hscope')
  rw [hr] at hundefines
  refine ⟨{ r with state := t }, ?_, hpruned.trans hundefines⟩
  have hnext : ((ofDepth settings depth).next settings).stmt = (ofDepth settings depth).evalStmt settings := rfl
  have hcomment : bareDeclaration names location ≠ .comment := by
    intro h
    cases h
  rw [ofDepth_succ, hnext, evalStmt_apply hcomment, bind_apply, hprune]
  dsimp only
  unfold bareDeclaration execute
  dsimp only
  rw [bind_apply, hrecord]
  exact ht

theorem exists_bareDeclarations (hs : settings.names = .ofScopes) (depth : Nat) (names : List String) (location : Location)
    (count : Nat) (hhome : m.state.functionScope = .ok id) (hscope : m.state.scope? id = some scope) :
    ∃ n, (ofDepth settings (depth + 1)).stmts (List.replicate count (bareDeclaration names location)) m = .ok () n ∧
      m.state.Undefines id (if count = 0 then [] else names) n.state := by
  induction count generalizing m scope with
  | zero => exact ⟨m, rfl, .refl hhome hscope⟩
  | succ count ih =>
    obtain ⟨l, hl, hundefines⟩ := exists_bareDeclaration hs depth names location hhome hscope
    obtain ⟨scope', hscope'⟩ := hundefines.scope
    obtain ⟨n, hn, hrest⟩ := ih hundefines.home hscope'
    refine ⟨n, ?_, (hundefines.trans hrest).congr fun x ↦ ?_⟩
    · rw [List.replicate_succ, stmts, bind_apply, hl]
      exact hn
    · rw [if_neg (Nat.succ_ne_zero count), List.mem_append]
      split <;> simp

end Evaluator

namespace Eval

variable {m : Machine Journal} {home : Nat} {scope : Scope}

theorem exists_hoistName_cells (name : String) (hhead : m.state.headId = .ok home)
    (hscope : m.state.scope? home = some scope) :
    ∃ t, hoistName home name m = .ok () { m with state := t } ∧ t.headId = .ok home ∧
      (∃ scope, t.scope? home = some scope) ∧ ∀ i x, t.cell? i x =
        if i = home ∧ x = name then some ((m.state.cell? i x).getD .undefined) else m.state.cell? i x := by
  have hcell (x : String) : m.state.cell? home x = scope.bindings.get? x := by
    rw [State.cell?, hscope, Option.bind_some]
  rw [hoistName_of_scope hscope]
  cases hbound : scope.bindings.contains name with
  | true =>
    obtain ⟨v, hv⟩ := Option.isSome_iff_exists.mp hbound
    refine ⟨m.state, rfl, hhead, ⟨scope, hscope⟩, fun i x ↦ ?_⟩
    split
    next h => rw [h.1, h.2, hcell, hv, Option.getD_some]
    next => rfl
  | false =>
    have hdeclare := Engine.declare_of_headId hhead hscope name .undefined .functionScoped
    have hdeclares := State.declares_bind hscope .functionScoped name .undefined
    refine ⟨_, Activity.ofEngine_apply hdeclare, hdeclares.headId_eq.trans hhead, hdeclares.exists_scope? hscope,
      fun i x ↦ ?_⟩
    rw [hdeclares.cell?_eq hscope]
    split
    next h =>
      have hnone : scope.bindings.get? name = none := Option.not_isSome_iff_eq_none.mp (Bool.eq_false_iff.mp hbound)
      rw [h.1, h.2, hcell, hnone, Option.getD_none]
    next => rfl

theorem exists_hoist_cells (hoisted : List String) (hhead : m.state.headId = .ok home)
    (hscope : m.state.scope? home = some scope) :
    ∃ t, hoist .ofScopes hoisted m = .ok () { m with state := t } ∧ ∀ i x, t.cell? i x =
      if i = home ∧ x ∈ hoisted then some ((m.state.cell? i x).getD .undefined) else m.state.cell? i x := by
  rw [hoist_of_headId hhead]
  induction hoisted generalizing m scope with
  | nil =>
    refine ⟨m.state, rfl, fun i x ↦ ?_⟩
    rw [if_neg fun h ↦ List.not_mem_nil h.2]
  | cons name hoisted ih =>
    obtain ⟨s, hs, hhead', ⟨scope', hscope'⟩, hcells⟩ := exists_hoistName_cells name hhead hscope
    obtain ⟨t, ht, hrest⟩ := ih (m := { m with state := s }) hhead' hscope'
    refine ⟨t, ?_, fun i x ↦ ?_⟩
    · rw [List.forM, bind_apply, hs]
      exact ht
    · rw [hrest, hcells]
      by_cases hi : i = home
      · by_cases hx : x = name <;> simp [hi, hx]
      · simp [hi]

end Eval

open Evaluator

/-- A name is bound in the scope that variables go to. Entering a body there leaves alone what is bound, and the other names
that it hoists become undefined. Executing a declaration without values, however often, makes the names declared undefined
and touches nothing else, so that the name keeps its value exactly if this is undefined already, it is not declared, or the
declaration is not executed at all. -/
theorem redeclaration {settings : Settings} (hs : settings.names = .ofScopes) {m : Machine Journal} {id : Nat} {x : String}
    {v : Value} (hhome : m.state.functionScope = .ok id) (hx : m.state.cell? id x = some v) :
    (∀ hoisted, m.state.headId = .ok id → ∃ t, Eval.hoist .ofScopes hoisted m = .ok () { m with state := t } ∧
      t.cell? id x = some v ∧ ∀ i y, t.cell? i y =
        if i = id ∧ y ∈ hoisted then some ((m.state.cell? i y).getD .undefined) else m.state.cell? i y) ∧
    ∀ depth names location count,
      ∃ n, (ofDepth settings (depth + 1)).stmts (List.replicate count (bareDeclaration names location)) m = .ok () n ∧
        (n.state.cell? id x = some v ↔ v = .undefined ∨ x ∉ names ∨ count = 0) ∧
        ∀ i y, n.state.cell? i y = if count ≠ 0 ∧ i = id ∧ y ∈ names then some .undefined else m.state.cell? i y := by
  obtain ⟨scope, hscope, -⟩ := Option.bind_eq_some_iff.mp hx
  refine ⟨fun hoisted hhead ↦ ?_, fun depth names location count ↦ ?_⟩
  · obtain ⟨t, ht, hcells⟩ := Eval.exists_hoist_cells hoisted hhead hscope
    refine ⟨t, ht, ?_, hcells⟩
    rw [hcells, hx, Option.getD_some, ite_self]
  · obtain ⟨n, hn, hundefines⟩ := exists_bareDeclarations hs depth names location count hhome hscope
    have hcells (i : Nat) (y : String) : n.state.cell? i y =
        if count ≠ 0 ∧ i = id ∧ y ∈ names then some .undefined else m.state.cell? i y := by
      rw [hundefines.cells]
      by_cases hcount : count = 0 <;> simp [hcount]
    refine ⟨n, hn, ?_, hcells⟩
    rw [hcells, hx]
    by_cases hcount : count = 0
    · simp [hcount]
    · by_cases hmem : x ∈ names
      · simp [hcount, hmem, eq_comm]
      · simp [hmem]

/-- A machine on which one variable was declared with a value. -/
def boundTo (v : Value) : Machine Journal :=
  after (Eval.declareAs .ofScopes .functionScoped "x" v .initial)

theorem redeclaration_keeps_bound :
    (boundTo (.boolean true)).state.functionScope = .ok 1 ∧
    (boundTo (.boolean true)).state.cell? 1 "x" = some (.boolean true) ∧
    (∃ t, Eval.hoist .ofScopes ["x", "y"] (boundTo (.boolean true)) = .ok () { boundTo (.boolean true) with state := t } ∧
      t.cell? 1 "x" = some (.boolean true)) ∧
    ∃ n, (ofDepth {} 1).stmts (List.replicate 2 (bareDeclaration ["x"] .unknown)) (boundTo .undefined) = .ok () n ∧
      n.state.cell? 1 "x" = some .undefined := by
  have hs : ({} : Settings).names = .ofScopes := rfl
  have hhome (v : Value) : (boundTo v).state.functionScope = .ok 1 := rfl
  obtain ⟨hhoists, -⟩ := redeclaration hs (hhome (.boolean true)) (x := "x") (v := .boolean true) rfl
  obtain ⟨t, ht, hentered, -⟩ := hhoists ["x", "y"] rfl
  obtain ⟨-, hexecutes⟩ := redeclaration hs (hhome .undefined) (x := "x") (v := .undefined) rfl
  obtain ⟨n, hn, hkept, -⟩ := hexecutes 0 ["x"] .unknown 2
  exact ⟨rfl, rfl, ⟨t, ht, hentered⟩, n, hn, hkept.mpr (.inl rfl)⟩

/-- Once a declaration without a value is executed, any other value is lost. -/
theorem redeclaration_of_true :
    (boundTo (.boolean true)).state.functionScope = .ok 1 ∧
    (boundTo (.boolean true)).state.cell? 1 "x" = some (.boolean true) ∧
    ∃ n, (ofDepth {} 1).stmt (bareDeclaration ["x"] .unknown) (boundTo (.boolean true)) = .ok () n ∧
      n.state.cell? 1 "x" = some .undefined :=
  ⟨rfl, rfl, _, rfl, rfl⟩

end Stepwise
