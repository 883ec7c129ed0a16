import Stepwise.Proofs.Hoisting.Home
import Stepwise.Proofs.Hoisting.Reading
import Stepwise.Proofs.Run.Statement
/-!
Declarations at home. On entry of a body its variables are declared in the innermost scope. When one of them is
declared again, in a way that looks at where it goes and at what it brings in, that makes no difference.
-/

namespace Stepwise

namespace Eval

open Classical in
/-- Declares a variable that is at home in a scope; with any other one something else happens. -/
noncomputable def declareHoisted (other : Eval Unit) (home : Nat) (name : String) (v : Value) : Eval Unit := fun m ↦
  if m.state.Hoisted home name then declareAs .ofScopes .functionScoped name v m else other m

open Classical in
/-- An activity that comes to its end and leaves every scope with the names that it binds; in place of one that does
not something else happens. -/
noncomputable def bindingNoName (other x : Eval Unit) : Eval Unit := fun m ↦
  if ∃ n, x m = .ok () n ∧ ∀ id, n.state.namesIn? id = m.state.namesIn? id then x m else other m

/-- Declares a name on entry, in case a scope does not bind it yet. -/
def hoistName (scope : Nat) (name : String) : Eval Unit := do
  let bound := ((← getState).scope? scope).any (·.bindings.contains name)
  if !bound then Names.ofScopes.declare name .undefined .functionScoped none

end Eval

variable {m : Machine Journal} {home : Nat} {names : List String} {name : String}

/-- Two activities do the same on a machine, which keeps variables at home and brings in no name. -/
structure KeepsHome (home : Nat) (names : List String) (m : Machine Journal) (x y : Eval Unit) : Prop where
  agree : y m = x m
  ends : ∃ n, x m = .ok () n ∧ n.state.Houses home names ∧ ∀ id, n.state.namesIn? id = m.state.namesIn? id

namespace KeepsHome

theorem pure (h : m.state.Houses home names) : KeepsHome home names m (Pure.pure ()) (Pure.pure ()) :=
  ⟨rfl, m, rfl, h, fun _ ↦ rfl⟩

theorem seq {x y x' y' : Eval Unit} (h : KeepsHome home names m x y)
    (h' : ∀ n : Machine Journal, n.state.Houses home names → KeepsHome home names n x' y') :
    KeepsHome home names m (x >>= fun _ ↦ x') (y >>= fun _ ↦ y') := by
  obtain ⟨hagree, n, hn, hhouses, hsame⟩ := h
  obtain ⟨hagree', n', hn', hhouses', hsame'⟩ := h' n hhouses
  constructor
  · rw [bind_apply, bind_apply, hagree, hn]
    exact hagree'
  · refine ⟨n', ?_, hhouses', fun id ↦ (hsame' id).trans (hsame id)⟩
    rw [bind_apply, hn]
    exact hn'

/-- What is read beforehand, and steps that have nothing to do with scopes, may stand in front. -/
theorem after {α : Type} {z : Eval α} {x y : α → Eval Unit} {a : α} {n : Machine Journal} (hz : z m = .ok a n)
    (hscopes : n.state.scopes = m.state.scopes) (h : KeepsHome home names n (x a) (y a)) :
    KeepsHome home names m (z >>= x) (z >>= y) := by
  obtain ⟨hagree, n', hn', hhouses, hsame⟩ := h
  constructor
  · rw [bind_apply, bind_apply, hz]
    exact hagree
  · refine ⟨n', ?_, hhouses, fun id ↦ (hsame id).trans ?_⟩
    · rw [bind_apply, hz]
      exact hn'
    · rw [State.namesIn?, State.namesIn?, State.scope?, State.scope?, hscopes]

theorem report {kind : String} {location : Location} (h : m.state.Houses home names) :
    KeepsHome home names m (Eval.reportUnsupported kind location) (Eval.reportUnsupported kind location) :=
  ⟨rfl, _, rfl, h, fun _ ↦ rfl⟩

theorem declare (other : Eval Unit) (h : m.state.Houses home names) (hname : name ∈ names) (v : Value) :
    KeepsHome home names m (Eval.declareAs .ofScopes .functionScoped name v) (Eval.declareHoisted other home name v) := by
  obtain ⟨t, ht, hhouses, hsame⟩ := h.declare hname v
  refine ⟨if_pos (h.hoisted hname), { m with state := t }, ?_, hhouses, hsame⟩
  unfold Eval.declareAs
  rw [if_pos rfl, bind_map_left, Names.functionScope_eq, bind_apply, Eval.reading, h.functionScope_eq]
  exact Activity.ofEngine_apply ht

theorem bindSlots (other : Eval Unit) (elements : List Value) (slots : List (Nat × Slot))
    (hnames : ∀ slot ∈ slots, slot.2.names ⊆ names) (h : m.state.Houses home names) :
    KeepsHome home names m
      (Evaluator.bindSlots elements (fun text _ item ↦ Eval.declareAs .ofScopes .functionScoped text item) slots)
      (Evaluator.bindSlots elements (fun text _ item ↦ Eval.declareHoisted other home text item) slots) := by
  induction slots generalizing m with
  | nil => exact .pure h
  | cons slot slots ih =>
    obtain ⟨index, slot⟩ := slot
    obtain ⟨hname, hrest⟩ := List.forall_mem_cons.mp hnames
    cases slot with
    | target text place =>
      refine .seq (.declare other h ?_ _) fun n hn ↦ ih hrest hn
      exact hname (List.mem_singleton_self text)
    | unsupported kind location => exact .seq (.report h) fun n hn ↦ ih hrest hn

/-- A function that takes the name of its variable is a new one, and that is all that happens. -/
theorem exists_named (name : String) (v : Value) (m : Machine Journal) : ∃ w lastIdentity,
    Eval.named name v m = .ok w { m with state := { m.state with lastIdentity } } := by
  cases v with
  | function f =>
    cases hname : f.isAnonymous with
    | false => exact ⟨.function f, m.state.lastIdentity, by simp only [Eval.named, hname]; rfl⟩
    | true => exact ⟨.function _, m.state.lastIdentity + 1, by simp only [Eval.named, hname]; rfl⟩
  | _ => exact ⟨_, m.state.lastIdentity, rfl⟩

/-- A target whose names are all at home may be bound again. -/
theorem bindTarget (other : Eval Unit) {target : Binder} (v : Value) (hplain : target.isPlain = true)
    (hnames : target.names ⊆ names) (h : m.state.Houses home names) :
    KeepsHome home names m (Evaluator.bindTarget (Eval.declareAs .ofScopes .functionScoped) target v)
      (Evaluator.bindTarget (Eval.declareHoisted other home) target v) := by
  cases target with
  | name name =>
    obtain ⟨w, lastIdentity, hw⟩ := exists_named name v m
    refine .after hw rfl (.declare other ?_ ?_ w)
    · exact h.mono_frames rfl rfl (.of_scopes_eq rfl)
    · exact hnames (List.mem_singleton_self name)
  | slots slots =>
    have hheap : Eval.getHeap m = .ok m.state.heap m := rfl
    refine .after hheap rfl (.bindSlots other _ slots (fun slot hslot ↦ ?_) h)
    exact fun name hname ↦ hnames (List.mem_flatMap.mpr ⟨slot, hslot, hname⟩)
  | unsupported form location => cases hplain
  | incomplete => cases hplain

end KeepsHome

theorem bindingNoName_of_keepsHome {x y : Eval Unit} (other : Eval Unit) (h : KeepsHome home names m x y) :
    Eval.bindingNoName other y m = x m := by
  obtain ⟨hagree, n, hn, -, hsame⟩ := h
  unfold Eval.bindingNoName
  rw [hagree]
  exact if_pos ⟨n, hn, hsame⟩

theorem hoist_of_headId (hhead : m.state.headId = .ok home) (hoisted : List String) :
    Eval.hoist .ofScopes hoisted m = hoisted.forM (Eval.hoistName home) m := by
  change ((liftM m.state.headId : Eval Nat) >>= _) m = _
  rw [hhead]
  rfl

theorem hoistName_of_scope {scope : Scope} (hscope : m.state.scope? home = some scope) (name : String) :
    Eval.hoistName home name m = (if !scope.bindings.contains name then
      Names.ofScopes.declare name .undefined .functionScoped none else pure ()) m := by
  change (if !(m.state.scope? home).any (·.bindings.contains name) then _ else _ : Eval Unit) m = _
  rw [hscope, Option.any_some]

theorem exists_hoistName (name : String) (h : m.state.Houses home names) (hhead : m.state.headId = .ok home) :
    ∃ t, Eval.hoistName home name m = .ok () { m with state := t } ∧ t.headId = .ok home ∧
      t.Houses home (name :: names) := by
  obtain ⟨scope, hscope, -, -⟩ := h.scope
  rw [hoistName_of_scope hscope]
  cases hbound : scope.bindings.contains name with
  | true => exact ⟨m.state, rfl, hhead, h.cons hscope (Dict.mem_keys_of_contains hbound)⟩
  | false =>
    have hdeclare := Engine.declare_of_headId hhead hscope name .undefined .functionScoped
    refine ⟨_, Activity.ofEngine_apply hdeclare, ?_, ?_⟩
    · rw [State.bind_eq]
      exact hhead
    · exact (h.bind hscope name .undefined).mono_frames rfl rfl (.of_scopes_eq rfl)

theorem exists_hoistNames (hoisted : List String) (h : m.state.Houses home names) (hhead : m.state.headId = .ok home) :
    ∃ t, hoisted.forM (Eval.hoistName home) m = .ok () { m with state := t } ∧
      t.Houses home (hoisted.reverse ++ names) := by
  induction hoisted generalizing m names with
  | nil => exact ⟨m.state, rfl, h⟩
  | cons name hoisted ih =>
    obtain ⟨t, ht, hhead', h'⟩ := exists_hoistName name h hhead
    obtain ⟨u, hu, hhouses⟩ := ih (m := { m with state := t }) h' hhead'
    refine ⟨u, ?_, ?_⟩
    · change (Eval.hoistName home name >>= fun _ ↦ hoisted.forM (Eval.hoistName home)) m = _
      rw [bind_apply, ht]
      exact hu
    · rw [List.reverse_cons, List.append_assoc, List.singleton_append]
      exact hhouses

/-- On entry the variables come to be at home in the innermost scope. -/
theorem exists_hoist (hoisted : List String) (h : m.state.Houses home []) (hhead : m.state.headId = .ok home) :
    ∃ t, Eval.hoist .ofScopes hoisted m = .ok () { m with state := t } ∧ t.Houses home hoisted := by
  obtain ⟨t, ht, hhouses⟩ := exists_hoistNames hoisted h hhead
  refine ⟨t, (hoist_of_headId hhead hoisted).trans ht, hhouses.subset fun name hname ↦ ?_⟩
  exact List.mem_append_left _ (List.mem_reverse.mpr hname)

end Stepwise
