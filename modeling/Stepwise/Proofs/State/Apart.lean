import Stepwise.Proofs.Promise.Sparing
import Stepwise.Proofs.State.Operation
/-!
Operations apart from promises and tasks: those on stored values, on names, on scopes and on calls.
-/

namespace Stepwise

namespace Heap

variable {heap : Heap} {b : Address}

theorem get?_setProperty_eq_none {heap' : Heap} {receiver v : Value} {key : Text} (h : heap.get? b = none)
    (hset : heap.setProperty receiver key v = .ok heap') : heap'.get? b = none := by
  obtain rfl | ⟨address, cell, -, ⟨index, rfl⟩ | rfl⟩ := setProperty_cases hset
  · exact h
  · exact get?_retain_eq_none (get?_update_eq_none (get?_release_eq_none h _) _) v
  · exact get?_retain_eq_none (get?_update_eq_none (get?_release_eq_none h _) _) v

end Heap

namespace State

/-- Promises and tasks are as they were, and so is the console up to what was said. -/
structure Apart (s t : State) : Prop where
  promises : t.promises = s.promises
  loop : t.loop = s.loop
  console : s.console <+: t.console
  lastId : s.lastId ≤ t.lastId
  fresh : ∀ n, t.lastId < n → s.heap.get? (.array n) = none → t.heap.get? (.array n) = none

variable {s t : State}

theorem Apart.of_heap (hpromises : t.promises = s.promises) (hloop : t.loop = s.loop) (hconsole : t.console = s.console)
    (hlastId : s.lastId ≤ t.lastId) (hheap : ∀ b, s.heap.get? b = none → t.heap.get? b = none) : s.Apart t :=
  ⟨hpromises, hloop, hconsole ▸ List.prefix_refl _, hlastId, fun n _ ↦ hheap (.array n)⟩

theorem Apart.refl (s : State) : s.Apart s := .of_heap rfl rfl rfl (Nat.le_refl _) fun _ ↦ id

/-- Scopes and calls were opened or closed. -/
theorem Apart.of_scoping {frames : List Frame} {chain captured : List Nat} {scopes : List Scope} {lastId : Nat}
    (h : s.lastId ≤ lastId) : s.Apart { s with frames, chain, scopes, captured, lastId } :=
  .of_heap rfl rfl rfl h fun _ ↦ id

theorem apart_bind (s : State) (scope : Scope) (name : String) (v : Value) : s.Apart (s.bind scope name v) := by
  rw [bind_eq]
  refine .of_heap rfl rfl rfl (Nat.le_refl _) fun b hb ↦ Heap.get?_retain_eq_none ?_ v
  cases scope.bindings.get? name with
  | none => exact hb
  | some old => exact Heap.get?_release_eq_none hb old

end State

namespace Engine

open State

theorem apart_freshIdentity (s : State) : s.Apart (after (freshIdentity s)) :=
  .of_heap rfl rfl rfl (Nat.le_refl _) fun _ ↦ id

theorem apart_newArray (elements : List Value) (s : State) : s.Apart (after (newArray elements s)) :=
  ⟨rfl, rfl, List.prefix_refl _, Nat.le_succ _, (shifts_newArray elements s).fresh⟩

theorem apart_newObject (fields : Dict Text Value) (s : State) : s.Apart (after (newObject fields s)) :=
  ⟨rfl, rfl, List.prefix_refl _, Nat.le_succ _, (shifts_newObject fields s).fresh⟩

theorem apart_say (level : Level) (content : List Value) (s : State) : s.Apart (after (say level content s)) :=
  ⟨rfl, rfl, List.prefix_append _ _, Nat.le_succ _, fun _ _ ↦ id⟩

theorem apart_setProperty (receiver : Value) (key : Text) (v : Value) (s : State) :
    s.Apart (after (setProperty receiver key v s)) := by
  have hbody : setProperty receiver key v s =
      ((liftM (s.heap.setProperty receiver key v) : Engine Heap) >>= fun heap ↦ modify fun s ↦ { s with heap }) s := rfl
  rw [hbody]
  cases hset : s.heap.setProperty receiver key v with
  | error f => exact .refl s
  | ok heap => exact .of_heap rfl rfl rfl (Nat.le_refl _) fun b hb ↦ Heap.get?_setProperty_eq_none hb hset

theorem apart_declare (name : String) (v : Value) (kind : BindingKind) (scope : Option Nat) (s : State) :
    s.Apart (after (declare name v kind scope s)) := by
  rw [declare_apply]
  cases scope.elim s.headId .ok with
  | error f => exact .refl s
  | ok id =>
    dsimp only
    cases s.scope? id with
    | none => exact .refl s
    | some scope =>
      have hbind := s.apart_bind scope name v
      exact ⟨hbind.promises, hbind.loop, hbind.console, hbind.lastId, hbind.fresh⟩

theorem apart_assign (name : String) (v : Value) (s : State) : s.Apart (after (assign name v s)) := by
  rw [assign_apply]
  cases s.binder? name with
  | error f => exact .refl s
  | ok scope =>
    cases scope with
    | none => exact apart_declare name v .blockScoped none s
    | some scope => exact s.apart_bind scope name v

end Engine

end Stepwise
