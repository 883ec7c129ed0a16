import Stepwise.Proofs.EventLoop.Conservation
import Stepwise.Proofs.State.Apart
/-!
What operations do to the event loop. They put tasks at the ends of the queues; no operation takes
one out or carries one out.
-/

namespace Stepwise

namespace EventLoop

/-- Tasks have been put at the ends of the queues, and nothing else has happened. -/
structure Extends (loop loop' : EventLoop) : Prop where
  queues : ∀ kind, ∃ new, loop'.queue kind = loop.queue kind ++ new ∧ ∀ t ∈ new, t.kind = kind
  current : loop'.current = loop.current
  executed : loop'.executed = loop.executed

variable {a b c : EventLoop}

theorem Extends.refl (loop : EventLoop) : loop.Extends loop :=
  ⟨fun _ ↦ ⟨[], (List.append_nil _).symm, fun _ h ↦ absurd h List.not_mem_nil⟩, rfl, rfl⟩

theorem Extends.trans (h : a.Extends b) (h' : b.Extends c) : a.Extends c where
  queues kind := by
    obtain ⟨new, hb, hnew⟩ := h.queues kind
    obtain ⟨new', hc, hnew'⟩ := h'.queues kind
    refine ⟨new ++ new', ?_, fun t ht ↦ (List.mem_append.mp ht).elim (hnew t) (hnew' t)⟩
    rw [hc, hb, List.append_assoc]
  current := h'.current.trans h.current
  executed := h'.executed.trans h.executed

theorem extends_enqueue (loop : EventLoop) (task : Task) (order : Nat) :
    loop.Extends { loop.enqueue task with scheduled := order } := by
  have hkind : task.kind = .microtask ∨ task.kind = .macrotask := by cases task.kind <;> simp
  unfold enqueue
  rcases hkind with hkind | hkind
  · refine ⟨fun kind ↦ ?_, by rw [hkind], by rw [hkind]⟩
    rw [hkind]
    cases kind with
    | microtask => exact ⟨[task], rfl, List.forall_mem_singleton.mpr hkind⟩
    | macrotask => exact ⟨[], (List.append_nil _).symm, fun _ h ↦ absurd h List.not_mem_nil⟩
  · refine ⟨fun kind ↦ ?_, by rw [hkind], by rw [hkind]⟩
    rw [hkind]
    cases kind with
    | microtask => exact ⟨[], (List.append_nil _).symm, fun _ h ↦ absurd h List.not_mem_nil⟩
    | macrotask => exact ⟨[task], rfl, List.forall_mem_singleton.mpr hkind⟩

end EventLoop

namespace Engine

variable {α β : Type} {x : Engine α}

/-- An operation that only puts tasks at the ends of the queues, whether it goes well or fails. -/
def Extending (x : Engine α) : Prop := ∀ s : State, s.loop.Extends (after (x s)).loop

namespace Extending

theorem pure (a : α) : Extending (Pure.pure a) := fun s ↦ .refl s.loop

theorem bind {f : α → Engine β} (h : Extending x) (hf : ∀ a, Extending (f a)) : Extending (x >>= f) := by
  intro s
  have hx := h s
  rw [bind_apply]
  cases hr : x s with
  | ok a t =>
    rw [hr] at hx
    exact hx.trans (hf a t)
  | error e t =>
    rw [hr] at hx
    exact hx

/-- Operations on the rest of the state do nothing to the event loop. -/
theorem of_loop_eq (h : ∀ s, (after (x s)).loop = s.loop) : Extending x := fun s ↦ by
  rw [h s]
  exact .refl s.loop

theorem of_apart (h : ∀ s : State, s.Apart (after (x s))) : Extending x := of_loop_eq fun s ↦ (h s).loop

theorem read {f : State → Engine β} (hf : ∀ s, Extending (f s)) : Extending (get >>= f) := fun s ↦ hf s s

end Extending

theorem extending_schedule (kind : TaskKind) (description : Text) (job : Job) (line : Int) :
    Extending (schedule kind description job line) := fun s ↦
  s.loop.extends_enqueue ⟨s.lastId + 1, kind, description, job, s.loop.scheduled + 1, line⟩ _

theorem extending_createPromise : Extending createPromise := .of_loop_eq fun _ ↦ rfl

theorem extending_promise (address : Address) : Extending (promise address) := .read fun s ↦ by
  cases s.promises.get? address with
  | none => exact .of_loop_eq fun _ ↦ rfl
  | some p => exact .pure p

theorem extending_modifyPromise (address : Address) (f : Promise → Promise) : Extending (modifyPromise address f) :=
  .of_loop_eq fun _ ↦ rfl

theorem extending_scheduleReaction (v : Value) (r : Reaction) : Extending (scheduleReaction v r) :=
  (extending_schedule _ _ _ _).bind fun _ ↦ .pure ()

theorem extending_scheduleReactions (v : Value) (rs : List Reaction) : Extending (rs.forM (scheduleReaction v)) := by
  induction rs with
  | nil => exact .pure ()
  | cons r rs ih => exact (extending_scheduleReaction v r).bind fun _ ↦ ih

theorem extending_settle (address : Address) (v : Value) : Extending (settle address v) := by
  refine (extending_promise address).bind fun p ↦ ?_
  split
  · refine (extending_modifyPromise address _).bind fun _ ↦ ?_
    have hretain : Extending (modify (·.retain v) : Engine Unit) := .of_loop_eq fun _ ↦ rfl
    exact hretain.bind fun _ ↦ extending_scheduleReactions v p.reactions
  · exact .pure ()

theorem extending_subscribe (address : Address) (r : Reaction) : Extending (subscribe address r) := by
  refine (extending_promise address).bind fun p ↦ ?_
  cases p.value? with
  | some v => exact extending_scheduleReaction v r
  | none => exact extending_modifyPromise address _

theorem extending_chain (address : Address) (handler : Option Function) : Extending (chain address handler) :=
  extending_createPromise.bind fun _ ↦ (extending_subscribe address _).bind fun _ ↦ .pure _

theorem extending_fillSlot (aggregate : Address) (index : Nat) (v : Value) : Extending (fillSlot aggregate index v) :=
  extending_modifyPromise aggregate _

theorem extending_newArray (vs : List Value) : Extending (newArray vs) := .of_apart (apart_newArray vs)

theorem extending_settleIfFull (aggregate : Address) : Extending (settleIfFull aggregate) := by
  refine (extending_promise aggregate).bind fun p ↦ ?_
  split
  · exact (extending_newArray p.slots).bind fun v ↦ extending_settle aggregate v
  · exact .pure ()

theorem extending_collectFrom (aggregate : Address) (index : Nat) (vs : List Value) :
    Extending (collectFrom aggregate index vs) := by
  induction vs generalizing index with
  | nil => exact .pure ()
  | cons v vs ih =>
    unfold collectFrom
    split
    next member =>
      refine (extending_promise member).bind fun p ↦ ?_
      cases p.value? with
      | some v => exact (extending_fillSlot aggregate index v).bind fun _ ↦ ih _
      | none => exact (extending_modifyPromise member _).bind fun _ ↦ ih _
    next => exact (extending_fillSlot aggregate index v).bind fun _ ↦ ih _

theorem extending_all (vs : List Value) : Extending (all vs) :=
  extending_createPromise.bind fun aggregate ↦ (extending_modifyPromise aggregate _).bind fun _ ↦
    (extending_collectFrom aggregate 0 vs).bind fun _ ↦ (extending_settleIfFull aggregate).bind fun _ ↦ .pure _

theorem extending_raceFrom (aggregate : Address) (vs : List Value) : Extending (raceFrom aggregate vs) := by
  induction vs with
  | nil => exact .pure ()
  | cons v vs ih =>
    unfold raceFrom
    split
    next member =>
      refine (extending_promise member).bind fun p ↦ ?_
      cases p.value? with
      | some v => exact (extending_settle aggregate v).bind fun _ ↦ ih
      | none => exact (extending_modifyPromise member _).bind fun _ ↦ ih
    next => exact (extending_settle aggregate v).bind fun _ ↦ ih

theorem extending_race (vs : List Value) : Extending (race vs) :=
  extending_createPromise.bind fun aggregate ↦ (extending_raceFrom aggregate vs).bind fun _ ↦ .pure _

theorem extending_fetch (url : Text) (line : Int) : Extending (fetch url line) :=
  extending_createPromise.bind fun _ ↦ (extending_schedule _ _ _ _).bind fun _ ↦ .pure _

theorem extending_completeFetch (address : Address) (url : Text) : Extending (completeFetch address url) := by
  have hnew (fields : Dict Text Value) : Extending (newObject fields) := .of_apart (apart_newObject fields)
  exact (hnew _).bind fun v ↦ extending_settle address v

theorem extending_gather (aggregate : Address) (index : Nat) (v : Value) : Extending (gather aggregate index v) :=
  (extending_promise aggregate).bind fun _ ↦ (extending_fillSlot aggregate index v).bind fun _ ↦
    extending_settleIfFull aggregate

theorem extending_conclude (derived : Address) (v : Value) : Extending (conclude derived v) := by
  unfold conclude
  split
  next address => exact extending_subscribe address (.adopt derived)
  next => exact extending_settle derived v

end Engine

end Stepwise
