import Mathlib.Logic.Relation
import Stepwise.Proofs.Promise.Course
/-!
Histories of promises: courses in which it is noted down which promises were made by what, which
handlers were called with what, and how each call ended.
-/

namespace Stepwise

/-- What is noted down of a history. -/
inductive Event where
  /-- an operation gave a promise -/
  | made (operation : Operation) (promise : Address)
  /-- an operation failed -/
  | refused (operation : Operation)
  /-- a promise was settled from outside -/
  | settled (promise : Address) (value : Value)
  /-- the handler of a derived promise was called -/
  | began (handler : Function) (derived : Address) (argument : Value)
  /-- a derived promise got the result of its handler, or without one the value that was passed on -/
  | concluded (derived : Address) (result : Value)
  /-- the handler of a derived promise failed -/
  | failed (derived : Address)

namespace Event

/-- The promise that an event is about. -/
def subject? : Event → Option Address
  | made _ a | settled a _ | began _ a _ | concluded a _ | failed a => some a
  | refused _ => none

/-- The promise that an operation gave. -/
def made? : Event → Option Address
  | made _ a => some a
  | _ => none

/-- The events of an evaluation that carries out no task and does not fail: promises are made, and
none of them without anything that may settle it. -/
def Making : Event → Prop
  | made .create _ => False
  | made _ _ => True
  | _ => False

/-- The same where tasks are carried out as well: nothing fails, and nothing is settled from
outside. -/
def Regular : Event → Prop
  | made .create _ | refused _ | settled _ _ | failed _ => False
  | _ => True

/-- The events of the handler of a derived promise. -/
def isProgress : Event → Bool
  | began _ _ _ | concluded _ _ | failed _ => true
  | _ => false

/-- The events of the handler of one derived promise. -/
def progress (d : Address) (events : List Event) : List Event :=
  events.filter fun e ↦ e.isProgress && e.subject? = some d

/-- How a derived promise got on with a result. -/
def ending (derived : Address) (result : Value) : EStateM.Result Fault State Unit → Event
  | .ok _ _ => concluded derived result
  | .error _ _ => failed derived

theorem Making.regular {e : Event} (h : e.Making) : e.Regular := by
  cases e with
  | made operation a => cases operation <;> trivial
  | _ => cases h

end Event

/-- An operation, with the note that it went well. -/
def Operation.note (operation : Operation) : Engine Event :=
  match operation with
  | create => .made operation <$> Engine.createPromise
  | chain promise handler => .made operation <$> Engine.chain promise handler
  | all inputs => .made operation <$> Engine.all inputs
  | race inputs => .made operation <$> Engine.race inputs
  | fetch url line => .made operation <$> Engine.fetch url line
  | settle promise value => do
    Engine.settle promise value
    return .settled promise value

/-- The event that an operation is. -/
def Operation.event (operation : Operation) : EStateM.Result Fault State Event → Event
  | .ok event _ => event
  | .error _ _ => .refused operation

/-- Nothing has happened to promises, and to what has to do with them. -/
structure State.Beside (s s' : State) : Prop where
  promises : s'.promises = s.promises
  queued : s'.queued = s.queued
  fetching : s'.fetching = s.fetching
  lastId : s.lastId ≤ s'.lastId
  fresh : ∀ n, s'.lastId < n → s.heap.get? (.array n) = none → s'.heap.get? (.array n) = none

/-- Where a history stands: the state, the promises of the handlers being called, innermost first, and
the events so far. -/
structure History where
  state : State := {}
  calls : List Address := []
  events : List Event := []

namespace History

/-- One step of a history. Operations may come at any time, inside of handlers too; a handler is only
called when the task of its reaction is taken out of the queue. -/
inductive Step : History → History → Prop
  | operate {s : State} {calls : List Address} {events : List Event} (operation : Operation) :
      Step ⟨s, calls, events⟩
        ⟨after (operation.note s), calls, events ++ [operation.event (operation.note s)]⟩
  | call {s s' : State} {calls : List Address} {events : List Event} {f : Function} {d : Address} {v : Value}
      (h : s.Takes (.handle (some f) d) v s') :
      Step ⟨s, calls, events⟩ ⟨s', d :: calls, events ++ [.began f d v]⟩
  /-- the innermost handler returns -/
  | conclude {s : State} {calls : List Address} {events : List Event} {d : Address} (result : Value) :
      Step ⟨s, d :: calls, events⟩
        ⟨after (Engine.conclude d result s), calls, events ++ [.ending d result (Engine.conclude d result s)]⟩
  /-- the innermost handler fails -/
  | fail {s : State} {calls : List Address} {events : List Event} {d : Address} :
      Step ⟨s, d :: calls, events⟩ ⟨s, calls, events ++ [.failed d]⟩
  /-- where there is no handler the value is passed on -/
  | pass {s s' : State} {calls : List Address} {events : List Event} {d : Address} {v : Value}
      (h : s.Takes (.handle none d) v s') :
      Step ⟨s, calls, events⟩
        ⟨after (Engine.conclude d v s'), calls, events ++ [.ending d v (Engine.conclude d v s')]⟩
  /-- a reaction of another kind is carried out -/
  | react {s s' : State} {calls : List Address} {events : List Event} {r : Reaction} {v : Value} (h : s.Takes r v s')
      (hr : ∀ handler d, r ≠ .handle handler d) {ω : Type} (invoke : Function → List Value → Activity ω Value)
      (journal : ω) :
      Step ⟨s, calls, events⟩ ⟨(after (Activity.runReaction invoke r v ⟨s', journal⟩)).state, calls, events⟩
  /-- a response arrives -/
  | receive {s s' : State} {calls : List Address} {events : List Event} {q : Address} {url : Text}
      (h : s.Receives q url s') :
      Step ⟨s, calls, events⟩ ⟨after (Engine.completeFetch q url s'), calls, events⟩
  | other {s s' : State} {calls : List Address} {events : List Event} (h : s.Beside s') :
      Step ⟨s, calls, events⟩ ⟨s', calls, events⟩

/-- What a history may come to. -/
def Reaches : History → History → Prop := Relation.ReflTransGen Step

variable {x y : History}

theorem Step.mem_events (h : Step x y) {e : Event} (he : e ∈ x.events) : e ∈ y.events := by
  cases h with
  | react => exact he
  | receive => exact he
  | other => exact he
  | _ => exact List.mem_append_left _ he

theorem Reaches.mem_events (h : Reaches x y) {e : Event} (he : e ∈ x.events) : e ∈ y.events := by
  induction h with
  | refl => exact he
  | tail _ hstep ih => exact hstep.mem_events ih

end History

theorem State.Beside.shifts {s s' : State} (h : s.Beside s') : s.Shifts s' [] [] where
  promises := h.promises
  queued := h.queued ▸ .refl _
  fetching _ hb := .inl (h.fetching ▸ hb)
  lastId := h.lastId
  fresh := h.fresh

namespace Operation

variable {s : State} {operation : Operation}

/-- The operations that give a promise are given by what gives it. -/
theorem event_cases (x : Engine Address) (hnote : operation.note s = (Event.made operation <$> x) s) :
    operation.event (operation.note s) = .refused operation ∨
      ∃ a s', x s = .ok a s' ∧ after (operation.note s) = s' ∧
        operation.event (operation.note s) = .made operation a := by
  rw [hnote, map_apply]
  cases x s with
  | ok a s' => exact .inr ⟨a, s', rfl, rfl, rfl⟩
  | error f s' => exact .inl rfl

theorem after_note (operation : Operation) (s : State) : after (operation.note s) = after (operation.perform s) := by
  have hmap (x : Engine Address) : after ((Event.made operation <$> x) s) = after ((do let _ ← x : Engine Unit) s) := by
    rw [map_apply, bind_apply]
    cases x s <;> rfl
  cases operation with
  | create => exact hmap _
  | chain p handler => exact hmap _
  | all inputs => exact hmap _
  | race inputs => exact hmap _
  | fetch url line => exact hmap _
  | settle q v =>
    change after ((Engine.settle q v >>= _) s) = after (Engine.settle q v s)
    rw [bind_apply]
    cases Engine.settle q v s <;> rfl

theorem note_settle (q : Address) (v : Value) (s : State) :
    (settle q v).note s = (Engine.settle q v >>= fun _ ↦ pure (.settled q v)) s := rfl

theorem note_settle_of_ok {q : Address} {v : Value} {t : State} (ht : Engine.settle q v s = .ok () t) :
    (settle q v).note s = .ok (.settled q v) t := by
  rw [note_settle, bind_apply, ht]
  rfl

theorem note_settle_of_error {q : Address} {v : Value} {f : Fault} {t : State} (ht : Engine.settle q v s = .error f t) :
    (settle q v).note s = .error f t := by
  rw [note_settle, bind_apply, ht]

theorem event_forms (operation : Operation) (s : State) :
    operation.event (operation.note s) = .refused operation ∨
      (∃ a, operation.event (operation.note s) = .made operation a) ∨
      ∃ q v, operation.event (operation.note s) = .settled q v := by
  have hmakes {x : Engine Address} (hnote : operation.note s = (Event.made operation <$> x) s) :
      operation.event (operation.note s) = .refused operation ∨
        (∃ a, operation.event (operation.note s) = .made operation a) ∨
        ∃ q v, operation.event (operation.note s) = .settled q v := by
    rcases event_cases x hnote with hevent | ⟨a, s', -, -, hevent⟩
    · exact .inl hevent
    · exact .inr (.inl ⟨a, hevent⟩)
  cases operation with
  | create => exact hmakes rfl
  | chain p handler => exact hmakes rfl
  | all inputs => exact hmakes rfl
  | race inputs => exact hmakes rfl
  | fetch url line => exact hmakes rfl
  | settle q v =>
    rw [note_settle, bind_apply]
    cases Engine.settle q v s with
    | ok _ t => exact .inr (.inr ⟨q, v, rfl⟩)
    | error f t => exact .inl rfl

theorem event_ne_began (operation : Operation) (s : State) (f : Function) (d : Address) (v : Value) :
    operation.event (operation.note s) ≠ .began f d v := by
  rcases operation.event_forms s with h | ⟨a, h⟩ | ⟨q, w, h⟩
  · exact h ▸ nofun
  · exact h ▸ nofun
  · exact h ▸ nofun

end Operation

end Stepwise
