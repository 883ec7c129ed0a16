import Stepwise.Proofs.Promise.Turn
/-!
Derived promises in any history. The reaction with the handler of a derived promise is at all times in one place: it
waits for the promise, or is in the queue with its value, or is being carried out, or has been. So the handler is called
once at most, by the task of that reaction and with the value of the promise.
-/

namespace Stepwise

/-- Whether a reaction has the handler of a derived promise. -/
def Reaction.handles (d : Address) : Reaction → Bool
  | handle _ derived => derived = d
  | _ => false

namespace Event

/-- Whether the handler of a derived promise is called. -/
def begins (d : Address) : Event → Bool
  | began _ derived _ => derived = d
  | _ => false

/-- Whether the reaction with the handler of a derived promise has been carried out. -/
def ends (d : Address) : Event → Bool
  | concluded derived _ | failed derived => derived = d
  | _ => false

end Event

/-- Where the reaction with the handler of a derived promise may be. -/
inductive Stage where
  /-- it waits for a promise -/
  | waiting (promise : Address) (reaction : Reaction)
  /-- it is in the queue with a value -/
  | queued (reaction : Reaction) (value : Value)
  /-- its handler is being called -/
  | running
  /-- it has been carried out -/
  | finished

/-- The stages of all reactions with a handler of a derived promise that are in a state. -/
def State.stages (s : State) (d : Address) : List Stage :=
  s.promises.entries.flatMap (fun e ↦ (e.2.reactions.filter (·.handles d)).map (.waiting e.1)) ++
    (s.queued.filter (·.1.handles d)).map fun t ↦ .queued t.1 t.2

namespace History

/-- The stages of all reactions with a handler of a derived promise. -/
def stages (h : History) (d : Address) : List Stage :=
  h.state.stages d ++ List.replicate (h.calls.count d) .running ++ List.replicate (h.events.countP (·.ends d)) .finished

end History

variable {s : State} {p d : Address} {handler : Option Function} {r : Reaction} {stage : Stage} {n : Nat}
  {events : List Event}

theorem Reaction.target_of_handles (h : r.handles d = true) : r.target = d := by
  cases r with
  | handle handler derived => exact of_decide_eq_true h
  | _ => cases h

namespace Event

end Event

namespace State

theorem length_stages (s : State) (d : Address) :
    (s.stages d).length = ((s.reactionsFor d).filter (·.handles d)).length := by
  -- a reaction with the handler of a promise is for that promise
  have hfilter : (s.reactionsFor d).filter (·.handles d) = s.reactions.filter (·.handles d) := by
    unfold reactionsFor
    rw [List.filter_filter]
    refine List.filter_congr fun r _ ↦ ?_
    cases hr : r.handles d with
    | false => rfl
    | true => exact decide_eq_true (Reaction.target_of_handles hr)
  have hqueued : ((s.queued.map Prod.fst).filter (·.handles d)).length = (s.queued.filter (·.1.handles d)).length := by
    rw [List.filter_map, List.length_map]
    rfl
  rw [hfilter]
  unfold stages reactions registered Dict.values
  rw [List.filter_append, List.length_append, List.length_append, hqueued, List.length_map, List.flatMap_map,
    List.filter_flatMap, List.length_flatMap, List.length_flatMap]
  simp only [List.length_map]

theorem stages_eq_nil (h : ∀ r ∈ s.reactionsFor d, r.handles d = false) : s.stages d = [] := by
  rw [← List.length_eq_zero_iff, length_stages, List.length_eq_zero_iff, List.filter_eq_nil_iff]
  exact fun r hr hhandles ↦ Bool.false_ne_true ((h r hr).symm.trans hhandles)

theorem stages_eq_nil_of_nobody (h : s.reactionsFor d = []) : s.stages d = [] := by
  refine stages_eq_nil fun r hr ↦ ?_
  rw [h] at hr
  cases hr

/-- A derived promise with a result has no handler any more. -/
theorem Pursues.stages_eq_nil {result : Value} (h : s.Pursues d result) : s.stages d = [] := by
  cases result with
  | promise q =>
    rcases h with h | h
    · refine State.stages_eq_nil fun r hr ↦ ?_
      cases List.mem_singleton.mp (h.only ▸ hr)
      rfl
    · exact stages_eq_nil_of_nobody h.1
  | _ => exact stages_eq_nil_of_nobody h.1

namespace Chained

theorem once (h : s.Chained p handler d events n) : events.countP (·.begins d) ≤ 1 := by
  have hbeginning (e : Event) (v : Value) (he : e.begins d = false) :
      (Event.beginning handler d v ++ [e]).countP (·.begins d) ≤ 1 := by
    rw [List.countP_append, List.countP_singleton, he]
    exact (Nat.add_le_add_right List.countP_le_length 0).trans (by cases handler <;> simp [Event.beginning])
  cases h with
  | waiting => exact Nat.zero_le 1
  | running => exact List.countP_le_length
  | failed => exact hbeginning _ _ rfl
  | concluded => exact hbeginning _ _ rfl

theorem argument {f : Function} {v : Value} (h : s.Chained p handler d events n) (he : .began f d v ∈ events) :
    handler = some f ∧ s.value? p = some v := by
  have hbeginning (e : Event) {w : Value} (hw : s.value? p = some w) (he : e ≠ .began f d v)
      (hmem : .began f d v ∈ Event.beginning handler d w ++ [e]) : handler = some f ∧ s.value? p = some v := by
    rcases List.mem_append.mp hmem with hmem | hmem
    · obtain ⟨g, hg, heq⟩ := Event.mem_beginning hmem
      cases heq
      exact ⟨hg, hw⟩
    · exact absurd (List.mem_singleton.mp hmem).symm he
  cases h with
  | waiting => cases he
  | running hf hv =>
    cases List.mem_singleton.mp he
    exact ⟨hf, hv⟩
  | failed hv => exact hbeginning (.failed d) hv nofun he
  | concluded hv => exact hbeginning (.concluded d _) hv nofun he

theorem result {result : Value} (h : s.Chained p handler d events n) (he : .concluded d result ∈ events) :
    (∃ f v, handler = some f ∧ .began f d v ∈ events) ∨ handler = none ∧ s.value? p = some result := by
  cases h with
  | waiting => cases he
  | running => cases List.mem_singleton.mp he
  | failed => cases Event.eq_of_concluded_mem he
  | concluded hv hresult =>
    cases Event.eq_of_concluded_mem he
    cases handler with
    | none => exact .inr ⟨rfl, hresult rfl ▸ hv⟩
    | some f => exact .inl ⟨f, _, rfl, List.mem_append_left _ List.mem_cons_self⟩

end Chained

end State

namespace History

variable {h h' x y start : History} {f : Function} {v : Value}

/-- A handler is only called when its reaction is taken out of the queue. -/
theorem Step.takes (h : Step x y) (hbegan : .began f d v ∈ y.events) (hnew : .began f d v ∉ x.events) :
    x.state.Takes (.handle (some f) d) v y.state := by
  cases h with
  | operate operation =>
    have hevent := (List.mem_append.mp hbegan).resolve_left hnew
    exact absurd (List.mem_singleton.mp hevent).symm (Operation.event_ne_began _ _ f d v)
  | call h =>
    cases List.mem_singleton.mp ((List.mem_append.mp hbegan).resolve_left hnew)
    exact h
  | conclude =>
    have hevent := (List.mem_append.mp hbegan).resolve_left hnew
    exact absurd (List.mem_singleton.mp hevent).symm (Event.ending_ne_began _ _ _ f d v)
  | fail => cases List.mem_singleton.mp ((List.mem_append.mp hbegan).resolve_left hnew)
  | pass =>
    have hevent := (List.mem_append.mp hbegan).resolve_left hnew
    exact absurd (List.mem_singleton.mp hevent).symm (Event.ending_ne_began _ _ _ f d v)
  | react => exact absurd hbegan hnew
  | receive => exact absurd hbegan hnew
  | other => exact absurd hbegan hnew

theorem reaches_operate (operations : List Operation) (h : History) : Reaches h (h.operate operations) :=
  (turns_operate operations h).reaches

/-- Two promises were made, and the second one was settled. -/
def halfSettled : History := operate {} [.create, .create, .settle (.promise 2) (.ofInt 5)]

/-- The function that gives what it gets. -/
def itself : Function where
  identity := 1
  name := "itself"
  params := ["x"]
  body := .expression (.identifier "x")
  closure := []
  line := 1

/-- A derived promise has no value but the result of its handler, or that of the promise that the result is, or without
a handler the value of the promise. -/
def Follows (h : History) (p : Address) (handler : Option Function) (d : Address) : Prop :=
  ∀ w, h.state.value? d = some w →
    match handler with
    | none => h.state.value? p = some w
    | some _ => ∃ result, .concluded d result ∈ h.events ∧ h.state.Delivers result w

/-- The oldest reaction passes a value on. -/
def pass (h : History) (d : Address) (v : Value) : History :=
  ⟨after (Engine.conclude d v h.rest), h.calls, h.events ++ [.ending d v (Engine.conclude d v h.rest)]⟩

/-- The oldest reaction brings a promise the value of another one. -/
def adopt (h : History) (d : Address) (v : Value) : History :=
  ⟨(after (Activity.runReaction (fun _ _ ↦ pure .null) (.adopt d) v ⟨h.rest, ()⟩)).state, h.calls, h.events⟩

end History

end Stepwise
