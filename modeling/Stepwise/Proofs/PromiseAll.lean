import Stepwise.Proofs.Promise.Course
/-!
Aggregates of all in any course. The count of an aggregate is at all times that of its reactions
that still wait; it gets its value once, when that is down to nothing, and the value is a new array
of what its inputs deliver, in their order.
-/

namespace Stepwise

namespace State

/-- The account of an aggregate between two operations. -/
structure Accounts (s : State) (a : Address) (inputs : List Value) : Prop where
  /-- what remains is counted by the reactions left, and the value is there when there are none -/
  counted : ∃ p, s.promises.get? a = some p ∧ p.remaining = (s.entries a).length ∧
    (p.value?.isSome ↔ (s.entries a).length = 0)
  /-- no slot has two reactions -/
  nodup : (s.entries a).Nodup
  /-- a reaction that waits for a promise waits for the input of its slot, which is pending -/
  registered : ∀ q p i, s.promises.get? q = some p → .collect a i ∈ p.reactions →
    p.value? = none ∧ inputs[i]? = some (.promise q)
  /-- a reaction in the queue brings the value of the input of its slot -/
  queued : ∀ i w, (.collect a i, w) ∈ s.queued → ∃ q, inputs[i]? = some (.promise q) ∧ s.value? q = some w

/-- An aggregate has got its value: a new array of what each input delivers. -/
def Fulfils (s s' : State) (a : Address) (inputs : List Value) : Prop :=
  ∃ address elements, s'.value? a = some (.object address) ∧ s.heap.get? address = none ∧
    s'.heap.Shows address elements ∧ List.Forall₂ s'.Delivers inputs elements

variable {s s' : State} {a : Address} {inputs : List Value}

theorem Gathers.accounts (h : s.Gathers a inputs) (hs : s.Sane) : s.Accounts a inputs := by
  obtain ⟨value, slots, hl, hvalue⟩ := h
  obtain ⟨p, hp, hpvalue, -, hremaining⟩ := hl.stores.stored
  refine ⟨⟨p, hp, ?_, ?_⟩, hl.tracks.nodup, fun q p i hp hi ↦ ⟨?_, ?_⟩, hl.tracks.queued⟩
  · rwa [List.length_nil, Nat.zero_add] at hremaining
  · rw [hpvalue, List.length_eq_zero_iff, Option.isSome_iff_ne_none, Ne, hvalue, not_not]
  · by_contra hsettled
    rw [hs.reactions_eq_nil hp hsettled] at hi
    cases hi
  · exact hl.tracks.registered _ (Dict.mem_entries_of_get? hp) i hi

theorem Closes.fulfils (h : s.Closes s' a inputs) (hs : s.Sane) {v : Value} (hv : s'.value? a = some v) :
    s.Fulfils s' a inputs := by
  obtain ⟨n, elements, rfl, hlt, hshows, helements⟩ := h.array v hv
  exact ⟨.array n, elements, hv, hs.fresh n hlt, hshows, helements⟩

end State

namespace Course

/-- What holds of an aggregate of all in every course in which nothing outside settles it. -/
structure Aggregate (start : Course) (inputs : List Value) (a : Address) (s : State) : Prop where
  made : Engine.all inputs start.state = .ok a s
  new : start.state.promises.contains a = false
  /-- if nothing is pending it has its value at once -/
  atOnce : ∀ v, s.value? a = some v → start.state.Fulfils s a inputs
  accounts : ∀ c, Reaches (· ≠ a) ⟨s, start.calls⟩ c → c.state.Accounts a inputs
  /-- a value that it has stays -/
  once : ∀ c c' v, Reaches (· ≠ a) ⟨s, start.calls⟩ c → Step (· ≠ a) c c' →
    c.state.value? a = some v → c'.state.value? a = some v
  /-- when it gets its value later, the inputs have theirs -/
  later : ∀ c c', Reaches (· ≠ a) ⟨s, start.calls⟩ c → Step (· ≠ a) c c' →
    c.state.value? a = none → c'.state.value? a ≠ none → c.state.Fulfils c'.state a inputs

variable {start : Course} {a : Address} {s : State} {inputs : List Value}

theorem aggregate_of_closes (hstart : start.Sound) (hall : Engine.all inputs start.state = .ok a s)
    (hcloses : start.state.Closes s a inputs) (hnew : ¬ start.state.Made a) : start.Aggregate inputs a s := by
  have hsound : Sound ⟨s, start.calls⟩ := ⟨hcloses.sane, fun d hd ↦ (hstart.calls d hd).mono hcloses.lastId⟩
  have hwatches : Watches ⟨s, start.calls⟩ a inputs := ⟨hcloses.gathers, fun h ↦ hnew (hstart.calls a h)⟩
  have hsafe : ¬ a ≠ a := not_not.mpr rfl
  have hadvances {c c' : Course} (hc : Reaches (· ≠ a) ⟨s, start.calls⟩ c) (hstep : Step (· ≠ a) c c') :
      c.Advances c' a inputs :=
    (hstep.keeps (hc.sound hsound)).advances a inputs hsafe (hc.watches hsound hsafe hwatches)
  refine ⟨hall, ?_, fun v hv ↦ hcloses.fulfils hstart.sane hv, fun c hc ↦ ?_, fun c c' v hc hstep hv ↦ ?_,
    fun c c' hc hstep hnone hsome ↦ ?_⟩
  · unfold Dict.contains
    rw [Option.isSome_eq_false_iff, Option.isNone_iff_eq_none, Option.eq_none_iff_forall_ne_some]
    exact fun p hp ↦ hnew (hstart.sane.made hp)
  · exact (hc.watches hsound hsafe hwatches).gathers.accounts (hc.sound hsound).sane
  · rcases (hadvances hc hstep).value with hvalue | ⟨hnone, -⟩
    · exact hvalue.trans hv
    · cases hnone.symm.trans hv
  · rcases (hadvances hc hstep).value with hvalue | ⟨-, hcloses'⟩
    · exact absurd (hvalue.trans hnone) hsome
    · obtain ⟨v, hv⟩ := Option.ne_none_iff_exists'.mp hsome
      exact hcloses'.fulfils (hc.sound hsound).sane hv

/-- Whatever has happened before, an aggregate of inputs that are there can be made, and whatever
happens then, it is right. -/
theorem aggregate_of_all (hstart : Reaches (fun _ ↦ True) {} start) (inputs : List Value)
    (hknown : ∀ q, .promise q ∈ inputs → start.state.promises.contains q) :
    ∃ a s, start.Aggregate inputs a s := by
  have hsound := Reaches.sound hstart sound_initial
  obtain ⟨s, hall, hcloses⟩ := Engine.exists_all hsound.sane hknown
  exact ⟨_, s, aggregate_of_closes hsound hall hcloses (State.not_made_next _)⟩

/-- A course in which two promises were made, and the second one was settled. -/
def halfSettled : Course where
  state := after ((do
    Operation.create.perform
    Operation.create.perform
    (Operation.settle (.promise 2) (.ofInt 5)).perform) {})

theorem reaches_halfSettled : Reaches (fun _ ↦ True) {} halfSettled :=
  have hsteps (operation : Operation) {s : State} : Step (fun _ ↦ True) ⟨s, []⟩ ⟨after (operation.perform s), []⟩ :=
    .operate operation fun _ _ ↦ trivial
  .tail (.tail (.single (hsteps .create)) (hsteps .create)) (hsteps (.settle (.promise 2) (.ofInt 5)))

/-- The pending promise twice, a plain value and the settled promise. -/
def mixed : List Value := [.promise (.promise 1), .ofInt 7, .promise (.promise 2), .promise (.promise 1)]

theorem aggregate_of_mixed : Reaches (fun _ ↦ True) {} halfSettled ∧
    (∀ q, .promise q ∈ mixed → halfSettled.state.promises.contains q) ∧
    ∃ a s, halfSettled.Aggregate mixed a s := by
  have hknown : ∀ q, .promise q ∈ mixed → halfSettled.state.promises.contains q := by
    intro q hq
    have hq : q = .promise 1 ∨ q = .promise 2 ∨ q = .promise 1 := by simpa [mixed, Value.ofInt] using hq
    rcases hq with rfl | rfl | rfl <;> rfl
  exact ⟨reaches_halfSettled, hknown, aggregate_of_all reaches_halfSettled mixed hknown⟩

end Course

end Stepwise
