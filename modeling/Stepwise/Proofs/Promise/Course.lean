import Mathlib.Logic.Relation
import Stepwise.Proofs.Promise.Gathering
/-!
Courses of promises: operations of the program, tasks of the event loop and calls of handlers, one
after another in any order. A handler may carry out any operations before it returns, and other
tasks may come in between.
-/

namespace Stepwise

/-- An operation on promises that a program asks for. -/
inductive Operation where
  | create
  | chain (promise : Address) (handler : Option Function)
  | all (inputs : List Value)
  | race (inputs : List Value)
  | fetch (url : Text) (line : Int)
  | settle (promise : Address) (value : Value)

namespace Operation

def perform : Operation → Engine Unit
  | create => do let _ ← Engine.createPromise
  | chain promise handler => do let _ ← Engine.chain promise handler
  | all inputs => do let _ ← Engine.all inputs
  | race inputs => do let _ ← Engine.race inputs
  | fetch url line => do let _ ← Engine.fetch url line
  | settle promise value => Engine.settle promise value

/-- The promise that is settled from outside. -/
def settles? : Operation → Option Address
  | settle promise _ => some promise
  | _ => none

end Operation

namespace State

/-- A reaction is taken out of the queue of microtasks. -/
def Takes (s : State) (r : Reaction) (v : Value) (s' : State) : Prop :=
  ∃ task before behind, task.job = .react r v ∧ s.loop.microtasks = before ++ task :: behind ∧
    s' = { s with loop := { s.loop with microtasks := before ++ behind } }

/-- A response is taken out of the queue of macrotasks. -/
def Receives (s : State) (q : Address) (url : Text) (s' : State) : Prop :=
  ∃ task before behind, task.job = .fetched q url ∧ s.loop.macrotasks = before ++ task :: behind ∧
    s' = { s with loop := { s.loop with macrotasks := before ++ behind } }

end State

/-- Where a course stands: the state, and the promises of the handlers being called, innermost
first. -/
structure Course where
  state : State := {}
  calls : List Address := []

namespace Course

open State

/-- One step of a course, in which only certain promises may be settled from outside. -/
inductive Step (allowed : Address → Prop) : Course → Course → Prop
  | operate {s : State} {calls : List Address} (operation : Operation)
      (h : ∀ q, operation.settles? = some q → allowed q) :
      Step allowed ⟨s, calls⟩ ⟨after (operation.perform s), calls⟩
  /-- a handler is called with the value of its promise -/
  | call {s s' : State} {calls : List Address} {f : Function} {d : Address} {v : Value}
      (h : s.Takes (.handle (some f) d) v s') : Step allowed ⟨s, calls⟩ ⟨s', d :: calls⟩
  /-- the innermost handler returns -/
  | conclude {s : State} {calls : List Address} {d : Address} (result : Value) :
      Step allowed ⟨s, d :: calls⟩ ⟨after (Engine.conclude d result s), calls⟩
  /-- the innermost handler fails -/
  | fail {s : State} {calls : List Address} {d : Address} : Step allowed ⟨s, d :: calls⟩ ⟨s, calls⟩
  /-- a reaction that calls no handler is carried out -/
  | react {s s' : State} {calls : List Address} {r : Reaction} {v : Value} (h : s.Takes r v s')
      (hr : ∀ f d, r ≠ .handle (some f) d) {ω : Type} (invoke : Function → List Value → Activity ω Value)
      (journal : ω) :
      Step allowed ⟨s, calls⟩ ⟨(after (Activity.runReaction invoke r v ⟨s', journal⟩)).state, calls⟩
  /-- a response arrives -/
  | receive {s s' : State} {calls : List Address} {q : Address} {url : Text} (h : s.Receives q url s') :
      Step allowed ⟨s, calls⟩ ⟨after (Engine.completeFetch q url s'), calls⟩
  /-- something happens that has nothing to do with promises -/
  | other {s s' : State} {calls : List Address} (h : s.Shifts s' [] []) : Step allowed ⟨s, calls⟩ ⟨s', calls⟩

/-- What a course may come to. -/
def Reaches (allowed : Address → Prop) : Course → Course → Prop := Relation.ReflTransGen (Step allowed)

end Course

namespace State

variable {s s' : State} {r : Reaction} {v : Value} {q : Address} {url : Text}

theorem Takes.shifts (h : s.Takes r v s') : s.Shifts s' [(r, v)] [] := by
  obtain ⟨task, before, behind, hjob, htasks, rfl⟩ := h
  have htask : task.reaction? = some (r, v) := by
    unfold Task.reaction?
    rw [hjob]
  refine ⟨rfl, ?_, fun _ ↦ .inl, Nat.le_refl _, fun _ _ ↦ id⟩
  unfold queued
  rw [htasks]
  simp only [List.filterMap_append, List.filterMap_cons, htask]
  exact List.perm_middle

theorem Takes.fetching (h : s.Takes r v s') : s'.fetching = s.fetching := by
  obtain ⟨task, before, behind, -, -, rfl⟩ := h
  rfl

theorem Takes.spares {own : List Address} (h : s.Takes r v s') (hs : s.Sane) (hr : r.target ∈ own) : s.Spares own s' :=
  h.shifts.spares hs (List.forall_mem_singleton.mpr hr) (List.forall_mem_nil _) fun _ hb ↦ .inr (h.fetching ▸ hb)

theorem Takes.mem_reactions (h : s.Takes r v s') : r ∈ s.reactions :=
  h.shifts.perm.mem_iff.mpr List.mem_cons_self

theorem Receives.mem_fetching (h : s.Receives q url s') : q ∈ s.fetching := by
  obtain ⟨task, before, behind, hjob, htasks, -⟩ := h
  have htask : task.fetched? = some q := by
    unfold Task.fetched?
    rw [hjob]
  refine List.mem_filterMap.mpr ⟨task, ?_, htask⟩
  rw [htasks]
  exact List.mem_append_right _ List.mem_cons_self

theorem Receives.shifts (h : s.Receives q url s') : s.Shifts s' [] [] := by
  obtain ⟨task, before, behind, -, htasks, rfl⟩ := h
  refine ⟨rfl, .refl _, fun b hb ↦ .inl ?_, Nat.le_refl _, fun _ _ ↦ id⟩
  obtain ⟨t, ht, hfetched⟩ := List.mem_filterMap.mp hb
  refine List.mem_filterMap.mpr ⟨t, ?_, hfetched⟩
  rw [htasks]
  exact List.mem_append.mpr ((List.mem_append.mp ht).imp_right (List.mem_cons_of_mem task))

theorem Receives.mem_or (h : s.Receives q url s') {b : Address} (hb : b ∈ s.fetching) : b = q ∨ b ∈ s'.fetching := by
  obtain ⟨task, before, behind, hjob, htasks, rfl⟩ := h
  have htask : task.fetched? = some q := by
    unfold Task.fetched?
    rw [hjob]
  obtain ⟨t, ht, hfetched⟩ := List.mem_filterMap.mp hb
  rw [htasks] at ht
  rcases List.mem_append.mp ht with ht | ht
  · exact .inr (List.mem_filterMap.mpr ⟨t, List.mem_append_left _ ht, hfetched⟩)
  · rcases List.mem_cons.mp ht with rfl | ht
    · exact .inl (Option.some.inj (hfetched.symm.trans htask))
    · exact .inr (List.mem_filterMap.mpr ⟨t, List.mem_append_right _ ht, hfetched⟩)

theorem Receives.spares (h : s.Receives q url s') (hs : s.Sane) : s.Spares [q] s' :=
  h.shifts.spares hs (List.forall_mem_nil _) (List.forall_mem_nil _) fun _ hb ↦
    (h.mem_or hb).imp_left List.mem_singleton.mpr

end State

namespace Engine

variable {own : List Address} {s : State}

theorem sparing_discard {α : Type} {x : Engine α} (h : Sparing own x) : Sparing own (do let _ ← x) :=
  h.bind fun _ ↦ .pure ()

theorem spares_perform (operation : Operation) (hs : s.Sane) :
    s.Spares operation.settles?.toList (after (operation.perform s)) := by
  have hnone {x : Engine Unit} (h : Sparing [] x) : s.Spares [] (after (x s)) := h s hs nofun
  cases operation with
  | create => exact hnone (.create fun _ ↦ .pure ())
  | chain promise handler => exact hnone (sparing_discard (sparing_chain handler))
  | all inputs => exact hnone (sparing_discard (sparing_all inputs))
  | race inputs => exact hnone (sparing_discard (sparing_race inputs))
  | fetch url line => exact hnone (sparing_discard (sparing_fetch url line))
  | settle q v =>
    cases hp : s.promises.get? q with
    | none =>
      change s.Spares [q] (after (settle q v s))
      rw [settle_of_get?_eq_none hp]
      exact hs.spares [q]
    | some p => exact sparing_settle List.mem_cons_self v s hs (List.forall_mem_singleton.mpr (hs.made hp))

end Engine

namespace Activity

variable {ω : Type}

theorem state_after_ofEngine {α : Type} (x : Engine α) (m : Machine ω) :
    (after (ofEngine x m)).state = after (x m.state) := by
  unfold ofEngine
  cases x m.state <;> rfl

theorem spares_runReaction (invoke : Function → List Value → Activity ω Value) {s : State} {r : Reaction}
    (hr : ∀ f d, r ≠ .handle (some f) d) (hs : s.Sane)
    (hmade : s.Made r.target) (v : Value) (journal : ω) :
    s.Spares [r.target] (after (runReaction invoke r v ⟨s, journal⟩)).state := by
  have htarget : r.target ∈ [r.target] := List.mem_cons_self
  have hown : ∀ b ∈ [r.target], s.Made b := List.forall_mem_singleton.mpr hmade
  cases r with
  | handle handler d =>
    cases handler with
    | some f => exact absurd rfl (hr f d)
    | none =>
      change s.Spares _ (after (ofEngine (Engine.conclude d v) ⟨s, journal⟩)).state
      rw [state_after_ofEngine]
      exact Engine.sparing_conclude htarget v s hs hown
  | collect b index =>
    change s.Spares _ (after (ofEngine (Engine.gather b index v) ⟨s, journal⟩)).state
    rw [state_after_ofEngine]
    exact Engine.sparing_gather htarget index v s hs hown
  | race b | adopt b =>
    change s.Spares _ (after (ofEngine (Engine.settle b v) ⟨s, journal⟩)).state
    rw [state_after_ofEngine]
    exact Engine.sparing_settle htarget v s hs hown

end Activity

namespace Course

open State

variable {allowed : Address → Prop} {c c' : Course} {s s' : State} {calls calls' own : List Address} {a : Address}
  {inputs : List Value}

/-- The promises of the handlers being called are there. -/
structure Sound (c : Course) : Prop where
  sane : c.state.Sane
  calls : ∀ d ∈ c.calls, c.state.Made d

/-- An aggregate is gathering, and is not the promise of a handler. -/
structure Watches (c : Course) (a : Address) (inputs : List Value) : Prop where
  gathers : c.state.Gathers a inputs
  calls : a ∉ c.calls

/-- An aggregate goes on gathering. Its value stays as it is, or it had none and is closed. -/
structure Advances (c c' : Course) (a : Address) (inputs : List Value) : Prop where
  watches : c'.Watches a inputs
  value : c'.state.value? a = c.state.value? a ∨
    c.state.value? a = none ∧ c.state.Closes c'.state a inputs

/-- What a step does, for each aggregate that is not settled from outside. -/
structure Keeps (allowed : Address → Prop) (c c' : Course) : Prop where
  sound : c'.Sound
  advances : ∀ a inputs, ¬ allowed a → c.Watches a inputs → c.Advances c' a inputs

theorem advances_of_spares (hw : Watches ⟨s, calls⟩ a inputs) (h : s.Spares own s') (ha : a ∉ own)
    (hcalls : ∀ d ∈ calls', d ∈ calls ∨ d ∈ own) : Advances ⟨s, calls⟩ ⟨s', calls'⟩ a inputs := by
  obtain ⟨value, slots, hl, hvalue⟩ := hw.gathers
  have hl' := h.ledger ha hl
  have hperm := h.entries ha hl.tracks.made
  refine ⟨⟨⟨value, slots, hl', hvalue.trans ?_⟩, fun hmem ↦ (hcalls a hmem).elim hw.calls ha⟩, .inl ?_⟩
  · rw [not_iff_not]
    exact ⟨fun h ↦ (h ▸ hperm).eq_nil, fun h ↦ (h ▸ hperm.symm).eq_nil⟩
  · exact hl'.value?_eq.trans hl.value?_eq.symm

/-- A step is right if it is so for the aggregates that it works on. -/
theorem keeps_of_spares (hc : Sound ⟨s, calls⟩) (h : s.Spares own s')
    (hcalls : ∀ d ∈ calls', d ∈ calls ∨ d ∈ own ∧ s.Made d)
    (hown : ∀ a inputs, ¬ allowed a → Watches ⟨s, calls⟩ a inputs → a ∈ own →
      Advances ⟨s, calls⟩ ⟨s', calls'⟩ a inputs) : Keeps allowed ⟨s, calls⟩ ⟨s', calls'⟩ where
  sound := by
    refine ⟨h.sane, fun d hd ↦ ?_⟩
    rcases hcalls d hd with hd | hd
    · exact (hc.calls d hd).mono h.lastId
    · exact hd.2.mono h.lastId
  advances a inputs ha hw := by
    by_cases hmem : a ∈ own
    · exact hown a inputs ha hw hmem
    · exact advances_of_spares hw h hmem fun d hd ↦ (hcalls d hd).imp_right And.left

theorem advances_of_collect {i : Nat} {v : Value} (hc : Sound ⟨s, calls⟩) (hw : Watches ⟨s, calls⟩ a inputs)
    (h : s.Takes (.collect a i) v s') :
    Advances ⟨s, calls⟩ ⟨after (Engine.gather a i v s'), calls⟩ a inputs := by
  obtain ⟨value, slots, hl, hvalue⟩ := hw.gathers
  have hentries : s.entries a ≠ [] := List.ne_nil_of_mem (mem_entries.mpr h.mem_reactions)
  cases hvalue.mpr hentries
  have hl' := h.shifts.ledger hl List.not_mem_nil
  simp only [List.map_cons, List.map_nil, List.filterMap_cons, Reaction.slotIn_collect, List.filterMap_nil,
    List.singleton_append] at hl'
  have hqueued : (.collect a i, v) ∈ s.queued := h.shifts.queued.mem_iff.mpr List.mem_cons_self
  obtain ⟨q, hinput, hq⟩ := hl.tracks.queued i v hqueued
  have hs' := h.shifts.sane hc.sane (List.forall_mem_nil _)
  have hd : s'.Delivers (.promise q) v := (h.shifts.value?_eq q).trans hq
  obtain ⟨s'', hgather, hcloses⟩ := Engine.exists_gather hs' hl' hinput hd
  rw [hgather]
  have hcloses : s.Closes s'' a inputs := hcloses.of_le h.shifts.lastId
  exact ⟨⟨hcloses.gathers, hw.calls⟩, .inr ⟨hl.value?_eq, hcloses⟩⟩

theorem Watches.eq_collect (hw : Watches ⟨s, calls⟩ a inputs) {r : Reaction} (hr : r ∈ s.reactions)
    (htarget : r.target = a) : ∃ i, r = .collect a i := by
  obtain ⟨value, slots, hl, -⟩ := hw.gathers
  exact hl.tracks.alone r hr htarget

theorem Watches.not_fetching (hw : Watches ⟨s, calls⟩ a inputs) : a ∉ s.fetching := by
  obtain ⟨value, slots, hl, -⟩ := hw.gathers
  exact hl.tracks.fetching

theorem Step.keeps (h : Step allowed c c') (hc : c.Sound) : Keeps allowed c c' := by
  cases h with
  | operate operation hallowed =>
    refine keeps_of_spares hc (Engine.spares_perform operation hc.sane) (fun _ ↦ .inl) fun a _ ha _ hmem ↦ ?_
    exact absurd (hallowed a (Option.mem_toList.mp hmem)) ha
  | @call s s' calls f d v h =>
    have hmade : s.Made d := hc.sane.reactions _ h.mem_reactions
    have hspares : s.Spares [d] s' := h.spares hc.sane List.mem_cons_self
    refine keeps_of_spares hc hspares (List.forall_mem_cons.mpr ⟨.inr ⟨List.mem_cons_self, hmade⟩, fun _ ↦ .inl⟩) ?_
    intro a _ _ hw hmem
    obtain ⟨i, hi⟩ := hw.eq_collect h.mem_reactions (List.mem_singleton.mp hmem).symm
    cases hi
  | @conclude s calls d result =>
    have hmade : ∀ b ∈ [d], s.Made b := List.forall_mem_singleton.mpr (hc.calls d List.mem_cons_self)
    have hspares := Engine.sparing_conclude List.mem_cons_self result s hc.sane hmade
    refine keeps_of_spares hc hspares (fun b hb ↦ .inl (List.mem_cons_of_mem d hb)) fun a _ _ hw hmem ↦ ?_
    exact absurd (List.mem_singleton.mp hmem ▸ List.mem_cons_self) hw.calls
  | @fail s calls d =>
    refine keeps_of_spares hc (hc.sane.spares []) (fun b hb ↦ .inl (List.mem_cons_of_mem d hb)) ?_
    exact fun _ _ _ _ h ↦ absurd h List.not_mem_nil
  | @react s s' calls r v h hr ω invoke journal =>
    have hmade : s.Made r.target := hc.sane.reactions _ h.mem_reactions
    have htakes : s.Spares [r.target] s' := h.spares hc.sane List.mem_cons_self
    have hruns := Activity.spares_runReaction invoke hr htakes.sane (hmade.mono htakes.lastId) v journal
    refine keeps_of_spares hc (htakes.trans hruns fun _ ↦ .inl) (fun _ ↦ .inl) fun a inputs _ hw hmem ↦ ?_
    obtain ⟨i, rfl⟩ := hw.eq_collect h.mem_reactions (List.mem_singleton.mp hmem).symm
    have hadvances := advances_of_collect hc hw h
    rwa [← Activity.state_after_ofEngine _ ⟨s', journal⟩] at hadvances
  | @receive s s' calls q url h =>
    have hmade : s'.Made q := (hc.sane.fetching q h.mem_fetching).mono h.shifts.lastId
    have htakes : s.Spares [q] s' := h.spares hc.sane
    have hruns := Engine.sparing_completeFetch List.mem_cons_self url s' htakes.sane
      (List.forall_mem_singleton.mpr hmade)
    refine keeps_of_spares hc (htakes.trans hruns fun _ ↦ .inl) (fun _ ↦ .inl) fun a _ _ hw hmem ↦ ?_
    exact absurd (List.mem_singleton.mp hmem ▸ h.mem_fetching) hw.not_fetching
  | @other s s' calls h =>
    -- a response may have got lost, and an aggregate does not wait for one
    have hspares : s.Spares s.fetching s' :=
      h.spares hc.sane (List.forall_mem_nil _) (List.forall_mem_nil _) fun _ ↦ .inl
    exact keeps_of_spares hc hspares (fun _ ↦ .inl) fun _ _ _ hw hmem ↦ absurd hmem hw.not_fetching

theorem Reaches.sound (h : Reaches allowed c c') (hc : c.Sound) : c'.Sound := by
  induction h with
  | refl => exact hc
  | tail _ hstep ih => exact (hstep.keeps ih).sound

theorem Reaches.watches (h : Reaches allowed c c') (hc : c.Sound) (ha : ¬ allowed a) (hw : c.Watches a inputs) :
    c'.Watches a inputs := by
  induction h with
  | refl => exact hw
  | tail hreaches hstep ih =>
    have hsound := Reaches.sound hreaches hc
    exact ((hstep.keeps hsound).advances _ _ ha ih).watches

theorem sound_initial : Sound {} where
  sane := ⟨List.nodup_nil, nofun, fun _ _ ↦ rfl, nofun, nofun, nofun⟩
  calls := nofun

/-- Carrying out a reaction is a row of steps, if calling a handler is one. -/
theorem reaches_runReaction {ω : Type} {invoke : Function → List Value → Activity ω Value} {r : Reaction} {v : Value}
    (h : s.Takes r v s') (hinvoke : ∀ f arguments (m : Machine ω) calls,
      Reaches allowed ⟨m.state, calls⟩ ⟨(after (invoke f arguments m)).state, calls⟩) (journal : ω) :
    Reaches allowed ⟨s, calls⟩ ⟨(after (Activity.runReaction invoke r v ⟨s', journal⟩)).state, calls⟩ := by
  by_cases hr : ∃ f d, r = .handle (some f) d
  · obtain ⟨f, d, rfl⟩ := hr
    have hcall := Relation.ReflTransGen.head (.call h) (hinvoke f [v] ⟨s', journal⟩ (d :: calls))
    refine hcall.tail ?_
    change Step _ _ ⟨(after ((invoke f [v] >>= fun result ↦ Activity.ofEngine (Engine.conclude d result)) _)).state, _⟩
    rw [bind_apply]
    cases invoke f [v] ⟨s', journal⟩ with
    | error stop m => exact .fail
    | ok result m =>
      dsimp only
      rw [Activity.state_after_ofEngine]
      exact .conclude result
  · exact .single (.react h (fun f d hr' ↦ hr ⟨f, d, hr'⟩) invoke journal)

end Course

end Stepwise
