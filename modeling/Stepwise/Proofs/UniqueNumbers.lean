import Stepwise.Proofs.Run.Chronicle
/-!
No number is given out twice. Scopes, calls, tasks, messages and addresses take their numbers from one counter, and a
ledger of all that a run has given a number to has one entry for each number up to the last one.
-/

namespace Stepwise

namespace Machine

/-- All that was given a number, in the order of the numbers. Nothing else bears one now, and nothing that was not yet
in the ledger did so at an earlier step. -/
structure Ledger (m : Machine Journal) (ledger : List Bearer) : Prop where
  numbers : ledger.map Bearer.number = List.range' 1 m.state.lastId
  bearers : ∀ s ∈ m.states, s.bearers.Subperm (ledger.take s.lastId)

variable {l m : Machine Journal} {handed : List Bearer}

theorem Unfolds.ledger (h : initial.Unfolds handed m) : m.Ledger (.scope 1 :: handed) where
  numbers := by
    have hlast : m.state.lastId = 1 + handed.length := h.state.lastId
    rw [List.map_cons, h.state.numbers, hlast, Nat.add_comm 1, List.range'_succ]
    rfl
  bearers s hs := by
    obtain ⟨before, behind, n, hbefore, -, rfl, hn⟩ := exists_of_mem_states h hs
    have hlast : n.state.lastId = 1 + before.length := hbefore.state.lastId
    have hledger : n.state.bearers.Subperm (.scope 1 :: before) := hbefore.state.bearers
    rw [hn]
    change n.state.bearers.Subperm (List.take n.state.lastId _)
    rw [hlast, Nat.add_comm, ← List.cons_append, List.take_left' (List.length_cons ..)]
    exact hledger

/-- What is true of the numbers on a machine that a run comes to. -/
structure Identified (settings : Settings) (m : Machine Journal) : Prop where
  /-- one ledger for all the way behind, which whatever is evaluated now goes on with -/
  ledger : ∃ handed, initial.Unfolds handed m ∧ m.Ledger (.scope 1 :: handed) ∧
    (∀ depth e, ∃ new, (after ((Evaluator.ofDepth settings depth).expr e m)).Ledger (.scope 1 :: handed ++ new)) ∧
    ∀ depth x, ∃ new, (after ((Evaluator.ofDepth settings depth).stmt x m)).Ledger (.scope 1 :: handed ++ new)
  /-- a scope found under a number at an earlier step is still the one under that number -/
  scopes : ∀ s ∈ m.states, ∀ id old, s.scope? id = some old →
    ∃ scope, m.state.scope? id = some scope ∧ old.Remains scope
  /-- calls have scopes of their own -/
  calls : ∀ s ∈ m.states, ∀ t ∈ m.states, ∀ frame ∈ s.frames, ∀ other ∈ t.frames,
    frame.scope = other.scope → frame.id = other.id
  queues : ∀ s ∈ m.states, s.loop.microtasks.Pairwise Task.Earlier ∧ s.loop.macrotasks.Pairwise Task.Earlier
  /-- new arrays, objects and promises have addresses that nothing had before -/
  newArray : ∀ vs, ∃ a t, Engine.newArray vs m.state = .ok (.object a) t ∧ ∀ s ∈ m.states, s.heap.get? a = none
  newObject : ∀ fields, ∃ a t, Engine.newObject fields m.state = .ok (.object a) t ∧
    ∀ s ∈ m.states, s.heap.get? a = none
  createPromise : ∃ a t, Engine.createPromise m.state = .ok a t ∧ ∀ s ∈ m.states, s.promises.get? a = none
  /-- a call is entered with a scope that was not there before -/
  enter : ∀ f arguments line name, ∃ id t, Evaluator.enter f arguments line name m.state = .ok id t ∧
    ∀ s ∈ m.states, id ∉ s.scopeIds
  /-- capturing scopes leaves those that were captured before in their places -/
  capture : ∀ s ∈ m.states, ∀ id ∈ s.captured, ∀ old, s.scope? id = some old →
    ∃ scope, (after (Engine.capture m.state)).scope? id = some scope ∧ old.Remains scope

/-- Of the states shown none has numbers still to come, and no scope of theirs has given way to another one. -/
theorem Reaches.shown (h : initial.Reaches m) {s : State} (hs : s ∈ m.states) : s.Numbered ∧ s.lastId ≤ m.state.lastId ∧
    ∀ id old, s.scope? id = some old → ∃ scope, m.state.scope? id = some scope ∧ old.Remains scope := by
  obtain ⟨handed, hrow⟩ := h.leads
  obtain ⟨before, behind, n, hbefore, hbehind, -, hn⟩ := exists_of_mem_states hrow hs
  have hnumbered : n.state.Numbered := hbefore.state.numbered reaches_initial.proper.numbered
  have hlast : n.state.lastId ≤ m.state.lastId := hbehind.state.lastId ▸ Nat.le_add_right _ _
  have hscopes (id : Nat) (old : Scope) (hold : n.state.scope? id = some old) :=
    hbehind.state.retains hnumbered id old hold
  rw [hn]
  obtain ⟨hbearers, horders, hmicrotasks, hmacrotasks, hframes⟩ := hnumbered
  exact ⟨⟨hbearers, horders, hmicrotasks, hmacrotasks, hframes⟩, hlast, hscopes⟩

open Correspondence.Unfolding in
theorem Identified.of_reaches {settings : Settings} (hs : settings.names = .ofScopes) (h : initial.Reaches m) :
    m.Identified settings := by
  obtain ⟨handed, hrow⟩ := h.leads
  have hparts := (sound (l := initial) hs).parts
  have hledger {n : Machine Journal} (hn : m.Leads n) : ∃ new, n.Ledger (.scope 1 :: handed ++ new) := by
    obtain ⟨new, hnew⟩ := hn
    exact ⟨new, (hrow.trans hnew).ledger⟩
  have hheap (a : Address) (ha : a.number = m.state.lastId + 1) (s : State) (hs : s ∈ m.states) :
      s.heap.get? a = none := by
    obtain ⟨hnumbered, hlast, -⟩ := h.shown hs
    exact hnumbered.heap_get?_eq_none (by omega)
  constructor
  case ledger =>
    refine ⟨handed, hrow, hrow.ledger, fun depth e ↦ ?_, fun depth x ↦ ?_⟩
    · exact hledger (outcome h ((hparts depth).expr e)).leads
    · exact hledger (outcome h ((hparts depth).stmt x)).leads
  case scopes => exact fun s hs ↦ (h.shown hs).2.2
  case calls =>
    intro s hs t ht frame hframe other hother hscope
    rw [(h.shown hs).1.frames frame hframe, (h.shown ht).1.frames other hother] at hscope
    injection hscope with hscope
    omega
  case queues => exact fun s hs ↦ ⟨(h.shown hs).1.microtasks, (h.shown hs).1.macrotasks⟩
  case newArray => exact fun vs ↦ ⟨_, _, rfl, hheap _ rfl⟩
  case newObject => exact fun fields ↦ ⟨_, _, rfl, hheap _ rfl⟩
  case createPromise =>
    refine ⟨_, _, rfl, fun s hs ↦ (h.shown hs).1.promises_get?_eq_none ?_⟩
    exact Nat.lt_succ_of_le (h.shown hs).2.1
  case enter =>
    refine fun f vs line name ↦ ⟨_, _, Evaluator.enter_apply f vs line name m.state, fun s hs hid ↦ ?_⟩
    obtain ⟨hnumbered, hlast, -⟩ := h.shown hs
    have hle := hnumbered.le_of_mem_scopeIds hid
    have hnew := m.state.lt_callScope f name
    omega
  case capture =>
    intro s hs id _ old hold
    have hscopes : (after (Engine.capture m.state)).scopes = m.state.scopes := by
      obtain ⟨ids, captured, hcapture, -⟩ | ⟨f, hcapture, -⟩ := Engine.capture_cases m.state
      · rw [hcapture]
        rfl
      · rw [hcapture]
        rfl
    unfold State.scope?
    rw [hscopes]
    exact (h.shown hs).2.2 id old hold

end Machine

/-- No number is used twice in a run, on whatever machine it evaluates a form and on the one that it leaves. -/
theorem numbers_never_reused (ceiling : Int) (prunes : Bool) (other : Evaluator) (depth : Nat) (program : Program) :
    let settings : Settings := { ceiling, prunes }
    (Evaluator.watched (Machine.Identified settings) other settings depth).program settings program .initial =
      settings.run depth program ∧
    (after (settings.run depth program)).Identified settings ∧
    ∀ t ∈ Trace.ofProgram? settings depth program, ∃ m, t.Shows m ∧ m.Identified settings := by
  intro settings
  have hs : settings.names = .ofScopes := rfl
  have hreaches := (Correspondence.Unfolding.outcome_run hs depth program).reaches
  refine ⟨Correspondence.Unfolding.watched_eq_run hs (fun _ ↦ .of_reaches hs) other depth program,
    .of_reaches hs hreaches, fun t ht ↦ ?_⟩
  obtain ⟨m, hshows, hm, -⟩ := Trace.exists_shows hs ht
  exact ⟨m, hshows, .of_reaches hs hm⟩

end Stepwise
