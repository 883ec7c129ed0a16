import Stepwise.Proofs.Run.Access
/-!
No reference dangles. Wherever a run holds the address of an array, an object or a promise, there is one under that
address, so that no promise is ever looked for in vain, and no property of what is not there read or written.
-/

namespace Stepwise

open Engine (anyResult AllKnown)

/-- What an activity leaves behind in which no reference dangles, neither in any state shown nor in its result, and
for which no promise was looked for in vain. -/
structure Intact {α : Type} (A : State → α → Prop) (r : EStateM.Result Stop (Machine Journal) α) : Prop where
  states : ∀ s ∈ (after r).states, s.Whole
  result : ∀ a n, r = .ok a n → A n.state a
  returned : ∀ v n, r = .error (.returned v) n → n.state.Knows v
  found : ∀ address n, r ≠ .error (.fault (.unknownPromise address)) n

namespace Machine

variable {m : Machine Journal}

/-- What is true of the references on a machine that a run comes to. -/
structure Referenced (settings : Settings) (m : Machine Journal) : Prop where
  states : ∀ s ∈ m.states, s.Whole
  expr : ∀ depth e, Intact State.Knows ((Evaluator.ofDepth settings depth).expr e m)
  stmt : ∀ depth x, Intact anyResult ((Evaluator.ofDepth settings depth).stmt x m)
  call : ∀ depth f arguments line name, AllKnown m.state arguments →
    Intact State.Knows ((Evaluator.ofDepth settings depth).call f arguments line name m)
  task : ∀ depth, ∀ task ∈ m.state.tasks, m.state.frames = [] →
    Intact anyResult ((Evaluator.ofDepth settings depth).task settings task m)

theorem Reaches.whole (h : initial.Reaches m) : ∀ s ∈ m.states, s.Whole := by
  intro s hs
  obtain ⟨handed, hrow⟩ := h.leads
  obtain ⟨before, behind, n, hbefore, -, -, hn⟩ := exists_of_mem_states hrow hs
  have hwhole : n.state.Whole := hbefore.state.whole reaches_initial.proper.whole
  obtain ⟨hscopes, hframes, hheap, hpromises, htasks, hconsole, hdeclared⟩ := hwhole
  rw [hn]
  exact ⟨hscopes, hframes, hheap, hpromises, htasks, hconsole, hdeclared⟩

end Machine

namespace Correspondence.Unfolding

open Machine

variable {m : Machine Journal} {α : Type} {A : Machines → α → Prop} {B : State → α → Prop}
variable {r : EStateM.Result Stop (Machine Journal) α}

theorem Outcome.intact (h : Outcome initial A m r) (hB : ∀ n a, A (n, n) a → B n.state a) : Intact B r where
  states := h.reaches.whole
  result a n hn := hB n a (h.result a n hn)
  returned := h.returned
  found _ n hn := nomatch h.faults _ n hn

theorem referenced_of_reaches {settings : Settings} (hs : settings.names = .ofScopes) (h : initial.Reaches m) :
    m.Referenced settings := by
  have hparts := (sound (l := initial) hs).parts
  refine ⟨h.whole, fun depth e ↦ ?_, fun depth x ↦ ?_, fun depth f vs line name hvs ↦ ?_, fun depth task htask hf ↦ ?_⟩
  · exact (outcome h ((hparts depth).expr e)).intact fun _ _ ↦ id
  · exact (outcome h ((hparts depth).stmt x)).intact fun _ _ _ ↦ trivial
  · -- a function is no reference to anything stored
    exact (outcome h fun hp ↦ (hparts depth).call f vs line name hp trivial hvs).intact fun _ _ ↦ id
  · have hjob := h.proper.whole.tasks task htask
    exact (outcome h fun hp ↦ (soundJobs hs).task (hparts depth) (m, m) task hp hf hjob).intact fun _ _ _ ↦ trivial

end Correspondence.Unfolding

open Correspondence.Unfolding in
/-- No reference dangles wherever a run evaluates a form, or in what it leaves and shows. It makes no difference to it
how properties would be read and written where a reference leads nowhere. -/
theorem references_never_dangle (ceiling : Int) (prunes : Bool) (other : Evaluator) (depth : Nat) (program : Program) :
    let settings : Settings := { ceiling, prunes }
    (Evaluator.watched (Machine.Referenced settings) other settings depth).program settings program .initial =
      settings.run depth program ∧
    (∀ ways : Accessors, ways.Follow →
      (Evaluator.through ways settings depth).program settings program .initial = settings.run depth program) ∧
    Intact anyResult (settings.run depth program) ∧
    ∀ t ∈ Trace.ofProgram? settings depth program, ∃ m, t.Shows m ∧ ∀ s ∈ m.states, s.Whole := by
  intro settings
  have hs : settings.names = .ofScopes := rfl
  refine ⟨watched_eq_run hs (fun _ ↦ referenced_of_reaches hs) other depth program,
    fun ways hways ↦ through_eq_run hs hways depth program, ?_, fun t ht ↦ ?_⟩
  · exact (outcome_run hs depth program).intact fun _ _ _ ↦ trivial
  · obtain ⟨m, hshows, hm, -⟩ := Trace.exists_shows hs ht
    exact ⟨m, hshows, hm.whole⟩

/-- An array comes to hold an object and a promise, and a handler writes to the object and reads from the array. -/
def sharedArray : Program where
  hoisted := []
  statements :=
    let settled : Expr := .call (.member (.identifier "Promise") "all") [.array [(0, .identifier "xs")]] .unknown
    let write (place : Place) (value : Expr) : Stmt := .expression (some (.assign place value)) .unknown
    let held (index : String) : Expr := .subscript (.identifier "xs") (.number index)
    let log (value : Expr) : Stmt :=
      .expression (some (.call (.member (.identifier "console") "log") [value] .unknown)) .unknown
    let handler : Expr := .function none [] (.block [] [write (.member (held "0") "self") (held "0"),
      log (.member (held "0") "self"), log (.member (.identifier "xs") "length"), log (held "2")]) 1
    [.declaration .blockScoped [⟨.name "xs", some (.array [])⟩] .unknown,
      write (.subscript (.identifier "xs") (.number "0")) (.object []),
      write (.subscript (.identifier "xs") (.number "2")) settled,
      .expression (some (.call (.member (held "2") "then") [handler] .unknown)) .unknown]

/-- All of it is found, whichever way it is looked for. -/
theorem whole_sharedArray : Accessors.strict.Follow ∧
    (Evaluator.through .strict { ceiling := 9 } 12).program { ceiling := 9 } sharedArray .initial =
      Settings.run { ceiling := 9 } 12 sharedArray ∧
    ∃ t ∈ Trace.ofProgram? { ceiling := 9 } 12 sharedArray, t.error = none ∧ t.console.length = 3 ∧
      ∃ m, t.Shows m ∧ ∀ s ∈ m.states, s.Whole := by
  have hrun : (Trace.ofProgram? { ceiling := 9 } 12 sharedArray).map (fun t ↦ (t.error.isNone, t.console.length)) =
      some (true, 3) := by decide +kernel
  obtain ⟨t, ht, hends⟩ := Option.map_eq_some_iff.mp hrun
  obtain ⟨herror, hconsole⟩ := Prod.mk.inj hends
  obtain ⟨-, hthrough, -, hshows⟩ := references_never_dangle 9 true (.exhausted .ofScopes) 12 sharedArray
  exact ⟨Accessors.follow_strict, hthrough .strict Accessors.follow_strict, t, ht,
    Option.isNone_iff_eq_none.mp herror, hconsole, hshows t ht⟩

end Stepwise
