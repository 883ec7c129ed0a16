import Stepwise.Trace
/-!
Replays: a position in a trace that moves step by step or jumps. A replay starts before the first
step.
-/

namespace Stepwise

/-- A trace with a position on one of its steps, or before the first. -/
structure Replay where
  steps : List Step
  position : Option (Fin steps.length) := none

namespace Replay

def ofTrace (t : Trace) : Replay := { steps := t.steps }

/-- The place of the position among the steps; before the first it is one less than zero. -/
def index (r : Replay) : Int :=
  match r.position with
  | some i => i.val
  | none => -1

def current (r : Replay) : Option Step := r.position.map r.steps.get

/-- Whether no step follows. -/
def isAtEnd (r : Replay) : Bool := r.index ≥ r.steps.length - 1

/-- Moves to a place; one outside the trace leaves the position as it is. -/
def jump (r : Replay) (i : Int) : Replay :=
  if h : 0 ≤ i ∧ i < r.steps.length then { r with position := some ⟨i.toNat, by omega⟩ } else r

/-- Moves to the next step; the last one has none. -/
def next (r : Replay) : Replay := r.jump (r.index + 1)

/-- Moves to the step before; the first one has none. -/
def previous (r : Replay) : Replay := r.jump (r.index - 1)

def first (r : Replay) : Replay := r.jump 0

def last (r : Replay) : Replay := r.jump (r.steps.length - 1)

def reset (r : Replay) : Replay := { r with position := none }

end Replay

namespace Trace

/-- The step at a place; a negative place counts from the end. -/
def stepAt? (steps : List Step) (i : Int) : Option Step :=
  let place := if i < 0 then i + steps.length else i
  if place < 0 then none else steps[place.toNat]?

end Trace

end Stepwise
