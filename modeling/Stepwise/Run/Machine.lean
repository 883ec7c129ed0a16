import Stepwise.State.Scoping
/-!
Machines: a state together with a journal of whatever an activity notes down beside it.
-/

namespace Stepwise

/-- Why an activity did not go on. -/
inductive Stop where
  /-- a function or the program returns -/
  | returned (value : Value)
  | fault (fault : Fault)
  /-- the depth allowed for nested evaluation is used up -/
  | exhausted

structure Machine (ω : Type) where
  state : State
  journal : ω

/-- Activities on a machine; what was done before a stop stays done. -/
abbrev Activity (ω : Type) := EStateM Stop (Machine ω)

namespace Activity

variable {ω α : Type}

/-- An operation on the state alone. -/
def ofEngine (operation : Engine α) : Activity ω α := fun m =>
  match operation m.state with
  | .ok a state => .ok a { m with state }
  | .error f state => .error (.fault f) { m with state }

instance : MonadLift Engine (Activity ω) := ⟨ofEngine⟩

instance : MonadLift (Except Fault) (Activity ω) where
  monadLift
    | .ok a => pure a
    | .error f => throw (.fault f)

/-- Closes with an operation, whether the activity ends or stops. A fault in closing comes before
a stop of the activity. -/
def closing (activity : Activity ω α) (close : Engine Unit) : Activity ω α := fun m =>
  match activity m with
  | .ok a m => match ofEngine close m with
    | .ok _ m => .ok a m
    | .error stop m => .error stop m
  | .error stop m => match ofEngine close m with
    | .ok _ m => .error stop m
    | .error stop m => .error stop m

end Activity

end Stepwise
