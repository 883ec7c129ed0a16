import Stepwise.Run.Machine
/-!
The event loop. Deferred tasks wait in two queues; a drain runs all microtasks before each
macrotask, oldest first, up to a ceiling.
-/

namespace Stepwise

namespace EventLoop

def enqueue (loop : EventLoop) (task : Task) : EventLoop :=
  match task.kind with
  | .microtask => { loop with microtasks := loop.microtasks ++ [task] }
  | .macrotask => { loop with macrotasks := loop.macrotasks ++ [task] }

end EventLoop

namespace Engine

def modifyLoop (f : EventLoop → EventLoop) : Engine Unit :=
  modify fun s => { s with loop := f s.loop }

/-- Puts a new task at the end of the queue of its kind. -/
def schedule (kind : TaskKind) (description : Text) (job : Job) (line : Int) : Engine Task := do
  let id ← freshId
  let order := (← get).loop.scheduled + 1
  let task : Task := { id, kind, description, job, order, line }
  modifyLoop fun loop => { loop.enqueue task with scheduled := order }
  return task

end Engine

namespace Activity

variable {ω : Type}

def getLoop : Activity ω EventLoop := return (← get).state.loop

def modifyLoop (f : EventLoop → EventLoop) : Activity ω Unit := ofEngine (Engine.modifyLoop f)

/-- Runs one task, which is the current one meanwhile; it counts as executed when it ends. -/
def runTask (execute : Task → Activity ω Unit) (task : Task) : Activity ω Unit := do
  modifyLoop fun loop => { loop with current := some task }
  closing (execute task) (Engine.modifyLoop fun loop => { loop with current := none })
  modifyLoop fun loop => { loop with executed := loop.executed + 1 }

/-- Runs microtasks, the ones that come up meanwhile included, at most as many as the budget
allows. Says whether none is left. -/
def drainMicrotasks (execute : Task → Activity ω Unit) : Nat → Activity ω Bool
  | 0 => return (← getLoop).microtasks.isEmpty
  | budget + 1 => do
    match (← getLoop).microtasks with
    | [] => return true
    | task :: rest =>
      modifyLoop fun loop => { loop with microtasks := rest }
      runTask execute task
      drainMicrotasks execute budget

/-- Passes of the loop: all microtasks, one macrotask, all microtasks. A microtask budget that runs
out ends the passes. -/
def drainPasses (execute : Task → Activity ω Unit) (budget : Nat) : Nat → Activity ω Unit
  | 0 => pure ()
  | passes + 1 => do
    if (← getLoop).isIdle then return ()
    if !(← drainMicrotasks execute budget) then return ()
    match (← getLoop).macrotasks with
    | [] => drainPasses execute budget passes
    | task :: rest =>
      modifyLoop fun loop => { loop with macrotasks := rest }
      runTask execute task
      if !(← drainMicrotasks execute budget) then return ()
      drainPasses execute budget passes

/-- Drains the queues, with the ceiling as the number of passes and the budget of each drain of
microtasks. Says whether tasks are left. -/
def drain (ceiling : Int) (execute : Task → Activity ω Unit) : Activity ω Bool := do
  drainPasses execute ceiling.toNat ceiling.toNat
  let truncated := !(← getLoop).isIdle
  modifyLoop fun loop => { loop with truncated }
  return truncated

end Activity

end Stepwise
