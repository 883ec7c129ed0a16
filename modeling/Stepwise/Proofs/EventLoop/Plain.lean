import Stepwise.Proofs.Outcome
import Stepwise.Run.EventLoop
/-!
The plain scheduler: the oldest microtask if there is one, otherwise the oldest macrotask. However
the passes and budgets of a drain come out, it carries out a beginning of the plain schedule.
-/

namespace Stepwise

namespace EventLoop

/-- The task whose turn it is, and the queues without it. -/
def next? (loop : EventLoop) : Option (Task × EventLoop) :=
  match loop.microtasks, loop.macrotasks with
  | task :: rest, _ => some (task, { loop with microtasks := rest })
  | [], task :: rest => some (task, { loop with macrotasks := rest })
  | [], [] => none

theorem next?_eq_none {loop : EventLoop} : loop.next? = none ↔ loop.isIdle := by
  unfold next? isIdle
  split <;> simp [*]

end EventLoop

def Machine.withLoop {ω : Type} (m : Machine ω) (loop : EventLoop) : Machine ω :=
  { m with state := { m.state with loop } }

namespace Activity

variable {ω α β : Type} {execute : Task → Activity ω Unit} {m : Machine ω}

/-- A number of tasks in the plain order, or fewer if no more are left. -/
def plain (execute : Task → Activity ω Unit) : Nat → Activity ω Unit
  | 0 => pure ()
  | n + 1 => do
    match (← getLoop).next? with
    | none => pure ()
    | some (task, loop) =>
      modifyLoop fun _ ↦ loop
      runTask execute task
      plain execute n

/-- The end of a drain: what is left in the queues counts as cut off. -/
def finish : Activity ω Bool := do
  let truncated := !(← getLoop).isIdle
  modifyLoop fun loop ↦ { loop with truncated }
  return truncated

theorem drain_eq (ceiling : Int) (execute : Task → Activity ω Unit) :
    drain ceiling execute = drainPasses execute ceiling.toNat ceiling.toNat >>= fun _ ↦ finish := rfl

theorem plain_succ_of_none {n : Nat} (h : m.state.loop.next? = none) : plain execute (n + 1) m = .ok () m := by
  change (match m.state.loop.next? with | none => pure () | some (task, loop) => _ : Activity ω Unit) m = _
  rw [h]
  rfl

theorem plain_succ_of_some {n : Nat} {task : Task} {loop : EventLoop}
    (h : m.state.loop.next? = some (task, loop)) : plain execute (n + 1) m =
      (runTask execute task >>= fun _ ↦ plain execute n) (m.withLoop loop) := by
  change (match m.state.loop.next? with
    | none => pure ()
    | some (task, loop) => modifyLoop (fun _ ↦ loop) >>= fun _ ↦ runTask execute task >>= fun _ ↦
      plain execute n : Activity ω Unit) m = _
  rw [h]
  rfl

theorem plain_of_none (n : Nat) (h : m.state.loop.next? = none) : plain execute n m = .ok () m := by
  cases n with
  | zero => rfl
  | succ n => exact plain_succ_of_none h

theorem plain_add (n k : Nat) (m : Machine ω) :
    plain execute (n + k) m = (plain execute n >>= fun _ ↦ plain execute k) m := by
  induction n generalizing m with
  | zero => rw [Nat.zero_add]; rfl
  | succ n ih =>
    rw [Nat.add_right_comm, bind_apply]
    cases h : m.state.loop.next? with
    | none =>
      rw [plain_succ_of_none h, plain_succ_of_none h]
      exact (plain_of_none k h).symm
    | some taken =>
      obtain ⟨task, loop⟩ := taken
      rw [plain_succ_of_some h, plain_succ_of_some h, bind_apply, bind_apply]
      cases runTask execute task (m.withLoop loop) with
      | error stop m => rfl
      | ok a m => exact (ih m).trans (bind_apply _ _ m)

/-- The end of an activity without its result. -/
def ended : EStateM.Result Stop (Machine ω) α → EStateM.Result Stop (Machine ω) Unit
  | .ok _ m => .ok () m
  | .error stop m => .error stop m

/-- On a machine an activity does what the plain schedule does for some number of tasks. -/
def PlainAt (execute : Task → Activity ω Unit) (x : Activity ω α) (m : Machine ω)
    (A : α → Machine ω → Prop) : Prop :=
  ∃ n, ended (x m) = plain execute n m ∧ ∀ a m', x m = .ok a m' → A a m'

variable {x : Activity ω α} {A : α → Machine ω → Prop} {B : β → Machine ω → Prop}

theorem PlainAt.pure {a : α} (ha : A a m) : PlainAt execute (Pure.pure a) m A :=
  ⟨0, rfl, fun _ _ e ↦ by cases e; exact ha⟩

theorem PlainAt.bind {f : α → Activity ω β} (h : PlainAt execute x m A)
    (hf : ∀ a m', A a m' → PlainAt execute (f a) m' B) : PlainAt execute (x >>= f) m B := by
  obtain ⟨n, hn, hA⟩ := h
  unfold PlainAt
  rw [bind_apply]
  cases hx : x m with
  | error stop m' =>
    rw [hx] at hn
    refine ⟨n, hn, fun b m'' h ↦ ?_⟩
    cases h
  | ok a m' =>
    rw [hx] at hn
    obtain ⟨k, hk, hB⟩ := hf a m' (hA a m' hx)
    refine ⟨n + k, ?_, hB⟩
    rw [plain_add, bind_apply, ← hn]
    exact hk

theorem PlainAt.mono {A' : α → Machine ω → Prop} (h : PlainAt execute x m A) (hA : ∀ a m', A a m' → A' a m') :
    PlainAt execute x m A' := by
  obtain ⟨n, hn, ha⟩ := h
  exact ⟨n, hn, fun a m' e ↦ hA a m' (ha a m' e)⟩

theorem PlainAt.getLoop {f : EventLoop → Activity ω β} (h : PlainAt execute (f m.state.loop) m B) :
    PlainAt execute (Activity.getLoop >>= f) m B := h

/-- The next task in the plain order, and what comes behind it. -/
theorem PlainAt.take {task : Task} {g : EventLoop → EventLoop} {f : Unit → Activity ω β}
    (hnext : m.state.loop.next? = some (task, g m.state.loop)) (hf : ∀ m', PlainAt execute (f ()) m' B) :
    PlainAt execute (modifyLoop g >>= fun _ ↦ runTask execute task >>= f) m B := by
  have htake : modifyLoop g m = .ok () (m.withLoop (g m.state.loop)) := rfl
  unfold PlainAt
  rw [bind_apply, htake]
  dsimp only
  rw [bind_apply]
  cases hrun : runTask execute task (m.withLoop (g m.state.loop)) with
  | error stop m' =>
    refine ⟨1, ?_, fun b m'' h ↦ ?_⟩
    · rw [plain_succ_of_some hnext, bind_apply, hrun]
      rfl
    · cases h
  | ok a m' =>
    obtain ⟨k, hk, hB⟩ := hf m'
    refine ⟨k + 1, ?_, hB⟩
    rw [plain_succ_of_some hnext, bind_apply, hrun]
    exact hk

theorem plainAt_drainMicrotasks (budget : Nat) (m : Machine ω) :
    PlainAt execute (drainMicrotasks execute budget) m fun empty m' ↦
      empty = true → m'.state.loop.microtasks = [] := by
  induction budget generalizing m with
  | zero => exact .getLoop (.pure List.isEmpty_iff.mp)
  | succ budget ih =>
    refine .getLoop ?_
    cases hm : m.state.loop.microtasks with
    | nil => exact .pure fun _ ↦ hm
    | cons task rest =>
      refine .take (g := fun loop ↦ { loop with microtasks := rest }) ?_ ih
      simp only [EventLoop.next?, hm]

/-- A pass of the loop behind its first drain of microtasks, and the passes that follow. -/
def passOn (execute : Task → Activity ω Unit) (budget passes : Nat) : Activity ω Unit := do
  match (← getLoop).macrotasks with
  | [] => drainPasses execute budget passes
  | task :: rest =>
    modifyLoop fun loop ↦ { loop with macrotasks := rest }
    runTask execute task
    if !(← drainMicrotasks execute budget) then return ()
    drainPasses execute budget passes

theorem drainPasses_succ (execute : Task → Activity ω Unit) (budget passes : Nat) :
    drainPasses execute budget (passes + 1) = getLoop >>= fun loop ↦ if loop.isIdle then pure () else
      drainMicrotasks execute budget >>= fun empty ↦ if !empty then pure () else passOn execute budget passes := rfl

theorem plainAt_passOn {budget passes : Nat}
    (h : ∀ m, PlainAt execute (drainPasses execute budget passes) m fun _ _ ↦ True)
    (hm : m.state.loop.microtasks = []) : PlainAt execute (passOn execute budget passes) m fun _ _ ↦ True := by
  refine .getLoop ?_
  cases hmacrotasks : m.state.loop.macrotasks with
  | nil => exact h m
  | cons task rest =>
    refine .take (g := fun loop ↦ { loop with macrotasks := rest }) ?_ fun m ↦ ?_
    · simp only [EventLoop.next?, hm, hmacrotasks]
    · refine (plainAt_drainMicrotasks budget m).bind fun empty m _ ↦ ?_
      cases empty with
      | false => exact .pure trivial
      | true => exact h m

theorem plainAt_drainPasses (execute : Task → Activity ω Unit) (budget passes : Nat) (m : Machine ω) :
    PlainAt execute (drainPasses execute budget passes) m fun _ _ ↦ True := by
  induction passes generalizing m with
  | zero => exact .pure trivial
  | succ passes ih =>
    rw [drainPasses_succ]
    refine .getLoop ?_
    split
    · exact .pure trivial
    · refine (plainAt_drainMicrotasks budget m).bind fun empty m hempty ↦ ?_
      cases empty with
      | false => exact .pure trivial
      | true => exact plainAt_passOn ih (hempty rfl)

/-- A drain carries out the plain schedule up to some number of tasks. -/
theorem exists_drain_eq_plain (ceiling : Int) (execute : Task → Activity ω Unit) (m : Machine ω) :
    ∃ n, drain ceiling execute m = (plain execute n >>= fun _ ↦ finish) m := by
  obtain ⟨n, hn, -⟩ := plainAt_drainPasses execute ceiling.toNat ceiling.toNat m
  refine ⟨n, ?_⟩
  rw [drain_eq, bind_apply, bind_apply, ← hn]
  cases drainPasses execute ceiling.toNat ceiling.toNat m <;> rfl

end Activity

end Stepwise
