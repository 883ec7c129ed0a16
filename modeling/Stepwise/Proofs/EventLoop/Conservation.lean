import Stepwise.Proofs.EventLoop.Plain
/-!
What becomes of the tasks. A callback is watched while the queues are drained: which tasks it is
given, what is in the queues before and after, and whether it ends. No task is lost, none is
carried out twice, and each kind keeps its order.
-/

namespace Stepwise

namespace EventLoop

def queue (loop : EventLoop) : TaskKind → List Task
  | .microtask => loop.microtasks
  | .macrotask => loop.macrotasks

/-- Each queue holds tasks of its own kind, as enqueuing puts them there. -/
def Sorted (loop : EventLoop) : Prop := ∀ kind, ∀ task ∈ loop.queue kind, task.kind = kind

theorem Sorted.next? {loop rest : EventLoop} {task : Task} (h : loop.Sorted)
    (hnext : loop.next? = some (task, rest)) :
    rest.Sorted ∧ (task.kind = .macrotask → rest.microtasks = []) ∧ rest.executed = loop.executed ∧
      ∀ kind, loop.queue kind = [task].filter (·.kind = kind) ++ rest.queue kind := by
  have hmicro := h .microtask
  have hmacros := h .macrotask
  unfold EventLoop.next? at hnext
  unfold queue at hmicro hmacros
  dsimp only at hmicro hmacros
  split at hnext
  next t ts hts =>
    cases hnext
    rw [hts] at hmicro
    obtain ⟨hkind, hrest⟩ := List.forall_mem_cons.mp hmicro
    refine ⟨fun kind ↦ ?_, fun e ↦ (nomatch hkind.symm.trans e), rfl, fun kind ↦ ?_⟩
    · cases kind with
      | microtask => exact hrest
      | macrotask => exact hmacros
    · cases kind with
      | microtask => simpa [hkind, queue] using hts
      | macrotask => simp [hkind, queue]
  next t ts hnone hts =>
    cases hnext
    rw [hts] at hmacros
    obtain ⟨hkind, hrest⟩ := List.forall_mem_cons.mp hmacros
    refine ⟨fun kind ↦ ?_, fun _ ↦ hnone, rfl, fun kind ↦ ?_⟩
    · cases kind with
      | microtask => exact hmicro
      | macrotask => exact hrest
    · cases kind with
      | microtask => simp [hkind, queue]
      | macrotask => simpa [hkind, queue] using hts
  next => cases hnext

end EventLoop

/-- A call of the callback: its task, the queues before and after, and whether it ended. -/
structure Note where
  task : Task
  before : EventLoop
  after : EventLoop
  completed : Bool

/-- The tasks of a kind that the callback put into the queue. -/
def Note.enqueued (note : Note) (kind : TaskKind) : List Task :=
  (note.after.queue kind).drop (note.before.queue kind).length

namespace Machine

variable {ω : Type}

/-- A machine on which calls are noted down. -/
def noted (m : Machine ω) (notes : List Note) : Machine (ω × List Note) := ⟨m.state, (m.journal, notes)⟩

def plainly (m : Machine (ω × List Note)) : Machine ω := ⟨m.state, m.journal.1⟩

end Machine

namespace Activity

variable {ω α β : Type} {execute : Task → Activity ω Unit}

/-- The callback with its calls noted down. -/
def noting (execute : Task → Activity ω Unit) (task : Task) : Activity (ω × List Note) Unit := fun m ↦
  match execute task m.plainly with
  | .ok a n => .ok a (n.noted (m.journal.2 ++ [⟨task, m.state.loop, n.state.loop, true⟩]))
  | .error stop n => .error stop (n.noted (m.journal.2 ++ [⟨task, m.state.loop, n.state.loop, false⟩]))

/-- A callback that does nothing to the queues but put tasks at their ends. -/
structure Enqueues (execute : Task → Activity ω Unit) : Prop where
  queues : ∀ task m kind, ∃ new, (after (execute task m)).state.loop.queue kind = m.state.loop.queue kind ++ new ∧
    ∀ t ∈ new, t.kind = kind
  executed : ∀ task m, (after (execute task m)).state.loop.executed = m.state.loop.executed

/-- The end of an activity without the notes. -/
def unnoted : EStateM.Result Stop (Machine (ω × List Note)) α → EStateM.Result Stop (Machine ω) α
  | .ok a m => .ok a m.plainly
  | .error stop m => .error stop m.plainly

/-- An activity that pays no attention to the notes. -/
def Unnoted (x : Activity (ω × List Note) α) (y : Activity ω α) : Prop := ∀ m, unnoted (x m) = y m.plainly

theorem Unnoted.pure (a : α) : Unnoted (Pure.pure a : Activity (ω × List Note) α) (Pure.pure a) := fun _ ↦ rfl

theorem Unnoted.bind {x : Activity (ω × List Note) α} {y : Activity ω α}
    {f : α → Activity (ω × List Note) β} {g : α → Activity ω β} (h : Unnoted x y)
    (hf : ∀ a, Unnoted (f a) (g a)) : Unnoted (x >>= f) (y >>= g) := by
  intro m
  rw [bind_apply, bind_apply, ← h m]
  cases x m with
  | ok a n => exact hf a n
  | error stop n => rfl

theorem Unnoted.ite {c : Prop} [Decidable c] {x x' : Activity (ω × List Note) α} {y y' : Activity ω α}
    (h : Unnoted x y) (h' : Unnoted x' y') : Unnoted (if c then x else x') (if c then y else y') := by
  split
  · exact h
  · exact h'

theorem unnoted_getLoop : Unnoted (getLoop : Activity (ω × List Note) EventLoop) getLoop := fun _ ↦ rfl

theorem unnoted_modifyLoop (g : EventLoop → EventLoop) :
    Unnoted (modifyLoop g : Activity (ω × List Note) Unit) (modifyLoop g) := fun _ ↦ rfl

theorem unnoted_noting (task : Task) : Unnoted (noting execute task) (execute task) := by
  intro m
  unfold noting
  cases execute task m.plainly <;> rfl

theorem unnoted_runTask (task : Task) : Unnoted (runTask (noting execute) task) (runTask execute task) := by
  refine (unnoted_modifyLoop _).bind fun _ ↦ Unnoted.bind ?_ fun _ ↦ unnoted_modifyLoop _
  intro m
  have h : unnoted (noting execute task m) = execute task m.plainly := unnoted_noting task m
  unfold closing
  rw [← h]
  cases noting execute task m <;> rfl

theorem unnoted_drainMicrotasks (budget : Nat) :
    Unnoted (drainMicrotasks (noting execute) budget) (drainMicrotasks execute budget) := by
  induction budget with
  | zero => exact unnoted_getLoop.bind fun _ ↦ .pure _
  | succ budget ih =>
    refine unnoted_getLoop.bind fun loop ↦ ?_
    cases loop.microtasks with
    | nil => exact .pure true
    | cons task rest => exact (unnoted_modifyLoop _).bind fun _ ↦ (unnoted_runTask task).bind fun _ ↦ ih

theorem unnoted_drainPasses (budget passes : Nat) :
    Unnoted (drainPasses (noting execute) budget passes) (drainPasses execute budget passes) := by
  induction passes with
  | zero => exact .pure ()
  | succ passes ih =>
    refine unnoted_getLoop.bind fun loop ↦ .ite (.pure ()) ?_
    refine (unnoted_drainMicrotasks budget).bind fun empty ↦ .ite (.pure ()) ?_
    refine unnoted_getLoop.bind fun loop ↦ ?_
    cases loop.macrotasks with
    | nil => exact ih
    | cons task rest =>
      refine (unnoted_modifyLoop _).bind fun _ ↦ (unnoted_runTask task).bind fun _ ↦ ?_
      exact (unnoted_drainMicrotasks budget).bind fun empty ↦ .ite (.pure ()) ih

/-- Noting calls down does not change a drain. -/
theorem unnoted_drain (ceiling : Int) : Unnoted (drain ceiling (noting execute)) (drain ceiling execute) :=
  (unnoted_drainPasses _ _).bind fun _ ↦ unnoted_getLoop.bind fun _ ↦ (unnoted_modifyLoop _).bind fun _ ↦ .pure _

/-- The loop while a task is carried out. -/
def running (m : Machine ω) (task : Task) : Machine ω :=
  m.withLoop { m.state.loop with current := some task }

theorem runTask_noting (task : Task) (m : Machine (ω × List Note)) : runTask (noting execute) task m =
    match execute task (running m.plainly task) with
    | .ok _ n => .ok () ((n.noted (m.journal.2 ++ [⟨task, (running m task).state.loop, n.state.loop, true⟩])).withLoop
        { n.state.loop with current := none, executed := n.state.loop.executed + 1 })
    | .error stop n => .error stop
        ((n.noted (m.journal.2 ++ [⟨task, (running m task).state.loop, n.state.loop, false⟩])).withLoop
          { n.state.loop with current := none }) := by
  have hbody : runTask (noting execute) task m =
      (closing (noting execute task) (Engine.modifyLoop fun loop ↦ { loop with current := none }) >>= fun _ ↦
        modifyLoop fun loop ↦ { loop with executed := loop.executed + 1 }) (running m task) := rfl
  have hplainly : (running m task).plainly = running m.plainly task := rfl
  rw [hbody, bind_apply]
  unfold closing noting
  rw [hplainly]
  cases execute task (running m.plainly task) <;> rfl

/-- All calls ended and are counted, or the last one stopped and all but it are counted. -/
def Ended (start : EventLoop) (notes : List Note) : EStateM.Result Stop (Machine (ω × List Note)) α → Prop
  | .ok _ m => (∀ note ∈ notes, note.completed = true) ∧ m.state.loop.executed = start.executed + notes.length
  | .error _ m => ∃ earlier last, notes = earlier ++ [last] ∧ (∀ note ∈ earlier, note.completed = true) ∧
      last.completed = false ∧ m.state.loop.current = none ∧ m.state.loop.executed = start.executed + earlier.length

/-- What the notes of a run of tasks say about the queues at its start and at its end. -/
structure Account (start : EventLoop) (notes : List Note)
    (r : EStateM.Result Stop (Machine (ω × List Note)) α) : Prop where
  microtasksFirst : ∀ note ∈ notes, note.task.kind = .macrotask → note.before.microtasks = []
  conserved : ∀ kind, (notes.map Note.task).filter (·.kind = kind) ++ (after r).state.loop.queue kind =
    start.queue kind ++ notes.flatMap (·.enqueued kind)
  ended : Ended start notes r

theorem account_nil (m : Machine (ω × List Note)) (a : α) : Account m.state.loop [] (.ok a m) := by
  refine ⟨fun _ h ↦ absurd h List.not_mem_nil, fun kind ↦ ?_, fun _ h ↦ absurd h List.not_mem_nil, rfl⟩
  rw [List.map_nil, List.filter_nil, List.nil_append, List.flatMap_nil, List.append_nil]
  rfl

theorem filter_cons_task {task : Task} {tasks : List Task} {kind : TaskKind} :
    (task :: tasks).filter (·.kind = kind) = [task].filter (·.kind = kind) ++ tasks.filter (·.kind = kind) :=
  List.filter_append [task] tasks

theorem Account.cons {start next : EventLoop} {note : Note} {notes : List Note}
    {r : EStateM.Result Stop (Machine (ω × List Note)) α} (h : Account next notes r)
    (hfirst : note.task.kind = .macrotask → note.before.microtasks = [])
    (hqueue : ∀ kind, [note.task].filter (·.kind = kind) ++ next.queue kind = start.queue kind ++ note.enqueued kind)
    (hcompleted : note.completed = true) (hexecuted : next.executed = start.executed + 1) :
    Account start (note :: notes) r where
  microtasksFirst := List.forall_mem_cons.mpr ⟨hfirst, h.microtasksFirst⟩
  conserved kind := by
    rw [List.map_cons, filter_cons_task, List.append_assoc, h.conserved kind, ← List.append_assoc, hqueue,
      List.append_assoc, List.flatMap_cons]
  ended := by
    have hended := h.ended
    cases r with
    | ok a m =>
      obtain ⟨hall, hcount⟩ := hended
      refine ⟨List.forall_mem_cons.mpr ⟨hcompleted, hall⟩, ?_⟩
      rw [hcount, hexecuted, List.length_cons]
      omega
    | error stop m =>
      obtain ⟨earlier, last, rfl, hall, hlast, hcurrent, hcount⟩ := hended
      refine ⟨note :: earlier, last, rfl, List.forall_mem_cons.mpr ⟨hcompleted, hall⟩, hlast, hcurrent, ?_⟩
      rw [hcount, hexecuted, List.length_cons]
      omega

theorem Account.stopped {start : EventLoop} {note : Note} {m : Machine (ω × List Note)} {stop : Stop}
    (hfirst : note.task.kind = .macrotask → note.before.microtasks = [])
    (hqueue : ∀ kind, [note.task].filter (·.kind = kind) ++ m.state.loop.queue kind =
      start.queue kind ++ note.enqueued kind)
    (hcompleted : note.completed = false) (hcurrent : m.state.loop.current = none)
    (hexecuted : m.state.loop.executed = start.executed) :
    Account start [note] (.error stop m : EStateM.Result Stop (Machine (ω × List Note)) α) := by
  refine ⟨List.forall_mem_singleton.mpr hfirst, fun kind ↦ ?_,
    [], note, rfl, fun _ h ↦ absurd h List.not_mem_nil, hcompleted, hcurrent, hexecuted⟩
  rw [List.map_singleton, List.flatMap_singleton]
  exact hqueue kind

theorem Enqueues.sorted (he : Enqueues execute) {m : Machine ω} (task : Task) (hm : m.state.loop.Sorted) :
    (after (execute task m)).state.loop.Sorted := by
  intro kind t ht
  obtain ⟨new, hqueue, hnew⟩ := he.queues task m kind
  rw [hqueue] at ht
  exact (List.mem_append.mp ht).elim (hm kind t) (hnew t)

theorem Enqueues.conserved (he : Enqueues execute) (task : Task) (m : Machine ω) {start : EventLoop}
    (hstart : ∀ kind, start.queue kind = [task].filter (·.kind = kind) ++ m.state.loop.queue kind)
    (completed : Bool) (kind : TaskKind) :
    [task].filter (·.kind = kind) ++ (after (execute task m)).state.loop.queue kind = start.queue kind ++
      Note.enqueued ⟨task, m.state.loop, (after (execute task m)).state.loop, completed⟩ kind := by
  obtain ⟨new, hqueue, -⟩ := he.queues task m kind
  have hdrop : Note.enqueued ⟨task, m.state.loop, (after (execute task m)).state.loop, completed⟩ kind = new := by
    change List.drop (m.state.loop.queue kind).length _ = new
    rw [hqueue, List.drop_left]
  rw [hdrop, hqueue, hstart, List.append_assoc]

theorem account_plain (he : Enqueues execute) (n : Nat) (m : Machine (ω × List Note)) (hm : m.state.loop.Sorted) :
    ∃ notes, (after (plain (noting execute) n m)).journal.2 = m.journal.2 ++ notes ∧
      plain (noting execute) n m = plain (noting execute) notes.length m ∧
      Account m.state.loop notes (plain (noting execute) n m) := by
  -- the machine is general: what is left is accounted for from where the first task has ended
  induction n generalizing m with
  | zero => exact ⟨[], (List.append_nil _).symm, rfl, account_nil m ()⟩
  | succ n ih =>
    cases hnext : m.state.loop.next? with
    | none =>
      rw [plain_succ_of_none hnext]
      exact ⟨[], (List.append_nil _).symm, rfl, account_nil m ()⟩
    | some taken =>
      obtain ⟨task, rest⟩ := taken
      obtain ⟨hrest, hfirst, hexecuted, hqueue⟩ := hm.next? hnext
      have hstart : ∀ kind, m.state.loop.queue kind = [task].filter (·.kind = kind) ++
          (running (m.withLoop rest).plainly task).state.loop.queue kind := fun kind ↦ by
        rw [hqueue]
        cases kind <;> rfl
      have hsorted : (running (m.withLoop rest).plainly task).state.loop.Sorted := fun kind ↦ by
        have hkind := hrest kind
        cases kind <;> exact hkind
      have hconserved := he.conserved task (running (m.withLoop rest).plainly task) hstart
      have hkept := he.executed task (running (m.withLoop rest).plainly task)
      have hafter := he.sorted task hsorted
      have hplain (k : Nat) : plain (noting execute) (k + 1) m =
          (runTask (noting execute) task >>= fun _ ↦ plain (noting execute) k) (m.withLoop rest) :=
        plain_succ_of_some hnext
      simp only [bind_apply, runTask_noting] at hplain
      -- a task that stops is the last call; otherwise its note comes before those of the rest
      cases hcall : execute task (running (m.withLoop rest).plainly task) with
      | error stop q =>
        simp only [hcall] at hplain
        rw [hplain n]
        rw [hcall] at hconserved hkept
        refine ⟨[_], rfl, (hplain 0).symm, Account.stopped hfirst (fun kind ↦ ?_) rfl rfl ?_⟩
        · have hkind := hconserved false kind
          cases kind <;> exact hkind
        · exact hkept.trans hexecuted
      | ok a q =>
        simp only [hcall] at hplain
        rw [hplain n]
        rw [hcall] at hconserved hkept hafter
        let note : Note := ⟨task, (running (m.withLoop rest) task).state.loop, q.state.loop, true⟩
        let next : Machine (ω × List Note) := (q.noted (m.journal.2 ++ [note])).withLoop
          { q.state.loop with current := none, executed := q.state.loop.executed + 1 }
        have hnextsorted : next.state.loop.Sorted := fun kind ↦ by
          have hkind := hafter kind
          cases kind <;> exact hkind
        obtain ⟨notes, hjournal, hlength, haccount⟩ := ih next hnextsorted
        refine ⟨note :: notes, ?_, hlength.trans (hplain notes.length).symm,
          haccount.cons hfirst (fun kind ↦ ?_) rfl ?_⟩
        · have hnotes : m.journal.2 ++ note :: notes = m.journal.2 ++ [note] ++ notes := by
            rw [List.append_assoc, List.singleton_append]
          exact hjournal.trans hnotes.symm
        · have hkind := hconserved true kind
          cases kind <;> exact hkind
        · exact congrArg (· + 1) (hkept.trans hexecuted)

theorem Account.finish {start : EventLoop} {notes : List Note} {x : Activity (ω × List Note) Unit}
    {m : Machine (ω × List Note)} (h : Account start notes (x m)) :
    Account start notes ((x >>= fun _ ↦ Activity.finish) m) := by
  rw [bind_apply]
  cases hx : x m with
  | error stop n =>
    rw [hx] at h
    exact ⟨h.microtasksFirst, h.conserved, h.ended⟩
  | ok a n =>
    rw [hx] at h
    refine ⟨h.microtasksFirst, fun kind ↦ ?_, h.ended⟩
    have hkind := h.conserved kind
    cases kind <;> exact hkind

theorem journal_finish (x : Activity ω Unit) (m : Machine ω) :
    (after ((x >>= fun _ ↦ Activity.finish) m)).journal = (after (x m)).journal := by
  rw [bind_apply]
  cases x m <;> rfl

theorem truncated_finish {x : Activity ω Unit} {m n : Machine ω} {truncated : Bool}
    (h : (x >>= fun _ ↦ Activity.finish) m = .ok truncated n) : truncated = !n.state.loop.isIdle := by
  rw [bind_apply] at h
  cases hx : x m with
  | error stop n => rw [hx] at h; cases h
  | ok a n => rw [hx] at h; cases h; rfl

theorem state_unnoted (r : EStateM.Result Stop (Machine (ω × List Note)) α) :
    (after (unnoted r)).state = (after r).state := by cases r <;> rfl

/-- A drain of the queues on a machine, with the calls of the callback noted down. -/
def notedDrain (execute : Task → Activity ω Unit) (ceiling : Int) (m : Machine ω) :
    EStateM.Result Stop (Machine (ω × List Note)) Bool := drain ceiling (noting execute) (m.noted [])

/-- The calls of the callback in a drain, in their order. -/
def calls (execute : Task → Activity ω Unit) (ceiling : Int) (m : Machine ω) : List Note :=
  (after (notedDrain execute ceiling m)).journal.2

/-- What holds of a drain, however it ends. -/
structure Drained (execute : Task → Activity ω Unit) (ceiling : Int) (m : Machine ω) : Prop where
  /-- it is the drain itself that is watched -/
  watched : unnoted (notedDrain execute ceiling m) = drain ceiling execute m
  /-- it does what the plain schedule does for as many tasks -/
  plainly : notedDrain execute ceiling m =
    (plain (noting execute) (calls execute ceiling m).length >>= fun _ ↦ finish) (m.noted [])
  /-- no macrotask has its turn while a microtask waits -/
  microtasksFirst : ∀ call ∈ calls execute ceiling m, call.task.kind = .macrotask → call.before.microtasks = []
  /-- the tasks carried out and the tasks left are those at the start and those enqueued -/
  conserved : ∀ kind, ((calls execute ceiling m).map Note.task).filter (·.kind = kind) ++
      (after (drain ceiling execute m)).state.loop.queue kind =
    m.state.loop.queue kind ++ (calls execute ceiling m).flatMap (·.enqueued kind)
  /-- at an end all calls count, and what is left is cut off -/
  ended : ∀ truncated n, drain ceiling execute m = .ok truncated n →
    (∀ call ∈ calls execute ceiling m, call.completed = true) ∧ truncated = !n.state.loop.isIdle ∧
      n.state.loop.executed = m.state.loop.executed + (calls execute ceiling m).length
  /-- at a stop the last call stopped, all others count and nothing is current -/
  stopped : ∀ stop n, drain ceiling execute m = .error stop n →
    ∃ earlier last, calls execute ceiling m = earlier ++ [last] ∧ (∀ call ∈ earlier, call.completed = true) ∧
      last.completed = false ∧ n.state.loop.current = none ∧
      n.state.loop.executed = m.state.loop.executed + earlier.length

theorem drained {execute : Task → Activity ω Unit} (he : Enqueues execute) (ceiling : Int) (m : Machine ω)
    (hm : m.state.loop.Sorted) : Drained execute ceiling m := by
  obtain ⟨n, hn⟩ := exists_drain_eq_plain ceiling (noting execute) (m.noted [])
  obtain ⟨notes, hjournal, hlength, haccount⟩ := account_plain he n (m.noted []) hm
  have hwatched : unnoted (notedDrain execute ceiling m) = drain ceiling execute m := unnoted_drain ceiling _
  have hplain : notedDrain execute ceiling m =
      (plain (noting execute) notes.length >>= fun _ ↦ finish) (m.noted []) := by
    rw [bind_apply, ← hlength]
    exact hn.trans (bind_apply _ _ _)
  have hcalls : calls execute ceiling m = notes := by
    unfold calls
    rw [hplain, journal_finish, ← hlength, hjournal]
    exact List.nil_append notes
  have hend : Account m.state.loop notes (notedDrain execute ceiling m) := by
    rw [hplain]
    exact Account.finish (hlength ▸ haccount)
  have hended := hend.ended
  refine ⟨hwatched, hcalls ▸ hplain, hcalls ▸ hend.microtasksFirst, fun kind ↦ ?_, fun truncated n hok ↦ ?_,
    fun stop n herror ↦ ?_⟩
  · rw [hcalls, ← hwatched, state_unnoted]
    exact hend.conserved kind
  · rw [← hwatched] at hok
    rw [hcalls]
    cases hr : notedDrain execute ceiling m with
    | error stop q => rw [hr] at hok; cases hok
    | ok b q =>
      rw [hr] at hok hended
      cases hok
      have htruncated : truncated = !q.state.loop.isIdle := truncated_finish (hplain.symm.trans hr)
      exact ⟨hended.1, htruncated, hended.2⟩
  · rw [← hwatched] at herror
    rw [hcalls]
    cases hr : notedDrain execute ceiling m with
    | ok b q => rw [hr] at herror; cases herror
    | error e q =>
      rw [hr] at herror hended
      cases herror
      exact hended

/-- A callback that puts a macrotask behind each microtask and does not end on a macrotask. -/
def relay (task : Task) : Activity Unit Unit :=
  match task.kind with
  | .microtask => do
    let _ ← Engine.schedule .macrotask task.description task.job task.line
  | .macrotask => throw (.fault .incompleteTree)

theorem enqueues_relay : Enqueues relay := by
  have hmicro (task : Task) (m : Machine Unit) (h : task.kind = .microtask) : relay task m =
      ((liftM (Engine.schedule .macrotask task.description task.job task.line) : Activity Unit Task) >>= fun _ ↦
        pure ()) m := by
    unfold relay
    rw [h]
  have hmacros (task : Task) (m : Machine Unit) (h : task.kind = .macrotask) :
      relay task m = .error (.fault .incompleteTree) m := by
    unfold relay
    rw [h]
    rfl
  refine ⟨fun task m kind ↦ ?_, fun task m ↦ ?_⟩ <;> cases h : task.kind
  · rw [hmicro task m h]
    cases kind with
    | microtask => exact ⟨[], (List.append_nil _).symm, fun _ ht ↦ absurd ht List.not_mem_nil⟩
    | macrotask => exact ⟨[_], rfl, List.forall_mem_singleton.mpr rfl⟩
  · rw [hmacros task m h]
    exact ⟨[], (List.append_nil _).symm, fun _ ht ↦ absurd ht List.not_mem_nil⟩
  · rw [hmicro task m h]
    rfl
  · rw [hmacros task m h]
    rfl

/-- A machine with one microtask and one macrotask waiting. -/
def waiting : Machine Unit where
  state := { loop := {
    microtasks := [⟨1, .microtask, "first", .fetched (.promise 0) [], 1, 0⟩]
    macrotasks := [⟨2, .macrotask, "second", .fetched (.promise 0) [], 2, 0⟩] } }
  journal := ()

theorem sorted_waiting : waiting.state.loop.Sorted := fun kind ↦ by
  cases kind <;> exact List.forall_mem_singleton.mpr rfl

theorem drained_relay : Enqueues relay ∧ waiting.state.loop.Sorted ∧ Drained relay 3 waiting :=
  ⟨enqueues_relay, sorted_waiting, drained enqueues_relay 3 waiting sorted_waiting⟩

end Activity

end Stepwise
