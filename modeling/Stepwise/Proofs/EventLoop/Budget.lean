import Stepwise.Proofs.EventLoop.Ceiling
import Stepwise.Proofs.EventLoop.Conservation
import Mathlib.Tactic.Ring
/-!
What a drain costs, and when it gives up. A callback that always ends may enqueue as much as it
likes: the passes bound the macrotasks, the budget bounds each row of microtasks, and tasks are left
only when one of the two is used up.
-/

namespace Stepwise.Activity

variable {ω : Type} {execute : Task → Activity ω Unit} {m n k : Machine (ω × List Note)}

/-- A callback that always ends, and that puts tasks into no queue but the one of their kind. -/
structure Completes (execute : Task → Activity ω Unit) : Prop where
  ends : ∀ task m, ∃ n, execute task m = .ok () n
  sorted : ∀ task m, m.state.loop.Sorted → (after (execute task m)).state.loop.Sorted

/-- The calls that lead from one machine to another one in the plain order. -/
structure Stretch (execute : Task → Activity ω Unit) (m : Machine (ω × List Note)) (notes : List Note)
    (n : Machine (ω × List Note)) : Prop where
  plainly : plain (noting execute) notes.length m = .ok () n
  noted : n.journal.2 = m.journal.2 ++ notes
  sorted : n.state.loop.Sorted

theorem Stretch.refl (hm : m.state.loop.Sorted) : Stretch execute m [] m := ⟨rfl, (List.append_nil _).symm, hm⟩

theorem Stretch.trans {first second : List Note} (h : Stretch execute m first n) (h' : Stretch execute n second k) :
    Stretch execute m (first ++ second) k where
  plainly := by
    rw [List.length_append, plain_add, bind_apply, h.plainly]
    exact h'.plainly
  noted := by rw [h'.noted, h.noted, List.append_assoc]
  sorted := h'.sorted

/-- The task whose turn it is makes one call. -/
theorem Completes.stretch (he : Completes execute) (hm : m.state.loop.Sorted) {task : Task} {rest : EventLoop}
    (hnext : m.state.loop.next? = some (task, rest)) : ∃ note n, note.task = task ∧
      runTask (noting execute) task (m.withLoop rest) = .ok () n ∧ Stretch execute m [note] n := by
  obtain ⟨q, hcall⟩ := he.ends task (running (m.withLoop rest).plainly task)
  have hrunning : (running (m.withLoop rest).plainly task).state.loop.Sorted := fun kind ↦ by
    have hkind := (hm.next? hnext).1 kind
    cases kind <;> exact hkind
  have hafter := he.sorted task _ hrunning
  have hrun : runTask (noting execute) task (m.withLoop rest) = _ := runTask_noting task (m.withLoop rest)
  rw [hcall] at hafter hrun
  refine ⟨_, _, ?_, hrun, ?_, rfl, fun kind ↦ ?_⟩
  · rfl
  · rw [List.length_singleton, plain_succ_of_some hnext, bind_apply, hrun]
    rfl
  · have hkind := hafter kind
    cases kind <;> exact hkind

/-- Microtasks in a row, as many as the budget allows or until none is left. -/
structure Row (execute : Task → Activity ω Unit) (budget : Nat) (m : Machine (ω × List Note)) (row : List Note)
    (n : Machine (ω × List Note)) : Prop where
  drains : drainMicrotasks (noting execute) budget m = .ok n.state.loop.microtasks.isEmpty n
  stretch : Stretch execute m row n
  kind : ∀ note ∈ row, note.task.kind = .microtask
  length_le : row.length ≤ budget
  length_eq : n.state.loop.microtasks ≠ [] → row.length = budget

theorem Row.of_nil {budget : Nat} (hm : m.state.loop.Sorted) (h : m.state.loop.microtasks = []) :
    Row execute budget m [] m where
  drains := by rw [drainMicrotasks_of_nil budget h, h]; rfl
  stretch := .refl hm
  kind := fun _ h ↦ absurd h List.not_mem_nil
  length_le := Nat.zero_le _
  length_eq := (absurd h ·)

theorem Completes.row (he : Completes execute) (budget : Nat) (hm : m.state.loop.Sorted) :
    ∃ row n, Row execute budget m row n := by
  induction budget generalizing m with
  | zero => exact ⟨[], m, rfl, .refl hm, fun _ h ↦ absurd h List.not_mem_nil, Nat.le_refl _, fun _ ↦ rfl⟩
  | succ budget ih =>
    cases h : m.state.loop.microtasks with
    | nil => exact ⟨[], m, .of_nil hm h⟩
    | cons task rest =>
      have hnext : m.state.loop.next? = some (task, { m.state.loop with microtasks := rest }) := by
        simp only [EventLoop.next?, h]
      have hkind : task.kind = .microtask := hm .microtask task (by rw [EventLoop.queue, h]; exact List.mem_cons_self)
      obtain ⟨note, k, hnote, hrun, hcall⟩ := he.stretch hm hnext
      obtain ⟨row, n, hrow⟩ := ih hcall.sorted
      refine ⟨note :: row, n, ?_, hcall.trans hrow.stretch, ?_, ?_, fun hn ↦ ?_⟩
      · rw [drainMicrotasks_of_cons h, bind_apply, hrun]
        exact hrow.drains
      · exact List.forall_mem_cons.mpr ⟨hnote ▸ hkind, hrow.kind⟩
      · exact Nat.succ_le_succ hrow.length_le
      · exact congrArg (· + 1) (hrow.length_eq hn)

theorem Row.eq_nil {budget : Nat} {row : List Note} (h : Row execute budget m row n)
    (hm : m.state.loop.microtasks = []) : row = [] := by
  have hdrains := h.drains
  rw [drainMicrotasks_of_nil budget hm] at hdrains
  obtain ⟨-, rfl⟩ := EStateM.Result.ok.inj hdrains
  simpa using h.stretch.noted

/-- The last calls before a machine are one row of microtasks that used up the budget. -/
def Spent (execute : Task → Activity ω Unit) (budget : Nat) (m : Machine (ω × List Note)) (notes : List Note)
    (n : Machine (ω × List Note)) : Prop :=
  ∃ earlier last start, notes = earlier ++ last ∧ plain (noting execute) earlier.length m = .ok () start ∧
    drainMicrotasks (noting execute) budget start = .ok false n ∧ last.length = budget ∧
    ∀ call ∈ last, call.task.kind = .microtask

theorem Row.spent {budget : Nat} {row : List Note} (h : Row execute budget m row n)
    (hn : n.state.loop.microtasks ≠ []) : Spent execute budget m row n := by
  have hdrains := h.drains
  rw [List.isEmpty_eq_false_iff.mpr hn] at hdrains
  exact ⟨[], row, m, rfl, rfl, hdrains, h.length_eq hn, h.kind⟩

theorem Spent.after {budget : Nat} {first second : List Note} (h : Stretch execute m first n)
    (h' : Spent execute budget n second k) : Spent execute budget m (first ++ second) k := by
  obtain ⟨earlier, last, start, rfl, hplain, hdrain, hlast⟩ := h'
  refine ⟨first ++ earlier, last, start, (List.append_assoc _ _ _).symm, ?_, hdrain, hlast⟩
  rw [List.length_append, plain_add, bind_apply, h.plainly]
  exact hplain

/-- A macrotask and the microtasks in a row behind it. -/
structure Round where
  macrotask : Note
  row : List Note

def Round.calls (round : Round) : List Note := round.macrotask :: round.row

structure Round.Within (budget : Nat) (round : Round) : Prop where
  macrotask : round.macrotask.task.kind = .macrotask
  microtasks : ∀ note ∈ round.row, note.task.kind = .microtask
  length_le : round.row.length ≤ budget

/-- The calls of some passes: a row of microtasks and the rounds behind it. -/
structure Passed (execute : Task → Activity ω Unit) (budget passes : Nat) (m : Machine (ω × List Note))
    (row : List Note) (rounds : List Round) (n : Machine (ω × List Note)) : Prop where
  stretch : Stretch execute m (row ++ rounds.flatMap Round.calls) n
  microtasks : ∀ note ∈ row, note.task.kind = .microtask
  row_length_le : row.length ≤ budget
  within : ∀ round ∈ rounds, round.Within budget
  rounds_length_le : rounds.length ≤ passes
  /-- what is left is left because the passes or a budget is used up -/
  left : n.state.loop.isIdle = false →
    rounds.length = passes ∨ Spent execute budget m (row ++ rounds.flatMap Round.calls) n

namespace Passed

variable {budget passes : Nat} {row : List Note} {rounds : List Round}

theorem nil (hm : m.state.loop.Sorted) (hleft : m.state.loop.isIdle = false → passes = 0) :
    Passed execute budget passes m [] [] m where
  stretch := .refl hm
  microtasks := fun _ h ↦ absurd h List.not_mem_nil
  row_length_le := Nat.zero_le _
  within := fun _ h ↦ absurd h List.not_mem_nil
  rounds_length_le := Nat.zero_le _
  left hidle := .inl (hleft hidle).symm

/-- A budget that is used up ends the passes, however many there are. -/
theorem spent (h : Row execute budget m row n) (hn : n.state.loop.microtasks ≠ []) :
    Passed execute budget passes m row [] n where
  stretch := by simpa using h.stretch
  microtasks := h.kind
  row_length_le := h.length_le
  within := fun _ h ↦ absurd h List.not_mem_nil
  rounds_length_le := Nat.zero_le _
  left _ := .inr (by simpa using h.spent hn)

/-- Behind a row that leaves no microtask rounds may follow. -/
theorem behind (h : Row execute budget m row n) (h' : Passed execute budget passes n [] rounds k) :
    Passed execute budget passes m row rounds k where
  stretch := h.stretch.trans h'.stretch
  microtasks := h.kind
  row_length_le := h.length_le
  within := h'.within
  rounds_length_le := h'.rounds_length_le
  left hk := (h'.left hk).imp_right (·.after h.stretch)

/-- A macrotask makes what follows it into a round, and that takes one pass. -/
theorem round {note : Note} (h : Stretch execute m [note] n) (hnote : note.task.kind = .macrotask)
    (h' : Passed execute budget passes n row rounds k) :
    Passed execute budget (passes + 1) m [] (⟨note, row⟩ :: rounds) k where
  stretch := h.trans h'.stretch
  microtasks := fun _ h ↦ absurd h List.not_mem_nil
  row_length_le := Nat.zero_le _
  within := List.forall_mem_cons.mpr ⟨⟨hnote, h'.microtasks, h'.row_length_le⟩, h'.within⟩
  rounds_length_le := Nat.succ_le_succ h'.rounds_length_le
  left hk := (h'.left hk).imp (congrArg (· + 1)) fun hspent ↦ by
    have hspent := hspent.after h
    exact hspent

end Passed

theorem drainPasses_of_isIdle (budget passes : Nat) {m : Machine ω} (h : m.state.loop.isIdle) :
    drainPasses execute budget passes m = .ok () m := by
  cases passes with
  | zero => rfl
  | succ passes =>
    have hloop : (getLoop : Activity ω EventLoop) m = .ok m.state.loop m := rfl
    rw [drainPasses_succ, bind_apply, hloop]
    dsimp only
    rw [h]
    rfl

theorem passOn_of_cons {budget passes : Nat} {task : Task} {rest : List Task} {m : Machine ω}
    (h : m.state.loop.macrotasks = task :: rest) : passOn execute budget passes m =
      (runTask execute task >>= fun _ ↦ drainMicrotasks execute budget >>= fun empty ↦
        if !empty then pure () else drainPasses execute budget passes)
        (m.withLoop { m.state.loop with macrotasks := rest }) := by
  have hloop : (getLoop : Activity ω EventLoop) m = .ok m.state.loop m := rfl
  rw [passOn, bind_apply, hloop]
  dsimp only
  rw [h]
  rfl

theorem passOn_of_nil {budget passes : Nat} {m : Machine ω} (h : m.state.loop.macrotasks = []) :
    passOn execute budget passes m = drainPasses execute budget passes m := by
  have hloop : (getLoop : Activity ω EventLoop) m = .ok m.state.loop m := rfl
  rw [passOn, bind_apply, hloop]
  dsimp only
  rw [h]

/-- The rest of a pass behind its first row: a round, if there is a macrotask, and the passes that
follow. -/
theorem Completes.passOn (he : Completes execute) {budget passes : Nat} (hm : m.state.loop.Sorted)
    (hempty : m.state.loop.microtasks = [])
    (hpasses : ∀ n, n.state.loop.Sorted → n.state.loop.microtasks = [] → ∃ rounds k,
      drainPasses (noting execute) budget passes n = .ok () k ∧ Passed execute budget passes n [] rounds k) :
    ∃ rounds k, Activity.passOn (noting execute) budget passes m = .ok () k ∧
      Passed execute budget (passes + 1) m [] rounds k := by
  cases h : m.state.loop.macrotasks with
  | nil =>
    have hidle : m.state.loop.isIdle := EventLoop.next?_eq_none.mp (by simp only [EventLoop.next?, hempty, h])
    refine ⟨[], m, ?_, .nil hm fun hleft ↦ absurd (hidle.symm.trans hleft) (by decide)⟩
    rw [passOn_of_nil h, drainPasses_of_isIdle budget passes hidle]
  | cons task rest =>
    have hnext : m.state.loop.next? = some (task, { m.state.loop with macrotasks := rest }) := by
      simp only [EventLoop.next?, hempty, h]
    have hkind : task.kind = .macrotask := hm .macrotask task (by rw [EventLoop.queue, h]; exact List.mem_cons_self)
    obtain ⟨note, n, rfl, hrun, hcall⟩ := he.stretch hm hnext
    obtain ⟨row, k, hrow⟩ := he.row budget hcall.sorted
    rw [passOn_of_cons h, bind_apply, hrun]
    dsimp only
    rw [bind_apply, hrow.drains]
    cases hk : k.state.loop.microtasks with
    | cons => exact ⟨_, k, rfl, .round hcall hkind (.spent hrow (by rw [hk]; exact List.cons_ne_nil _ _))⟩
    | nil =>
      obtain ⟨rounds, q, hends, hpassed⟩ := hpasses k hrow.stretch.sorted hk
      exact ⟨_, q, hends, .round hcall hkind (.behind hrow hpassed)⟩

theorem Completes.passes (he : Completes execute) (budget passes : Nat) (hm : m.state.loop.Sorted) :
    ∃ row rounds k, drainPasses (noting execute) budget passes m = .ok () k ∧
      Passed execute budget passes m row rounds k ∧ (m.state.loop.microtasks = [] → row = []) := by
  induction passes generalizing m with
  | zero => exact ⟨[], [], m, rfl, .nil hm fun _ ↦ rfl, fun _ ↦ rfl⟩
  | succ passes ih =>
    cases hidle : m.state.loop.isIdle with
    | true =>
      exact ⟨[], [], m, drainPasses_of_isIdle budget _ hidle,
        .nil hm fun hleft ↦ absurd (hidle.symm.trans hleft) (by decide), fun _ ↦ rfl⟩
    | false =>
      obtain ⟨row, n, hrow⟩ := he.row budget hm
      have hloop : (getLoop : Activity (ω × List Note) EventLoop) m = .ok m.state.loop m := rfl
      rw [drainPasses_succ, bind_apply, hloop]
      dsimp only
      rw [hidle, if_neg Bool.false_ne_true, bind_apply, hrow.drains]
      cases hn : n.state.loop.microtasks with
      | cons =>
        exact ⟨row, [], n, rfl, .spent hrow (by rw [hn]; exact List.cons_ne_nil _ _), hrow.eq_nil⟩
      | nil =>
        have hrest : ∀ n, n.state.loop.Sorted → n.state.loop.microtasks = [] → ∃ rounds k,
            drainPasses (noting execute) budget passes n = .ok () k ∧
              Passed execute budget passes n [] rounds k := fun n hsorted hempty ↦ by
          obtain ⟨row, rounds, k, hends, hpassed, hrow⟩ := ih hsorted
          exact ⟨rounds, k, hends, hrow hempty ▸ hpassed⟩
        obtain ⟨rounds, k, hends, hpassed⟩ := he.passOn hrow.stretch.sorted hn hrest
        exact ⟨row, rounds, k, hends, .behind hrow hpassed, hrow.eq_nil⟩

/-- The macrotasks among some calls. -/
def macrotasks (notes : List Note) : List Note := notes.filter (·.task.kind = .macrotask)

theorem macrotasks_eq_nil {row : List Note} (h : ∀ note ∈ row, note.task.kind = .microtask) : macrotasks row = [] := by
  refine List.filter_eq_nil_iff.mpr fun note hnote ↦ ?_
  rw [h note hnote]
  decide

theorem macrotasks_append (first second : List Note) :
    macrotasks (first ++ second) = macrotasks first ++ macrotasks second := List.filter_append ..

theorem Round.Within.macrotasks_calls {budget : Nat} {round : Round} (h : round.Within budget) :
    macrotasks round.calls = [round.macrotask] := by
  have hrow : macrotasks round.row = [] := macrotasks_eq_nil h.microtasks
  unfold macrotasks at hrow ⊢
  rw [Round.calls, List.filter_cons_of_pos (by rw [h.macrotask]; decide), hrow]

theorem infix_or_infix_of_notMem {α : Type} {a : α} {part front back : List α} (ha : a ∉ part)
    (h : part <:+: front ++ a :: back) : part <:+: front ∨ part <:+: back := by
  have hpart (front : List α) (h : part <+: front ++ a :: back) : part <+: front := by
    have hmid : front ++ [a] <+: front ++ a :: back := ⟨back, by simp⟩
    rcases List.prefix_or_prefix_of_prefix h hmid with hunder | hover
    · refine (List.prefix_concat_iff.mp hunder).resolve_left fun hall ↦ ha ?_
      rw [hall]
      exact List.mem_append_right _ List.mem_cons_self
    · exact absurd (hover.subset (List.mem_append_right _ List.mem_cons_self)) ha
  obtain ⟨earlier, later, heq⟩ := h
  rw [List.append_assoc] at heq
  rcases List.append_eq_append_iff.mp heq with ⟨rest, rfl, hrest⟩ | ⟨rest, rfl, hrest⟩
  · exact .inl ((hpart _ ⟨later, hrest⟩).isInfix.trans (List.suffix_append earlier rest).isInfix)
  · cases rest with
    | nil => exact .inl ((hpart [] ⟨later, hrest.symm⟩).isInfix.trans List.nil_infix)
    | cons b rest =>
      obtain ⟨-, rfl⟩ := List.cons.inj hrest
      exact .inr ⟨rest, later, List.append_assoc ..⟩

namespace Passed

variable {budget passes : Nat} {row : List Note} {rounds : List Round}

theorem length_macrotasks (h : Passed execute budget passes m row rounds n) :
    (macrotasks (row ++ rounds.flatMap Round.calls)).length = rounds.length := by
  rw [macrotasks_append, macrotasks_eq_nil h.microtasks, List.nil_append]
  have hwithin := h.within
  clear h
  induction rounds with
  | nil => rfl
  | cons round rounds ih =>
    obtain ⟨hround, hrounds⟩ := List.forall_mem_cons.mp hwithin
    rw [List.flatMap_cons, macrotasks_append, hround.macrotasks_calls, List.length_append, ih hrounds,
      List.length_singleton, List.length_cons, Nat.add_comm]

theorem length_rounds_le (h : ∀ round ∈ rounds, round.Within budget) :
    (rounds.flatMap Round.calls).length ≤ rounds.length * (budget + 1) := by
  induction rounds with
  | nil => exact Nat.zero_le _
  | cons round rounds ih =>
    obtain ⟨hround, hrounds⟩ := List.forall_mem_cons.mp h
    have hlength := hround.length_le
    have hmore := ih hrounds
    rw [List.flatMap_cons, List.length_append, List.length_cons, Nat.succ_mul, Round.calls, List.length_cons]
    omega

theorem length_le (h : Passed execute budget passes m row rounds n) :
    (row ++ rounds.flatMap Round.calls).length ≤ budget + passes * (budget + 1) := by
  have hrounds := length_rounds_le h.within
  have hpasses := Nat.mul_le_mul_right (budget + 1) h.rounds_length_le
  have hrow := h.row_length_le
  rw [List.length_append]
  omega

/-- Macrotasks stand between the rows, so that microtasks one behind the other are of one row. -/
theorem length_infix_le {part : List Note} (hrow : row.length ≤ budget) (hrounds : ∀ round ∈ rounds, round.Within budget)
    (hpart : part <:+: row ++ rounds.flatMap Round.calls) (hkind : ∀ note ∈ part, note.task.kind = .microtask) :
    part.length ≤ budget := by
  induction rounds generalizing row with
  | nil =>
    rw [List.flatMap_nil, List.append_nil] at hpart
    exact hpart.length_le.trans hrow
  | cons round rounds ih =>
    obtain ⟨hround, hrounds⟩ := List.forall_mem_cons.mp hrounds
    have hnot : round.macrotask ∉ part := fun hmem ↦ by
      have hmicro := hkind _ hmem
      rw [hround.macrotask] at hmicro
      cases hmicro
    rcases infix_or_infix_of_notMem hnot hpart with hpart | hpart
    · exact hpart.length_le.trans hrow
    · exact ih hround.length_le hrounds hpart

end Passed

/-- What a drain costs and when it gives up, if the callback always ends. -/
structure Budgeted (execute : Task → Activity ω Unit) (ceiling : Int) (m : Machine ω) : Prop where
  /-- it is the drain itself that is watched -/
  watched : unnoted (notedDrain execute ceiling m) = drain ceiling execute m
  /-- it ends, and says that it was cut off where tasks are left -/
  ends : ∃ n, drain ceiling execute m = .ok (!n.state.loop.isIdle) n ∧ n.state.loop.truncated = !n.state.loop.isIdle
  length_le : (calls execute ceiling m).length ≤ ceiling.toNat * (ceiling.toNat + 2)
  calls_eq_nil : ceiling ≤ 0 → calls execute ceiling m = []
  macrotasks_le : (macrotasks (calls execute ceiling m)).length ≤ ceiling.toNat
  /-- microtasks one behind the other are no more than the ceiling -/
  row_le : ∀ row, row <:+: calls execute ceiling m → (∀ call ∈ row, call.task.kind = .microtask) →
    row.length ≤ ceiling.toNat
  /-- it is cut off only when as many macrotasks have had their turn, or when as many microtasks of
  one drain of theirs were the last calls -/
  cutOff : ∀ n, drain ceiling execute m = .ok true n →
    (macrotasks (calls execute ceiling m)).length = ceiling.toNat ∨
    ∃ earlier last start left, calls execute ceiling m = earlier ++ last ∧
      plain (noting execute) earlier.length (m.noted []) = .ok () start ∧
      drainMicrotasks (noting execute) ceiling.toNat start = .ok false left ∧
      notedDrain execute ceiling m = finish left ∧
      last.length = ceiling.toNat ∧ ∀ call ∈ last, call.task.kind = .microtask

theorem Completes.budgeted (he : Completes execute) (ceiling : Int) (m : Machine ω) (hm : m.state.loop.Sorted) :
    Budgeted execute ceiling m := by
  have hnoted : (m.noted []).state.loop.Sorted := hm
  obtain ⟨row, rounds, k, hends, hpassed, -⟩ := he.passes ceiling.toNat ceiling.toNat hnoted
  have hwatched : unnoted (notedDrain execute ceiling m) = drain ceiling execute m := unnoted_drain ceiling _
  have hdrain : notedDrain execute ceiling m = finish k := by
    rw [notedDrain, drain_eq, bind_apply, hends]
  have hcalls : calls execute ceiling m = row ++ rounds.flatMap Round.calls := by
    rw [calls, hdrain]
    exact hpassed.stretch.noted
  have hlength : (calls execute ceiling m).length ≤ ceiling.toNat * (ceiling.toNat + 2) := by
    refine (hcalls ▸ hpassed.length_le).trans (Nat.le_of_eq ?_)
    ring
  rw [hdrain] at hwatched
  have hok : drain ceiling execute m = .ok (!k.state.loop.isIdle) (after (finish k)).plainly := hwatched.symm
  refine ⟨unnoted_drain ceiling _, ⟨(after (finish k)).plainly, hok, rfl⟩, hlength, fun hceiling ↦ ?_, ?_,
    fun part hpart hkind ↦ ?_, fun n hn ↦ ?_⟩
  · rw [Int.toNat_of_nonpos hceiling, Nat.zero_mul] at hlength
    exact List.length_eq_zero_iff.mp (Nat.le_zero.mp hlength)
  · rw [hcalls, hpassed.length_macrotasks]
    exact hpassed.rounds_length_le
  · exact Passed.length_infix_le hpassed.row_length_le hpassed.within (hcalls ▸ hpart) hkind
  · obtain ⟨hidle, -⟩ := EStateM.Result.ok.inj (hok.symm.trans hn)
    rw [hcalls]
    refine (hpassed.left (Bool.not_eq_true' _ ▸ hidle)).imp (fun hrounds ↦ hpassed.length_macrotasks.trans hrounds) ?_
    rintro ⟨earlier, last, start, hsplit, hplain, hleft, hlast⟩
    exact ⟨earlier, last, start, k, hsplit, hplain, hleft, hdrain, hlast⟩

/-- A callback that puts a task of each kind into the queues whatever it is called for. -/
def breeding (task : Task) : Activity Unit Unit := do
  let _ ← Engine.schedule .microtask task.description task.job task.line
  let _ ← Engine.schedule .macrotask task.description task.job task.line

theorem completes_breeding : Completes breeding where
  ends task m := ⟨_, rfl⟩
  sorted task m hm kind t ht := by
    cases kind with
    | microtask =>
      rcases List.mem_append.mp ht with ht | ht
      · exact hm .microtask t ht
      · rw [List.mem_singleton.mp ht]
    | macrotask =>
      rcases List.mem_append.mp ht with ht | ht
      · exact hm .macrotask t ht
      · rw [List.mem_singleton.mp ht]

theorem budgeted_breeding : Completes breeding ∧ waiting.state.loop.Sorted ∧ Budgeted breeding 3 waiting :=
  ⟨completes_breeding, sorted_waiting, completes_breeding.budgeted 3 waiting sorted_waiting⟩

example : (calls breeding 3 waiting).map (·.task.kind) = [.microtask, .microtask, .microtask] := by decide +kernel

end Stepwise.Activity
