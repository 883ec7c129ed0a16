import Stepwise.Proofs.State.Edit
/-!
The numbers in a state. None is higher than the last one handed out, so that the next one is new to
scopes, calls, tasks, messages and addresses alike, and whatever bears a number keeps it for itself.
-/

namespace Stepwise

/-- One task was made, and took its place, before another. -/
def Task.Earlier (task other : Task) : Prop := task.id < other.id ∧ task.order < other.order

/-- A scope that is still the one it was, whatever it has come to bind. -/
structure Scope.Remains (old scope : Scope) : Prop where
  id : scope.id = old.id
  kind : scope.kind = old.kind
  name : scope.name = old.name
  parent : scope.parent = old.parent
  bindings : old.bindings.keys <+: scope.bindings.keys

theorem Scope.Remains.refl (scope : Scope) : scope.Remains scope := ⟨rfl, rfl, rfl, rfl, List.prefix_refl _⟩

theorem Scope.Remains.trans {a b c : Scope} (h : a.Remains b) (h' : b.Remains c) : a.Remains c :=
  ⟨h'.id.trans h.id, h'.kind.trans h.kind, h'.name.trans h.name, h'.parent.trans h.parent, h.bindings.trans h'.bindings⟩

namespace State

/-- No number is ahead of the counter that it comes from. Queues are in the order in which their tasks were made, and
the scope of a call has the number behind that of the call. -/
structure Numbered (s : State) : Prop where
  bearers : ∀ b ∈ s.bearers, b.number ≤ s.lastId
  orders : ∀ task ∈ s.tasks, task.order ≤ s.loop.scheduled
  microtasks : s.loop.microtasks.Pairwise Task.Earlier
  macrotasks : s.loop.macrotasks.Pairwise Task.Earlier
  frames : ∀ frame ∈ s.frames, frame.scope = some (frame.id + 1)

variable {s t u : State} {new : List Bearer} {id : Nat}

namespace Numbered

theorem le_of_mem_scopeIds (h : s.Numbered) (hid : id ∈ s.scopeIds) : id ≤ s.lastId := by
  obtain ⟨scope, hscope, rfl⟩ := List.mem_map.mp hid
  refine h.bearers (.scope scope.id) ?_
  simp only [State.bearers, List.mem_append]
  exact .inl (.inl (.inl (.inl (List.mem_map.mpr ⟨scope, hscope, rfl⟩))))

theorem le_of_mem_tasks (h : s.Numbered) {task : Task} (htask : task ∈ s.tasks) : task.id ≤ s.lastId := by
  refine h.bearers (.task task.id) ?_
  simp only [State.bearers, List.mem_append]
  exact .inl (.inl (.inr (List.mem_map.mpr ⟨task, htask, rfl⟩)))

theorem le_of_mem_keys (h : s.Numbered) {address : Address} (ha : address ∈ s.heap.keys ++ s.promises.keys) :
    address.number ≤ s.lastId := by
  refine h.bearers (.stored address) ?_
  simp only [State.bearers, List.mem_append]
  exact .inr (List.mem_map_of_mem ha)

/-- The next number is new to what is stored and to promises. -/
theorem heap_get?_eq_none (h : s.Numbered) {address : Address} (ha : s.lastId < address.number) :
    s.heap.get? address = none := by
  rw [Dict.get?_eq_none_iff]
  intro hmem
  have hle := h.le_of_mem_keys (List.mem_append_left _ hmem)
  omega

theorem promises_get?_eq_none (h : s.Numbered) {address : Address} (ha : s.lastId < address.number) :
    s.promises.get? address = none := by
  rw [Dict.get?_eq_none_iff]
  intro hmem
  have hle := h.le_of_mem_keys (List.mem_append_right _ hmem)
  omega

/-- A queue stays in order when the task made last joins it. -/
theorem pairwise_append (h : s.Numbered) {task : Task} {queue : List Task} (hqueue : queue.Pairwise Task.Earlier)
    (hsub : queue ⊆ s.tasks) (hid : task.id = s.lastId + 1) (horder : task.order = s.loop.scheduled + 1) :
    (queue ++ [task]).Pairwise Task.Earlier := by
  refine List.pairwise_append.mpr ⟨hqueue, List.pairwise_singleton _ _, fun old hold new hnew ↦ ?_⟩
  obtain rfl := List.mem_singleton.mp hnew
  have hle := h.le_of_mem_tasks (hsub hold)
  have horders := h.orders old (hsub hold)
  constructor <;> omega

end Numbered

/-- Every scope is still there, whatever it has come to bind. -/
def Retains (s t : State) : Prop :=
  ∀ id old, s.scope? id = some old → ∃ scope, t.scope? id = some scope ∧ old.Remains scope

theorem Retains.of_scopes_eq (h : t.scopes = s.scopes) : s.Retains t := fun id old hold ↦
  ⟨old, by rw [scope?, h]; exact hold, .refl old⟩

theorem Retains.trans (h : s.Retains t) (h' : t.Retains u) : s.Retains u := by
  intro id old hold
  obtain ⟨middle, hmiddle, hremains⟩ := h id old hold
  obtain ⟨scope, hscope, hremains'⟩ := h' id middle hmiddle
  exact ⟨scope, hscope, hremains.trans hremains'⟩

theorem retains_bind (s : State) (scope : Scope) (name : String) (v : Value) : s.Retains (s.bind scope name v) := by
  intro id old hold
  rw [scope?_bind, hold]
  refine ⟨_, rfl, ?_⟩
  dsimp only
  split
  · exact ⟨rfl, rfl, rfl, rfl, old.bindings.keys_prefix_keys_set name v⟩
  · exact .refl old

theorem retains_openScope (rest : List Nat) (frames : List Frame) (hs : s.Numbered) (hid : s.lastId < scope.id) :
    s.Retains (s.openScope scope rest frames) := by
  intro id old hold
  have hmem : id ∈ s.scopeIds := List.mem_map.mpr ⟨old, List.mem_of_find?_eq_some hold, id_of_scope? hold⟩
  have hle := hs.le_of_mem_scopeIds hmem
  rw [scope?_openScope, if_neg (by omega)]
  exact ⟨old, hold, .refl old⟩

namespace Edit

theorem numbered (h : s.Edit new t) (hs : s.Numbered) : t.Numbered := by
  -- which numbers are given out is known of every kind of step at once
  have hbearers : ∀ b ∈ t.bearers, b.number ≤ t.lastId := by
    intro b hb
    rw [h.lastId]
    rcases List.mem_append.mp (h.bearers.subset hb) with hb | hb
    · exact Nat.le_add_right_of_le (hs.bearers b hb)
    · have hnumber := List.mem_map_of_mem (f := Bearer.number) hb
      rw [h.numbers, List.mem_range'_1] at hnumber
      omega
  cases h with
  | binds =>
    rw [bind_eq] at hbearers ⊢
    exact { hs with bearers := hbearers }
  | enters hframe hid hscope =>
    refine { hs with bearers := hbearers, frames := List.forall_mem_cons.mpr ⟨?_, hs.frames⟩ }
    rw [hscope, hid, hframe]
  | closes hchain hframes =>
    exact { hs with bearers := hbearers, frames := fun frame hframe ↦ hs.frames frame (hframes.subset hframe) }
  | keepsLocals hframes =>
    obtain ⟨hframe, hothers⟩ := List.forall_mem_cons.mp (hframes ▸ hs.frames)
    exact { hs with bearers := hbearers, frames := List.forall_mem_cons.mpr ⟨hframe, hothers⟩ }
  | @schedules task hid horder hvs =>
    refine { hs with bearers := hbearers, orders := fun other hother ↦ ?_, microtasks := ?_, macrotasks := ?_ }
    · change other.order ≤ s.loop.scheduled + 1
      rcases mem_tasks_of_enqueue hother with hother | rfl
      · exact Nat.le_succ_of_le (hs.orders other hother)
      · exact horder.le
    · cases hkind : task.kind with
      | microtask =>
        simp only [EventLoop.enqueue, hkind]
        exact hs.pairwise_append hs.microtasks (fun _ ↦ mem_tasks_of_mem_microtasks) hid horder
      | macrotask =>
        simp only [EventLoop.enqueue, hkind]
        exact hs.microtasks
    · cases hkind : task.kind with
      | microtask =>
        simp only [EventLoop.enqueue, hkind]
        exact hs.macrotasks
      | macrotask =>
        simp only [EventLoop.enqueue, hkind]
        exact hs.pairwise_append hs.macrotasks (fun _ ↦ mem_tasks_of_mem_macrotasks) hid horder
  | @starts task loop htakes =>
    have htasks := (tasks_start htakes).subset
    obtain ⟨rest, hqueue, rfl⟩ | ⟨rest, hqueue, rfl⟩ := htakes
    · exact { hs with bearers := hbearers, orders := fun other hother ↦ hs.orders other (htasks hother),
                      microtasks := (List.pairwise_cons.mp (hqueue ▸ hs.microtasks)).2 }
    · exact { hs with bearers := hbearers, orders := fun other hother ↦ hs.orders other (htasks hother),
                      macrotasks := (List.pairwise_cons.mp (hqueue ▸ hs.macrotasks)).2 }
  | rests hcurrent executed truncated =>
    have htasks := (tasks_rest hcurrent executed truncated).subset
    exact { hs with bearers := hbearers, orders := fun other hother ↦ hs.orders other (htasks hother) }
  | _ => exact { hs with bearers := hbearers }

/-- A new scope does not take the place of one that is there. -/
theorem retains (h : s.Edit new t) (hs : s.Numbered) : s.Retains t := by
  cases h with
  | @binds scope v name => exact retains_bind s scope name v
  | opens hid => exact retains_openScope _ _ hs (by omega)
  | enters hframe hid => exact retains_openScope _ _ hs (by omega)
  | _ => exact .of_scopes_eq rfl

end Edit

namespace Unfolds

variable {handed : List Bearer}

theorem numbered (h : s.Unfolds handed t) (hs : s.Numbered) : t.Numbered := by
  induction h with
  | refl => exact hs
  | edit _ hedit ih => exact hedit.numbered ih

theorem retains (h : s.Unfolds handed t) (hs : s.Numbered) : s.Retains t := by
  induction h with
  | refl => exact .of_scopes_eq rfl
  | edit hrow hedit ih => exact ih.trans (hedit.retains (hrow.numbered hs))

end Unfolds

end State

end Stepwise
