import Stepwise.Proofs.Run.Stacking
import Stepwise.Proofs.State.Growth
/-!
The edits of a state: the single changes that a run makes, and the numbers that it hands out with them.
Values that an edit brings in are known before, so that a reference never leads nowhere.
-/

namespace Stepwise

/-- What bears a number of its own. -/
inductive Bearer where
  | scope (id : Nat)
  | frame (id : Nat)
  | task (id : Nat)
  | message (id : Nat)
  | stored (address : Address)
  deriving DecidableEq

/-- The number in an address; a label has none. -/
def Address.number : Address → Nat
  | array id | object id | promise id => id
  | label _ => 0

def Bearer.number : Bearer → Nat
  | scope id | frame id | task id | message id => id
  | stored address => address.number

/-- The values in a promise and the promises that its reactions settle. -/
def Promise.references (p : Promise) : List Value :=
  p.value?.toList ++ p.slots ++ p.reactions.flatMap Reaction.references

theorem subperm_map {α β : Type} {l l' : List α} (h : l.Subperm l') (f : α → β) : (l.map f).Subperm (l'.map f) := by
  obtain ⟨k, hperm, hsub⟩ := h
  exact ⟨k.map f, hperm.map f, hsub.map f⟩

namespace State

/-- A reference that leads to something; other values lead nowhere anyway. -/
def Knows (s : State) : Value → Prop
  | .object address => ∃ cell, s.heap.get? address = some cell
  | .promise address => ∃ p, s.promises.get? address = some p
  | _ => True

instance (s : State) : (v : Value) → Decidable (s.Knows v)
  | .object address => decidable_of_iff ((s.heap.get? address).isSome = true) Option.isSome_iff_exists
  | .promise address => decidable_of_iff ((s.promises.get? address).isSome = true) Option.isSome_iff_exists
  | .undefined | .null | .boolean _ | .number _ | .string _ | .function _ => .isTrue trivial

/-- Every value in any part of a state satisfies a condition. -/
structure All (P : Value → Prop) (s : State) : Prop where
  scopes : ∀ scope ∈ s.scopes, ∀ v ∈ scope.bindings.values, P v
  frames : ∀ frame ∈ s.frames, ∀ v ∈ frame.arguments ++ frame.locals.values, P v
  heap : s.heap.All P
  promises : ∀ p ∈ s.promises.values, ∀ v ∈ p.references, P v
  tasks : ∀ task ∈ s.tasks, ∀ v ∈ task.job.references, P v
  console : ∀ message ∈ s.console, ∀ v ∈ message.content, P v
  declared : ∀ record ∈ s.declared, P record.value

/-- No reference dangles. -/
def Whole (s : State) : Prop := s.All s.Knows

/-- Everything in a state that bears a number. -/
def bearers (s : State) : List Bearer :=
  s.scopes.map (.scope ·.id) ++ s.frames.map (.frame ·.id) ++ s.tasks.map (.task ·.id) ++
    s.console.map (.message ·.id) ++ (s.heap.keys ++ s.promises.keys).map .stored

/-- A single change, and what it gives numbers to. -/
inductive Edit (s : State) : List Bearer → State → Prop
  | binds {scope : Scope} {v : Value} (name : String) (hscope : s.scope? scope.id = some scope) (hv : s.Knows v) :
      s.Edit [] (s.bind scope name v)
  | declares {v : Value} (name : String) (kind : BindingKind) (id : Nat) (hv : s.Knows v) :
      s.Edit [] (s.recordVariable name v kind id)
  | opens {scope : Scope} {rest : List Nat} (hid : scope.id = s.lastId + 1) (hrest : rest <:+ s.chain)
      (hvs : ∀ v ∈ scope.bindings.values, s.Knows v) :
      s.Edit [.scope (s.lastId + 1)] (s.openScope scope rest s.frames)
  | enters {scope : Scope} {frame : Frame} (hframe : frame.id = s.lastId + 1) (hid : scope.id = s.lastId + 2)
      (hscope : frame.scope = some scope.id) (hempty : scope.bindings = ∅) (hlocals : frame.locals = ∅)
      (hvs : ∀ v ∈ frame.arguments, s.Knows v) :
      s.Edit [.frame (s.lastId + 1), .scope (s.lastId + 2)] (s.openScope scope s.chain (frame :: s.frames))
  | closes {chain : List Nat} {frames : List Frame} (hchain : chain <:+ s.chain) (hframes : frames <:+ s.frames) :
      s.Edit [] { s with chain, frames }
  | keepsLocals {frame : Frame} {frames : List Frame} {scope : Scope} (hframes : s.frames = frame :: frames)
      (hscope : s.scope? scope.id = some scope) :
      s.Edit [] { s with frames := { frame with locals := scope.bindings } :: frames }
  | captures {captured : List Nat} (h : captured ⊆ s.chain ++ s.captured) : s.Edit [] { s with captured }
  | identifies : s.Edit [] { s with lastIdentity := s.lastIdentity + 1 }
  | stores {address : Address} {cell : Cell} (hnumber : address.number = s.lastId + 1)
      (hfresh : s.heap.get? address = none) (hvs : ∀ v ∈ cell.held, s.Knows v) (contents : List Value) :
      s.Edit [.stored address] { s with lastId := s.lastId + 1, heap := s.heap.store address cell contents }
  | writes {receiver v : Value} {key : Text} {heap : Heap} (hv : s.Knows v)
      (hheap : s.heap.setProperty receiver key v = .ok heap) : s.Edit [] { s with heap }
  | prints (level : Level) {content : List Value} (hvs : ∀ v ∈ content, s.Knows v) :
      s.Edit [.message (s.lastId + 1)]
        { s with lastId := s.lastId + 1, console := s.console ++ [⟨s.lastId + 1, level, content⟩] }
  | schedules {task : Task} (hid : task.id = s.lastId + 1) (horder : task.order = s.loop.scheduled + 1)
      (hvs : ∀ v ∈ task.job.references, s.Knows v) :
      s.Edit [.task (s.lastId + 1)]
        { s with lastId := s.lastId + 1, loop := { s.loop.enqueue task with scheduled := s.loop.scheduled + 1 } }
  | promises {address : Address} (hnumber : address.number = s.lastId + 1) (hfresh : s.promises.get? address = none) :
      s.Edit [.stored address] { s with lastId := s.lastId + 1, promises := s.promises.set address {} }
  | settles {address : Address} {p : Promise} {v : Value} (hp : s.promises.get? address = some p)
      (hpending : p.value? = none) (hv : s.Knows v) :
      s.Edit [] { s with
        promises := s.promises.modify address fun p ↦ { p with value? := some v, reactions := [] }
        heap := s.heap.retain v }
  | revises (address : Address) {f : Promise → Promise} (hvalue : ∀ p, (f p).value? = p.value?)
      (hvs : ∀ p, ∀ v ∈ (f p).references, v ∈ p.references ∨ s.Knows v) :
      s.Edit [] { s with promises := s.promises.modify address f }
  | starts {task : Task} {loop : EventLoop} (htakes : s.loop.Takes task loop) :
      s.Edit [] { s with loop := { loop with current := some task } }
  | rests {current : Option Task} (hcurrent : current = s.loop.current ∨ current = none) (executed : Nat)
      (truncated : Bool) : s.Edit [] { s with loop := { s.loop with current, executed, truncated } }

variable {s t : State} {new : List Bearer} {P Q : Value → Prop}

theorem All.mono (h : s.All P) (hPQ : ∀ v, P v → Q v) : s.All Q where
  scopes scope hscope v hv := hPQ v (h.scopes scope hscope v hv)
  frames frame hframe v hv := hPQ v (h.frames frame hframe v hv)
  heap cell hcell v hv := hPQ v (h.heap cell hcell v hv)
  promises p hp v hv := hPQ v (h.promises p hp v hv)
  tasks task htask v hv := hPQ v (h.tasks task htask v hv)
  console message hmessage v hv := hPQ v (h.console message hmessage v hv)
  declared record hrecord := hPQ _ (h.declared record hrecord)

theorem Grows.knows (h : s.Grows t) {v : Value} (hv : s.Knows v) : t.Knows v := by
  cases v with
  | object address =>
    obtain ⟨cell, hcell⟩ := hv
    obtain ⟨cell', hcell', -⟩ := h.heap address cell hcell
    exact ⟨cell', hcell'⟩
  | promise address =>
    obtain ⟨p, hp⟩ := hv
    obtain ⟨q, hq, -⟩ := h.promises address p hp
    exact ⟨q, hq⟩
  | _ => trivial

theorem tasks_start {task : Task} {loop : EventLoop} (htakes : s.loop.Takes task loop) :
    { s with loop := { loop with current := some task } }.tasks.Subperm s.tasks := by
  obtain ⟨rest, hqueue, rfl⟩ | ⟨rest, hqueue, rfl⟩ := htakes
  · have hperm : (rest ++ s.loop.macrotasks ++ [task]).Perm (s.loop.microtasks ++ s.loop.macrotasks) :=
      hqueue ▸ List.perm_append_singleton task _
    exact hperm.subperm.trans (List.sublist_append_left _ _).subperm
  · have hperm : (s.loop.microtasks ++ rest ++ [task]).Perm (s.loop.microtasks ++ s.loop.macrotasks) := by
      rw [hqueue, List.append_assoc]
      exact (List.perm_append_singleton task rest).append_left _
    exact hperm.subperm.trans (List.sublist_append_left _ _).subperm

theorem tasks_rest {current : Option Task} (hcurrent : current = s.loop.current ∨ current = none) (executed : Nat)
    (truncated : Bool) :
    { s with loop := { s.loop with current, executed, truncated } }.tasks.Sublist s.tasks := by
  rcases hcurrent with rfl | rfl
  · exact .refl _
  · change (s.loop.microtasks ++ s.loop.macrotasks ++ []).Sublist _
    rw [List.append_nil]
    exact List.sublist_append_left _ _

namespace Edit

theorem grows (h : s.Edit new t) : s.Grows t := by
  have hstays (t : State) (hconsole : t.console = s.console) (hdeclared : t.declared = s.declared)
      (hheap : t.heap = s.heap) (hpromises : t.promises = s.promises) : s.Grows t := by
    refine .of_stored hconsole hdeclared ?_ ?_
    · exact hheap ▸ .refl s.heap
    · exact hpromises ▸ .refl Promise.Grows.refl s.promises
  cases h with
  | @binds scope v name hscope hv =>
    rw [bind_eq]
    refine .of_stored rfl rfl (.retain ?_ v) (.refl Promise.Grows.refl _)
    cases scope.bindings.get? name with
    | none => exact .refl s.heap
    | some old => exact .release (.refl s.heap) old
  | declares => exact ⟨List.prefix_refl _, List.prefix_append _ _, .refl _, .refl Promise.Grows.refl _⟩
  | stores hnumber hfresh hvs contents =>
    exact .of_stored rfl rfl (.store hfresh _ contents) (.refl Promise.Grows.refl _)
  | writes hv hheap => exact .of_stored rfl rfl (.setProperty hheap) (.refl Promise.Grows.refl _)
  | prints => exact ⟨List.prefix_append _ _, List.prefix_refl _, .refl _, .refl Promise.Grows.refl _⟩
  | promises hnumber hfresh => exact .of_stored rfl rfl (.refl _) (Dict.grows_set Promise.Grows.refl hfresh _)
  | settles hp hpending hv =>
    refine .of_stored rfl rfl (.retain (.refl _) _) (Dict.grows_modify Promise.Grows.refl fun p' hp' w hw ↦ ?_)
    -- a pending promise has no value to lose
    rw [hp] at hp'
    cases hp'
    rw [hpending] at hw
    cases hw
  | revises address hvalue hvs =>
    exact .of_stored rfl rfl (.refl _) (Dict.grows_modify Promise.Grows.refl fun p _ w hw ↦ (hvalue p).trans hw)
  | _ => exact hstays _ rfl rfl rfl rfl

theorem knows (h : s.Edit new t) {v : Value} (hv : s.Knows v) : t.Knows v := h.grows.knows hv

/-- What holds of all values of a state holds of all values behind an edit, if it holds of those known. -/
theorem all (h : s.Edit new t) (hs : s.All P) (hP : ∀ v, s.Knows v → P v) : t.All P := by
  cases h with
  | @binds scope v name hscope hv =>
    rw [bind_eq]
    refine { hs with scopes := fun scope' hscope' w hw ↦ ?_, heap := .retain ?_ v }
    · obtain ⟨old, hold, rfl⟩ := List.mem_map.mp hscope'
      dsimp only at hw
      split at hw
      · rcases Dict.mem_values_of_mem_values_set hw with rfl | hw
        · exact hP w hv
        · exact hs.scopes old hold w hw
      · exact hs.scopes old hold w hw
    · cases scope.bindings.get? name with
      | none => exact hs.heap
      | some old => exact hs.heap.release old
  | declares name kind id hv =>
    exact { hs with declared := List.forall_mem_append.mpr ⟨hs.declared, List.forall_mem_singleton.mpr (hP _ hv)⟩ }
  | opens hid hrest hvs => exact { hs with scopes := List.forall_mem_cons.mpr ⟨fun v hv ↦ hP v (hvs v hv), hs.scopes⟩ }
  | enters hframe hid hscope hempty hlocals hvs =>
    refine { hs with
      scopes := List.forall_mem_cons.mpr ⟨?_, hs.scopes⟩
      frames := List.forall_mem_cons.mpr ⟨?_, hs.frames⟩ }
    · rw [hempty]
      exact List.forall_mem_nil _
    · rw [hlocals]
      exact List.forall_mem_append.mpr ⟨fun v hv ↦ hP v (hvs v hv), List.forall_mem_nil _⟩
  | closes hchain hframes => exact { hs with frames := fun frame hframe ↦ hs.frames frame (hframes.subset hframe) }
  | @keepsLocals frame frames scope hframes hscope =>
    obtain ⟨hframe, hrest⟩ := List.forall_mem_cons.mp (hframes ▸ hs.frames)
    have hlocals : ∀ v ∈ scope.bindings.values, P v := hs.scopes scope (List.mem_of_find?_eq_some hscope)
    have hkept := List.forall_mem_append.mpr ⟨(List.forall_mem_append.mp hframe).1, hlocals⟩
    exact { hs with frames := List.forall_mem_cons.mpr ⟨hkept, hrest⟩ }
  | captures => exact { hs with }
  | identifies => exact { hs with }
  | stores hnumber hfresh hvs contents => exact { hs with heap := hs.heap.store _ _ fun v hv ↦ hP v (hvs v hv) }
  | writes hv hheap => exact { hs with heap := hs.heap.setProperty (hP _ trivial) (hP _ hv) hheap }
  | prints level hvs =>
    refine { hs with console := List.forall_mem_append.mpr ⟨hs.console, List.forall_mem_singleton.mpr ?_⟩ }
    exact fun v hv ↦ hP v (hvs v hv)
  | schedules hid horder hvs =>
    refine { hs with tasks := fun task htask v hv ↦ ?_ }
    rcases mem_tasks_of_enqueue htask with htask | rfl
    · exact hs.tasks task htask v hv
    · exact hP v (hvs v hv)
  | promises hnumber hfresh =>
    refine { hs with promises := fun p hp v hv ↦ ?_ }
    rcases Dict.mem_values_of_mem_values_set hp with rfl | hp
    · cases hv
    · exact hs.promises p hp v hv
  | @settles address p v hp hpending hv =>
    refine { hs with heap := hs.heap.retain v, promises := fun q hq w hw ↦ ?_ }
    rcases Dict.mem_values_of_mem_values_modify hq with ⟨p', hp', rfl⟩ | hq
    · rw [hp] at hp'
      cases hp'
      have hw : w ∈ v :: p.slots ++ [] := hw
      rw [List.append_nil] at hw
      rcases List.mem_cons.mp hw with rfl | hw
      · exact hP w hv
      · exact hs.promises p (Dict.mem_values_of_get? hp) w (List.mem_append_left _ (List.mem_append_right _ hw))
    · exact hs.promises q hq w hw
  | revises address hvalue hvs =>
    refine { hs with promises := fun q hq w hw ↦ ?_ }
    rcases Dict.mem_values_of_mem_values_modify hq with ⟨p, hp, rfl⟩ | hq
    · exact (hvs p w hw).elim (hs.promises p (Dict.mem_values_of_get? hp) w) (hP w)
    · exact hs.promises q hq w hw
  | starts htakes => exact { hs with tasks := fun other hother ↦ hs.tasks other ((tasks_start htakes).subset hother) }
  | rests hcurrent executed truncated =>
    have hsubset := (tasks_rest hcurrent executed truncated).subset
    exact { hs with tasks := fun other hother ↦ hs.tasks other (hsubset hother) }

theorem whole (h : s.Edit new t) (hs : s.Whole) : t.Whole := h.all (hs.mono fun _ ↦ h.knows) fun _ ↦ h.knows

theorem lastId (h : s.Edit new t) : t.lastId = s.lastId + new.length := by
  cases h with
  | binds => rw [bind_eq]; rfl
  | opens hid => exact hid
  | enters hframe hid => exact hid
  | _ => rfl

theorem numbers (h : s.Edit new t) : new.map Bearer.number = List.range' (s.lastId + 1) new.length := by
  cases h with
  | stores hnumber => exact congrArg (fun n ↦ [n]) hnumber
  | promises hnumber => exact congrArg (fun n ↦ [n]) hnumber
  | _ => rfl

/-- What bears a number behind an edit did so before, or it is what the edit gave the number to. -/
theorem bearers (h : s.Edit new t) : t.bearers.Subperm (s.bearers ++ new) := by
  have hcount (u : State) (b : Bearer) : u.bearers.count b = (u.scopeIds.map .scope).count b +
      (u.frames.map (.frame ·.id)).count b + (u.tasks.map (.task ·.id)).count b +
      (u.console.map (.message ·.id)).count b + (u.heap.keys.map .stored).count b +
      (u.promises.keys.map .stored).count b := by
    simp only [State.bearers, scopeIds, List.count_append, List.map_append, List.map_map, Function.comp_def]
    omega
  rw [List.subperm_ext_iff]
  intro b _
  rw [List.count_append, hcount, hcount]
  cases h with
  | @binds scope v name hscope hv =>
    have hkeys : (s.bind scope name v).heap.keys = s.heap.keys := by
      rw [bind_eq, Heap.keys_retain]
      cases scope.bindings.get? name with
      | none => rfl
      | some old => exact s.heap.keys_release old
    rw [scopeIds_bind, hkeys, bind_eq]
    exact Nat.le_refl _
  | opens hid =>
    simp only [tasks, scopeIds, openScope, List.map_cons, List.count_cons, List.count_nil, hid]
    omega
  | enters hframe hid =>
    simp only [tasks, scopeIds, openScope, List.map_cons, List.count_cons, List.count_nil, hid, hframe]
    omega
  | @closes chain frames hchain hframes =>
    have hle := (hframes.sublist.map (Bearer.frame ·.id)).count_le b
    simp only [tasks, scopeIds, List.count_nil]
    omega
  | keepsLocals hframes =>
    rw [hframes]
    exact Nat.le_refl _
  | stores hnumber hfresh =>
    simp only [tasks, scopeIds, Heap.keys_store hfresh, List.map_append, List.count_append, List.map_cons, List.map_nil]
    omega
  | writes hv hheap =>
    simp only [tasks, scopeIds, Heap.keys_setProperty hheap]
    omega
  | prints =>
    simp only [tasks, scopeIds, List.map_append, List.count_append, List.map_cons, List.map_nil]
    omega
  | @schedules task hid horder hvs =>
    cases hkind : task.kind <;>
      simp only [tasks, scopeIds, EventLoop.enqueue, hkind, List.map_append, List.count_append, List.map_cons,
        List.map_nil, hid] <;>
      omega
  | promises hnumber hfresh =>
    simp only [tasks, scopeIds, Dict.keys_set_of_get?_eq_none hfresh, List.map_append, List.count_append,
      List.map_cons, List.map_nil]
    omega
  | settles =>
    simp only [tasks, scopeIds, Dict.keys_modify, Heap.keys_retain]
    omega
  | revises =>
    simp only [tasks, scopeIds, Dict.keys_modify]
    omega
  | starts htakes =>
    have hle := List.subperm_iff_count.mp (subperm_map (tasks_start htakes) (Bearer.task ·.id)) b
    simp only [tasks, scopeIds] at hle ⊢
    omega
  | rests hcurrent executed truncated =>
    have hle := ((tasks_rest hcurrent executed truncated).map (Bearer.task ·.id)).count_le b
    simp only [tasks, scopeIds] at hle ⊢
    omega
  | _ => exact Nat.le_refl _

end Edit

/-- A row of edits, with all that they gave numbers to. -/
inductive Unfolds (s : State) : List Bearer → State → Prop
  | refl : s.Unfolds [] s
  | edit {handed new : List Bearer} {t u : State} : s.Unfolds handed t → t.Edit new u → s.Unfolds (handed ++ new) u

namespace Unfolds

variable {u : State} {handed handed' : List Bearer}

theorem trans (h : s.Unfolds handed t) (h' : t.Unfolds handed' u) : s.Unfolds (handed ++ handed') u := by
  induction h' with
  | refl => exact (List.append_nil handed).symm ▸ h
  | edit _ hedit ih => exact List.append_assoc handed _ _ ▸ ih.edit hedit

theorem grows (h : s.Unfolds handed t) : s.Grows t := by
  induction h with
  | refl => exact .refl s
  | edit _ hedit ih => exact ih.trans hedit.grows

theorem whole (h : s.Unfolds handed t) (hs : s.Whole) : t.Whole := by
  induction h with
  | refl => exact hs
  | edit _ hedit ih => exact hedit.whole ih

theorem lastId (h : s.Unfolds handed t) : t.lastId = s.lastId + handed.length := by
  induction h with
  | refl => rfl
  | edit _ hedit ih => rw [hedit.lastId, ih, List.length_append, Nat.add_assoc]

theorem numbers (h : s.Unfolds handed t) : handed.map Bearer.number = List.range' (s.lastId + 1) handed.length := by
  induction h with
  | refl => rfl
  | @edit handed new t u hrow hedit ih =>
    have hstart : t.lastId + 1 = s.lastId + 1 + handed.length := by
      rw [hrow.lastId]
      omega
    rw [List.map_append, ih, hedit.numbers, hstart, List.length_append]
    exact List.range'_append_1

theorem bearers (h : s.Unfolds handed t) : t.bearers.Subperm (s.bearers ++ handed) := by
  induction h with
  | refl => exact (List.append_nil s.bearers).symm ▸ List.Subperm.refl _
  | @edit handed new t u _ hedit ih =>
    rw [← List.append_assoc]
    exact hedit.bearers.trans ((List.subperm_append_right new).mpr ih)

end Unfolds

end State

end Stepwise
