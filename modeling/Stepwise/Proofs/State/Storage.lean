import Stepwise.Run.Promise
import Stepwise.Proofs.Outcome
import Stepwise.State.Reachability
import Stepwise.Proofs.Value.Plain
import Stepwise.Proofs.Value.Raising
/-!
Operations on stored data: the heap, the promises and the tasks. They neither read nor change
frames and scopes, and every function that they store was handed to them or stored before.
-/

namespace Stepwise

/-- A value that is no function, or one of certain functions. -/
def Value.Within (F : Function → Prop) : Value → Prop
  | .function f => F f
  | _ => True

theorem Value.Within.mono {F G : Function → Prop} {v : Value} (hv : v.Within F)
    (hFG : ∀ f, F f → G f) : v.Within G := by
  cases v with
  | function f => exact hFG f hv
  | _ => trivial

namespace Cell

def held (cell : Cell) : List Value := cell.fields.values ++ cell.elements

end Cell

namespace Promise

def held (p : Promise) : List Value :=
  p.value?.toList ++ p.slots ++ p.reactions.flatMap Reaction.values

end Promise

variable {F : Function → Prop} {α β : Type}

/-- All values of a list are within. -/
abbrev AllWithin (F : Function → Prop) (vs : List Value) : Prop := ∀ v ∈ vs, v.Within F

namespace Heap

variable {heap : Heap}

theorem setProperty_cases {heap' : Heap} {receiver v : Value} {key : Text} (h : heap.setProperty receiver key v = .ok heap') :
    heap' = heap ∨ ∃ address cell, heap.get? address = some cell ∧
      ((∃ index, heap' = heap.setElement address cell index v) ∨ heap' = heap.setField address cell key v) := by
  unfold setProperty at h
  split at h
  · cases h
  · cases h
  next address =>
    split at h
    next cell hcell =>
      refine .inr ⟨address, cell, hcell, ?_⟩
      dsimp only at h
      split at h
      · obtain ⟨index?, -, h⟩ := Except.exists_of_bind_eq_ok h
        cases index? with
        | some index =>
          cases h
          exact .inl ⟨index, rfl⟩
        | none =>
          cases h
          exact .inr rfl
      · cases h
        exact .inr rfl
    next =>
      cases h
      exact .inl rfl
  next =>
    cases h
    exact .inl rfl

/-- All elements and fields of what is stored satisfy a condition. -/
def All (P : Value → Prop) (heap : Heap) : Prop := ∀ cell ∈ heap.values, ∀ v ∈ cell.held, P v

section All

variable {P : Value → Prop} {address : Address} {cell : Cell} {v : Value} (h : heap.All P)
include h

theorem All.update {f : Cell → Cell} (hf : ∀ cell : Cell, (∀ v ∈ cell.held, P v) → ∀ v ∈ (f cell).held, P v) :
    (heap.update address f).All P := by
  intro cell hcell
  rcases Dict.mem_values_of_mem_values_modify hcell with ⟨old, hold, rfl⟩ | hcell
  · exact hf old (h old (Dict.mem_values_of_get? hold))
  · exact h cell hcell

theorem All.retain (v : Value) : (heap.retain v).All P := by
  cases v with
  | object address => exact h.update fun _ hcell ↦ hcell
  | _ => exact h

theorem All.release (v : Value) : (heap.release v).All P := by
  cases v with
  | object address => exact h.update fun _ hcell ↦ hcell
  | _ => exact h

theorem All.retains (vs : List Value) : (vs.foldl Heap.retain heap).All P := by
  induction vs generalizing heap with
  | nil => exact h
  | cons v vs ih => exact ih (h.retain v)

theorem All.store (address : Address) (vs : List Value) (hcell : ∀ v ∈ cell.held, P v) :
    (heap.store address cell vs).All P := by
  refine All.retains (fun c hc ↦ ?_) vs
  rcases Dict.mem_values_of_mem_values_set hc with rfl | hc
  · exact hcell
  · exact h c hc

theorem All.setElement (hundefined : P .undefined) (index : Nat) (hcell : ∀ v ∈ cell.held, P v) (hv : P v) :
    (heap.setElement address cell index v).All P := by
  refine ((h.release _).update fun c hc ↦ ?_).retain v
  refine List.forall_mem_append.mpr ⟨(List.forall_mem_append.mp hc).1, fun w hw ↦ ?_⟩
  rcases List.mem_or_eq_of_mem_set hw with hw | rfl
  · rcases List.mem_append.mp hw with hw | hw
    · exact (List.forall_mem_append.mp hcell).2 w hw
    · exact List.eq_of_mem_replicate hw ▸ hundefined
  · exact hv

theorem All.setField (key : Text) (hv : P v) : (heap.setField address cell key v).All P := by
  refine ((h.release _).update fun c hc ↦ ?_).retain v
  refine List.forall_mem_append.mpr ⟨fun w hw ↦ ?_, (List.forall_mem_append.mp hc).2⟩
  rcases Dict.mem_values_of_mem_values_set hw with rfl | hw
  · exact hv
  · exact (List.forall_mem_append.mp hc).1 w hw

theorem All.setProperty {heap' : Heap} {receiver : Value} {key : Text} (hundefined : P .undefined) (hv : P v)
    (hset : heap.setProperty receiver key v = .ok heap') : heap'.All P := by
  obtain rfl | ⟨address, cell, hcell, ⟨index, rfl⟩ | rfl⟩ := setProperty_cases hset
  · exact h
  · exact h.setElement hundefined index (h cell (Dict.mem_values_of_get? hcell)) hv
  · exact h.setField key hv

end All

/-- The functions that are stored are among certain ones. -/
abbrev Within (F : Function → Prop) (heap : Heap) : Prop := heap.All (·.Within F)

end Heap

namespace State

variable {s t : State}

/-- The functions stored in a state are among certain ones. -/
structure Holding (F : Function → Prop) (s : State) : Prop where
  heap : s.heap.Within F
  promises : ∀ p ∈ s.promises.values, AllWithin F p.held
  tasks : ∀ task ∈ s.tasks, AllWithin F task.job.values

/-- What operations on stored data make of a state. -/
structure Develops (F : Function → Prop) (s t : State) : Prop where
  holding : t.Holding F
  lastId : s.lastId ≤ t.lastId
  console : s.console <+: t.console

theorem Holding.develops (h : s.Holding F) : s.Develops F s := ⟨h, Nat.le_refl _, List.prefix_refl _⟩

theorem Develops.trans {u : State} (h : s.Develops F t) (h' : t.Develops F u) : s.Develops F u :=
  ⟨h'.holding, Nat.le_trans h.lastId h'.lastId, h.console.trans h'.console⟩

/-- A state with the frames and scopes of another one. -/
def withScoping (s u : State) : State :=
  { s with frames := u.frames, chain := u.chain, scopes := u.scopes, captured := u.captured }

theorem Holding.withScoping (h : s.Holding F) (u : State) : (s.withScoping u).Holding F :=
  ⟨h.heap, h.promises, h.tasks⟩

section Tasks

variable {task other : Task} {queue : List Task}

theorem mem_tasks_of_mem_microtasks (h : task ∈ s.loop.microtasks) : task ∈ s.tasks :=
  List.mem_append_left _ (List.mem_append_left _ h)

theorem mem_tasks_of_mem_macrotasks (h : task ∈ s.loop.macrotasks) : task ∈ s.tasks :=
  List.mem_append_left _ (List.mem_append_right _ h)

theorem mem_tasks_of_enqueue {scheduled : Nat}
    (h : other ∈ { s with loop := { s.loop.enqueue task with scheduled } }.tasks) : other ∈ s.tasks ∨ other = task := by
  cases hkind : task.kind <;>
    simp only [tasks, EventLoop.enqueue, hkind, List.mem_append, List.mem_singleton] at h ⊢
  · rcases h with ((h | h) | h) | h
    · exact .inl (.inl (.inl h))
    · exact .inr h
    · exact .inl (.inl (.inr h))
    · exact .inl (.inr h)
  · rcases h with (h | h | h) | h
    · exact .inl (.inl (.inl h))
    · exact .inl (.inl (.inr h))
    · exact .inr h
    · exact .inl (.inr h)

theorem mem_tasks_of_microtasks (h : other ∈ { s with loop := { s.loop with microtasks := queue } }.tasks) :
    other ∈ s.tasks ∨ other ∈ queue := by
  simp only [tasks, List.mem_append] at h ⊢
  rcases h with (h | h) | h
  · exact .inr h
  · exact .inl (.inl (.inr h))
  · exact .inl (.inr h)

theorem mem_tasks_of_macrotasks (h : other ∈ { s with loop := { s.loop with macrotasks := queue } }.tasks) :
    other ∈ s.tasks ∨ other ∈ queue := by
  simp only [tasks, List.mem_append] at h ⊢
  rcases h with (h | h) | h
  · exact .inl (.inl (.inl h))
  · exact .inr h
  · exact .inl (.inr h)

theorem mem_tasks_of_current {current : Option Task}
    (h : other ∈ { s with loop := { s.loop with current } }.tasks) : other ∈ s.tasks ∨ current = some other := by
  simp only [tasks, List.mem_append, Option.mem_toList] at h ⊢
  rcases h with (h | h) | h
  · exact .inl (.inl (.inl h))
  · exact .inl (.inl (.inr h))
  · exact .inr h

end Tasks

end State

namespace Engine

/-- The end of an operation, with another state. -/
def mapState (g : State → State) : EStateM.Result Fault State α → EStateM.Result Fault State α
  | .ok a s => .ok a (g s)
  | .error f s => .error f (g s)

/-- What an operation on stored data may leave behind. -/
def Leaves (F : Function → Prop) (A : α → Prop) (s : State) : EStateM.Result Fault State α → Prop
  | .ok a t => s.Develops F t ∧ A a
  | .error f t => s.Develops F t ∧ f ≠ .popOfGlobalScope

/-- Operations on stored data alone. -/
structure Storing (F : Function → Prop) (x : Engine α) (A : α → Prop) : Prop where
  blind : ∀ s u, s.Holding F → x (s.withScoping u) = mapState (·.withScoping u) (x s)
  leaves : ∀ s, s.Holding F → Leaves F A s (x s)

variable {x : Engine α} {A : α → Prop} {B : β → Prop}

/-- No condition on a result. -/
def unit : α → Prop := fun _ ↦ True

theorem Storing.post (h : Storing F x A) {A' : α → Prop} (hA : ∀ a, A a → A' a) : Storing F x A' where
  blind := h.blind
  leaves s hs := by
    have hx := h.leaves s hs
    generalize x s = r at hx
    cases r with
    | ok a t => exact hx.imp_right (hA a)
    | error f t => exact hx

theorem Storing.develops (h : Storing F x A) {s : State} (hs : s.Holding F) : s.Develops F (after (x s)) := by
  have hx := h.leaves s hs
  generalize x s = r at hx
  cases r with
  | ok a t => exact hx.1
  | error f t => exact hx.1

/-- Frames and scopes are the ones of before. -/
theorem Storing.withScoping_after (h : Storing F x A) {s : State} (hs : s.Holding F) :
    (after (x s)).withScoping s = after (x s) := by
  have hx : x s = mapState (·.withScoping s) (x s) := h.blind s s hs
  rw [hx]
  cases x s <;> rfl

theorem Storing.pure {a : α} (ha : A a) : Storing F (Pure.pure a) A where
  blind _ _ _ := rfl
  leaves _ hs := ⟨hs.develops, ha⟩

theorem Storing.bind {f : α → Engine β} (h : Storing F x A) (hf : ∀ a, A a → Storing F (f a) B) :
    Storing F (x >>= f) B where
  blind s u hs := by
    have hx := h.leaves s hs
    have hb := h.blind s u hs
    rw [bind_apply, bind_apply, hb]
    generalize x s = r at hx
    cases r with
    | error e t => rfl
    | ok a t => exact (hf a hx.2).blind t u hx.1.holding
  leaves s hs := by
    have hx := h.leaves s hs
    rw [bind_apply]
    generalize x s = r at hx
    cases r with
    | error e t => exact hx
    | ok a t =>
      obtain ⟨ht, ha⟩ := hx
      have hy := (hf a ha).leaves t ht.holding
      dsimp only
      generalize f a t = r at hy
      cases r with
      | ok b u => exact hy.imp_left ht.trans
      | error e u => exact hy.imp_left ht.trans

theorem Storing.seq {f : α → Engine β} (h : Storing F x A) (hf : ∀ a, Storing F (f a) B) :
    Storing F (x >>= f) B := h.bind fun a _ ↦ hf a

theorem Storing.ofGet {f : State → Engine β} (hb : ∀ s u, f (s.withScoping u) = f s)
    (hf : ∀ s, s.Holding F → Storing F (f s) B) : Storing F (get >>= f) B where
  blind s u hs := by
    change f (s.withScoping u) (s.withScoping u) = mapState _ (f s s)
    rw [hb]
    exact (hf s hs).blind s u hs
  leaves s hs := (hf s hs).leaves s hs

theorem Storing.ofModify {g : State → State} (hb : ∀ s u, g (s.withScoping u) = (g s).withScoping u)
    (hg : ∀ s : State, s.Holding F → s.Develops F (g s)) : Storing F (modify g) unit where
  blind s u _ := congrArg (EStateM.Result.ok PUnit.unit) (hb s u)
  leaves s hs := ⟨hg s hs, trivial⟩

theorem Storing.ofExcept {e : Except Fault α} (he : Computes e) (hA : ∀ a, e = .ok a → A a) :
    Storing F (liftM e) A := by
  cases e with
  | ok a => exact .pure (hA a rfl)
  | error f =>
    refine ⟨fun _ _ _ ↦ rfl, fun _ hs ↦ ⟨hs.develops, ?_⟩⟩
    rintro rfl
    exact nomatch he _ rfl

theorem storing_freshId : Storing F freshId unit where
  blind _ _ _ := rfl
  leaves s hs := ⟨⟨⟨hs.heap, hs.promises, hs.tasks⟩, Nat.le_succ s.lastId, List.prefix_refl _⟩, trivial⟩

theorem storing_freshIdentity : Storing F freshIdentity unit where
  blind _ _ _ := rfl
  leaves s hs := ⟨⟨⟨hs.heap, hs.promises, hs.tasks⟩, Nat.le_refl s.lastId, List.prefix_refl _⟩, trivial⟩

theorem storing_modifyHeap {g : Heap → Heap} (hg : ∀ heap, heap.Within F → (g heap).Within F) :
    Storing F (modify fun s ↦ { s with heap := g s.heap }) unit :=
  .ofModify (fun _ _ ↦ rfl) fun s hs ↦
    ⟨⟨hg s.heap hs.heap, hs.promises, hs.tasks⟩, Nat.le_refl s.lastId, List.prefix_refl _⟩

theorem storing_newArray {vs : List Value} (hvs : AllWithin F vs) :
    Storing F (newArray vs) (Value.Within F) := by
  refine storing_freshId.seq fun id ↦ ?_
  refine (storing_modifyHeap fun _ h ↦ h.store (.array id) vs ?_).seq fun _ ↦ .pure trivial
  exact hvs

theorem storing_newObject {fields : Dict Text Value} (hf : AllWithin F fields.values) :
    Storing F (newObject fields) (Value.Within F) := by
  refine storing_freshId.seq fun id ↦ ?_
  refine (storing_modifyHeap fun _ h ↦ h.store (.object id) fields.values ?_).seq fun _ ↦ .pure trivial
  exact List.forall_mem_append.mpr ⟨hf, fun _ hv ↦ nomatch hv⟩

theorem storing_say (level : Level) (content : List Value) : Storing F (say level content) unit := by
  refine storing_freshId.seq fun id ↦ Storing.seq (A := unit) (.ofModify (fun _ _ ↦ rfl) ?_) fun _ ↦ .pure trivial
  exact fun s hs ↦ ⟨⟨hs.heap, hs.promises, hs.tasks⟩, Nat.le_refl s.lastId, List.prefix_append _ _⟩

theorem storing_setProperty (receiver : Value) (key : Text) {v : Value} (hv : v.Within F) :
    Storing F (setProperty receiver key v) unit := by
  refine .ofGet (fun _ _ ↦ rfl) fun s hs ↦ ?_
  have hcomputes := s.heap.computes_setProperty receiver key v
  refine Storing.bind (A := Heap.Within F) (.ofExcept hcomputes fun heap ↦ hs.heap.setProperty trivial hv) fun heap hheap ↦ ?_
  exact storing_modifyHeap fun _ _ ↦ hheap

theorem storing_retain (v : Value) : Storing F (modify (·.retain v)) unit :=
  storing_modifyHeap fun _ h ↦ h.retain v

theorem storing_modifyLoop {g : EventLoop → EventLoop}
    (hg : ∀ s : State, s.Holding F → { s with loop := g s.loop }.Holding F) :
    Storing F (modifyLoop g) unit :=
  .ofModify (fun _ _ ↦ rfl) fun s hs ↦ ⟨hg s hs, Nat.le_refl s.lastId, List.prefix_refl _⟩

theorem storing_schedule (kind : TaskKind) (description : Text) (job : Job) (line : Int)
    (hjob : AllWithin F job.values) : Storing F (schedule kind description job line) unit := by
  refine storing_freshId.seq fun id ↦ .ofGet (fun _ _ ↦ rfl) fun s hs ↦ ?_
  refine (storing_modifyLoop fun s hs ↦ ⟨hs.heap, hs.promises, fun task htask ↦ ?_⟩).seq
    fun _ ↦ .pure trivial
  rcases State.mem_tasks_of_enqueue htask with htask | rfl
  · exact hs.tasks task htask
  · exact hjob

/-- The functions that a reaction holds on to. -/
abbrev ReactionWithin (F : Function → Prop) (reaction : Reaction) : Prop := AllWithin F reaction.values

theorem storing_createPromise : Storing F createPromise unit := by
  refine storing_freshId.seq fun id ↦ Storing.seq (A := unit) (.ofModify (fun _ _ ↦ rfl) ?_) fun _ ↦ .pure trivial
  refine fun s hs ↦ ⟨⟨hs.heap, fun p hp ↦ ?_, hs.tasks⟩, Nat.le_refl s.lastId, List.prefix_refl _⟩
  rcases Dict.mem_values_of_mem_values_set hp with rfl | hp
  · exact fun _ hv ↦ nomatch hv
  · exact hs.promises p hp

theorem storing_promise (address : Address) :
    Storing F (promise address) fun p ↦ AllWithin F p.held := by
  refine .ofGet (fun _ _ ↦ rfl) fun s hs ↦ ?_
  cases hp : s.promises.get? address with
  | some p => exact .pure (hs.promises p (Dict.mem_values_of_get? hp))
  | none => exact ⟨fun _ _ _ ↦ rfl, fun _ ht ↦ ⟨ht.develops, nofun⟩⟩

theorem storing_modifyPromise (address : Address) {g : Promise → Promise}
    (hg : ∀ p, AllWithin F p.held → AllWithin F (g p).held) :
    Storing F (modifyPromise address g) unit := by
  refine .ofModify (fun _ _ ↦ rfl) fun s hs ↦
    ⟨⟨hs.heap, fun p hp ↦ ?_, hs.tasks⟩, Nat.le_refl s.lastId, List.prefix_refl _⟩
  rcases Dict.mem_values_of_mem_values_modify hp with ⟨old, hold, rfl⟩ | hp
  · exact hg old (hs.promises old (Dict.mem_values_of_get? hold))
  · exact hs.promises p hp

theorem storing_scheduleReaction {v : Value} {reaction : Reaction} (hv : v.Within F)
    (hr : ReactionWithin F reaction) : Storing F (scheduleReaction v reaction) unit :=
  (storing_schedule .microtask reaction.description (.react reaction v) 0
    (List.forall_mem_cons.mpr ⟨hv, hr⟩)).seq fun _ ↦ .pure trivial

theorem storing_scheduleReactions {v : Value} (reactions : List Reaction) (hv : v.Within F)
    (hr : ∀ reaction ∈ reactions, ReactionWithin F reaction) :
    Storing F (reactions.forM (scheduleReaction v)) unit := by
  induction reactions with
  | nil => exact .pure trivial
  | cons reaction reactions ih =>
    obtain ⟨hhead, htail⟩ := List.forall_mem_cons.mp hr
    exact (storing_scheduleReaction hv hhead).seq fun _ ↦ ih htail

theorem allWithin_held_append {p : Promise} {reaction : Reaction} (hp : AllWithin F p.held)
    (hr : ReactionWithin F reaction) :
    AllWithin F { p with reactions := p.reactions ++ [reaction] }.held := by
  obtain ⟨hvalues, hreactions⟩ := List.forall_mem_append.mp hp
  refine List.forall_mem_append.mpr ⟨hvalues, fun v hv ↦ ?_⟩
  rw [List.flatMap_append] at hv
  rcases List.mem_append.mp hv with hv | hv
  · exact hreactions v hv
  · rw [List.flatMap_singleton] at hv
    exact hr v hv

theorem reactionsWithin {p : Promise} (hp : AllWithin F p.held) :
    ∀ reaction ∈ p.reactions, ReactionWithin F reaction := fun _ hr v hv ↦
  (List.forall_mem_append.mp hp).2 v (List.mem_flatMap.mpr ⟨_, hr, hv⟩)

theorem storing_settle (address : Address) {v : Value} (hv : v.Within F) :
    Storing F (settle address v) unit := by
  refine (storing_promise address).bind fun p hp ↦ ?_
  split
  · refine (storing_modifyPromise address fun p hp ↦ ?_).seq fun _ ↦ (storing_retain v).seq fun _ ↦ ?_
    · obtain ⟨hvalues, -⟩ := List.forall_mem_append.mp hp
      obtain ⟨-, hslots⟩ := List.forall_mem_append.mp hvalues
      refine List.forall_mem_append.mpr ⟨List.forall_mem_append.mpr ⟨?_, hslots⟩, fun _ hv ↦ nomatch hv⟩
      exact List.forall_mem_singleton.mpr hv
    · exact storing_scheduleReactions p.reactions hv (reactionsWithin hp)
  · exact .pure trivial

theorem storing_subscribe (address : Address) (reaction : Reaction)
    (hr : ReactionWithin F reaction) : Storing F (subscribe address reaction) unit := by
  refine (storing_promise address).bind fun p hp ↦ ?_
  cases hv : p.value? with
  | some v =>
    have hheld : v ∈ p.held := by simp [Promise.held, hv]
    exact storing_scheduleReaction (hp v hheld) hr
  | none => exact storing_modifyPromise address fun p hp ↦ allWithin_held_append hp hr

theorem storing_conclude (derived : Address) {result : Value} (hv : result.Within F) :
    Storing F (conclude derived result) unit := by
  cases result with
  | promise address => exact storing_subscribe address (.adopt derived) fun _ h ↦ absurd h List.not_mem_nil
  | _ => exact storing_settle derived hv

theorem storing_chain (address : Address) {handler : Option Function}
    (hf : ∀ f, handler = some f → F f) : Storing F (chain address handler) unit := by
  refine storing_createPromise.seq fun derived ↦ ?_
  refine (storing_subscribe address (.handle handler derived) ?_).seq fun _ ↦ .pure trivial
  cases handler with
  | none => exact fun _ hv ↦ nomatch hv
  | some f => exact List.forall_mem_singleton.mpr (hf f rfl)

theorem storing_fillSlot (aggregate : Address) (index : Nat) {v : Value} (hv : v.Within F) :
    Storing F (fillSlot aggregate index v) unit := by
  refine storing_modifyPromise aggregate fun p hp ↦ ?_
  obtain ⟨hvalues, hreactions⟩ := List.forall_mem_append.mp hp
  obtain ⟨hvalue, hslots⟩ := List.forall_mem_append.mp hvalues
  refine List.forall_mem_append.mpr ⟨List.forall_mem_append.mpr ⟨hvalue, fun w hw ↦ ?_⟩, hreactions⟩
  rcases List.mem_or_eq_of_mem_set hw with hw | rfl
  · exact hslots w hw
  · exact hv

theorem storing_settleIfFull (aggregate : Address) : Storing F (settleIfFull aggregate) unit := by
  refine (storing_promise aggregate).bind fun p hp ↦ ?_
  split
  · obtain ⟨hvalues, -⟩ := List.forall_mem_append.mp hp
    obtain ⟨-, hslots⟩ := List.forall_mem_append.mp hvalues
    exact (storing_newArray hslots).bind fun v hv ↦ storing_settle aggregate hv
  · exact .pure trivial

theorem storing_gather (aggregate : Address) (index : Nat) {v : Value} (hv : v.Within F) :
    Storing F (gather aggregate index v) unit :=
  (storing_promise aggregate).seq fun _ ↦ (storing_fillSlot aggregate index hv).seq fun _ ↦
    storing_settleIfFull aggregate

theorem storing_collectFrom (aggregate : Address) (index : Nat) {vs : List Value}
    (hvs : AllWithin F vs) : Storing F (collectFrom aggregate index vs) unit := by
  induction vs generalizing index with
  | nil => exact .pure trivial
  | cons v vs ih =>
    obtain ⟨hv, hrest⟩ := List.forall_mem_cons.mp hvs
    have hfill {w : Value} (hw : w.Within F) : Storing F
        (fillSlot aggregate index w >>= fun _ ↦ collectFrom aggregate (index + 1) vs) unit :=
      (storing_fillSlot aggregate index hw).seq fun _ ↦ ih (index + 1) hrest
    cases v with
    | promise member =>
      refine (storing_promise member).bind fun p hp ↦ ?_
      cases hw : p.value? with
      | some w =>
        have hheld : w ∈ p.held := by simp [Promise.held, hw]
        exact hfill (hp w hheld)
      | none =>
        refine (storing_modifyPromise member fun p hp ↦ allWithin_held_append hp ?_).seq
          fun _ ↦ ih (index + 1) hrest
        exact fun _ hv ↦ nomatch hv
    | _ => exact hfill hv

theorem storing_all {vs : List Value} (hvs : AllWithin F vs) : Storing F (all vs) unit := by
  refine storing_createPromise.seq fun aggregate ↦ ?_
  refine (storing_modifyPromise aggregate fun p hp ↦ ?_).seq fun _ ↦ ?_
  · obtain ⟨hvalues, hreactions⟩ := List.forall_mem_append.mp hp
    obtain ⟨hvalue, -⟩ := List.forall_mem_append.mp hvalues
    refine List.forall_mem_append.mpr ⟨List.forall_mem_append.mpr ⟨hvalue, fun v hv ↦ ?_⟩, hreactions⟩
    rw [List.eq_of_mem_replicate hv]
    trivial
  · exact (storing_collectFrom aggregate 0 hvs).seq fun _ ↦
      (storing_settleIfFull aggregate).seq fun _ ↦ .pure trivial

theorem storing_raceFrom (aggregate : Address) {vs : List Value} (hvs : AllWithin F vs) :
    Storing F (raceFrom aggregate vs) unit := by
  induction vs with
  | nil => exact .pure trivial
  | cons v vs ih =>
    obtain ⟨hv, hrest⟩ := List.forall_mem_cons.mp hvs
    have hsettle {w : Value} (hw : w.Within F) : Storing F
        (settle aggregate w >>= fun _ ↦ raceFrom aggregate vs) unit :=
      (storing_settle aggregate hw).seq fun _ ↦ ih hrest
    cases v with
    | promise member =>
      refine (storing_promise member).bind fun p hp ↦ ?_
      cases hw : p.value? with
      | some w =>
        have hheld : w ∈ p.held := by simp [Promise.held, hw]
        exact hsettle (hp w hheld)
      | none =>
        refine (storing_modifyPromise member fun p hp ↦ allWithin_held_append hp ?_).seq
          fun _ ↦ ih hrest
        exact fun _ hv ↦ nomatch hv
    | _ => exact hsettle hv

theorem storing_race {vs : List Value} (hvs : AllWithin F vs) : Storing F (race vs) unit :=
  storing_createPromise.seq fun aggregate ↦ (storing_raceFrom aggregate hvs).seq fun _ ↦ .pure trivial

theorem storing_fetch (url : Text) (line : Int) : Storing F (fetch url line) unit :=
  storing_createPromise.seq fun _ ↦
    (storing_schedule .macrotask _ _ line fun _ hv ↦ absurd hv List.not_mem_nil).seq fun _ ↦ .pure trivial

theorem storing_completeFetch (address : Address) (url : Text) :
    Storing F (completeFetch address url) unit := by
  refine (storing_newObject fun v hv ↦ ?_).bind fun response hresponse ↦ storing_settle address hresponse
  have hfields := Dict.mem_values_of_mem_values_ofList hv
  simp only [List.map_cons, List.map_nil, List.mem_cons, List.not_mem_nil, or_false] at hfields
  rcases hfields with rfl | rfl <;> trivial

end Engine

end Stepwise
