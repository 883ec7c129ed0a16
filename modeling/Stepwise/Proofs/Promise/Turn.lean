import Stepwise.Proofs.EventLoop.Plain
import Stepwise.Proofs.Promise.Account
import Stepwise.Proofs.Promise.Changing
/-!
Steps of histories by how reactions are taken out of the queue, which may be in any order or the oldest one first, and
what such a step does to how promises stand.
-/

namespace Stepwise

open Standing (Changes)

/-- An event of carrying out the reaction by which a promise is derived. -/
def Event.Runs (d : Address) (e : Event) : Prop := e.isProgress = true ∧ e.subject? = some d

namespace State

variable {s s' : State} {r : Reaction} {v : Value}

/-- The oldest microtask is taken out of the queue, and is a reaction. -/
def TakesOldest (s : State) (r : Reaction) (v : Value) (s' : State) : Prop :=
  ∃ task tasks, task.job = .react r v ∧ s.loop.microtasks = task :: tasks ∧
    s' = { s with loop := { s.loop with microtasks := tasks } }

theorem TakesOldest.takes (h : s.TakesOldest r v s') : s.Takes r v s' := by
  obtain ⟨task, tasks, hjob, htasks, hs'⟩ := h
  exact ⟨task, [], tasks, hjob, htasks, hs'⟩

/-- What the event loop carries out next, where there is a microtask, is the oldest one. -/
theorem takesOldest_of_next? {task : Task} {loop : EventLoop} (hmicrotasks : s.loop.microtasks ≠ [])
    (hnext : s.loop.next? = some (task, loop)) (hjob : task.job = .react r v) :
    s.TakesOldest r v { s with loop := loop } := by
  obtain ⟨first, rest, hfirst⟩ := List.exists_cons_of_ne_nil hmicrotasks
  simp only [EventLoop.next?, hfirst, Option.some.injEq, Prod.mk.injEq] at hnext
  obtain ⟨rfl, rfl⟩ := hnext
  exact ⟨first, rest, hjob, hfirst, rfl⟩

theorem TakesOldest.queued (h : s.TakesOldest r v s') : s.queued = (r, v) :: s'.queued := by
  obtain ⟨task, tasks, hjob, htasks, rfl⟩ := h
  have htask : task.reaction? = some (r, v) := by
    unfold Task.reaction?
    rw [hjob]
  unfold State.queued
  rw [htasks, List.filterMap_cons_some htask]

theorem Takes.standing (h : s.Takes r v s') : s'.standing = { s.standing with queued := s'.queued } := by
  obtain ⟨task, before, behind, -, -, rfl⟩ := h
  rfl

theorem Takes.ahead (h : s.Takes r v s') (hs : s.Ahead) : s'.Ahead :=
  hs.of_promises_eq h.shifts.promises h.shifts.lastId

end State

namespace History

/-- One step of a history in which reactions are taken out of the queue in a certain way. -/
inductive StepBy (takes : State → Reaction → Value → State → Prop) : History → History → Prop
  | operate {s : State} {calls : List Address} {events : List Event} (operation : Operation) :
      StepBy takes ⟨s, calls, events⟩
        ⟨after (operation.note s), calls, events ++ [operation.event (operation.note s)]⟩
  | call {s s' : State} {calls : List Address} {events : List Event} {f : Function} {d : Address} {v : Value}
      (h : takes s (.handle (some f) d) v s') :
      StepBy takes ⟨s, calls, events⟩ ⟨s', d :: calls, events ++ [.began f d v]⟩
  | conclude {s : State} {calls : List Address} {events : List Event} {d : Address} (result : Value) :
      StepBy takes ⟨s, d :: calls, events⟩
        ⟨after (Engine.conclude d result s), calls, events ++ [.ending d result (Engine.conclude d result s)]⟩
  | fail {s : State} {calls : List Address} {events : List Event} {d : Address} :
      StepBy takes ⟨s, d :: calls, events⟩ ⟨s, calls, events ++ [.failed d]⟩
  | pass {s s' : State} {calls : List Address} {events : List Event} {d : Address} {v : Value}
      (h : takes s (.handle none d) v s') :
      StepBy takes ⟨s, calls, events⟩
        ⟨after (Engine.conclude d v s'), calls, events ++ [.ending d v (Engine.conclude d v s')]⟩
  | react {s s' : State} {calls : List Address} {events : List Event} {r : Reaction} {v : Value} (h : takes s r v s')
      (hr : ∀ handler d, r ≠ .handle handler d) {ω : Type} (invoke : Function → List Value → Activity ω Value)
      (journal : ω) :
      StepBy takes ⟨s, calls, events⟩
        ⟨(after (Activity.runReaction invoke r v ⟨s', journal⟩)).state, calls, events⟩
  | receive {s s' : State} {calls : List Address} {events : List Event} {q : Address} {url : Text}
      (h : s.Receives q url s') : StepBy takes ⟨s, calls, events⟩ ⟨after (Engine.completeFetch q url s'), calls, events⟩
  | other {s s' : State} {calls : List Address} {events : List Event} (h : s.Beside s') :
      StepBy takes ⟨s, calls, events⟩ ⟨s', calls, events⟩

/-- What a history may come to in this way. -/
def ReachesBy (takes : State → Reaction → Value → State → Prop) : History → History → Prop :=
  Relation.ReflTransGen (StepBy takes)

/-- A step of the event loop, which takes the oldest microtask first. -/
def Turn : History → History → Prop := StepBy State.TakesOldest

/-- What a history may come to by the event loop. -/
def Turns : History → History → Prop := Relation.ReflTransGen Turn

variable {takes : State → Reaction → Value → State → Prop} {x y : History}

theorem StepBy.step (h : StepBy takes x y) (htakes : ∀ s r v s', takes s r v s' → s.Takes r v s') : Step x y := by
  cases h with
  | operate operation => exact .operate operation
  | call h => exact .call (htakes _ _ _ _ h)
  | conclude result => exact .conclude result
  | fail => exact .fail
  | pass h => exact .pass (htakes _ _ _ _ h)
  | react h hr invoke journal => exact .react (htakes _ _ _ _ h) hr invoke journal
  | receive h => exact .receive h
  | other h => exact .other h

theorem Step.stepBy (h : Step x y) : StepBy State.Takes x y := by
  cases h with
  | operate operation => exact .operate operation
  | call h => exact .call h
  | conclude result => exact .conclude result
  | fail => exact .fail
  | pass h => exact .pass h
  | react h hr invoke journal => exact .react h hr invoke journal
  | receive h => exact .receive h
  | other h => exact .other h

theorem Turn.step (h : Turn x y) : Step x y := StepBy.step h fun _ _ _ _ ↦ State.TakesOldest.takes

theorem Turns.reaches (h : Turns x y) : Reaches x y := Relation.ReflTransGen.mono (fun _ _ ↦ Turn.step) _ _ h

/-- Carrying out a reaction is a row of steps, if calling a handler is one. -/
theorem reachesBy_runReaction {ω : Type} {invoke : Function → List Value → Activity ω Value} {s s' : State}
    {calls : List Address} {events : List Event} {r : Reaction} {v : Value} (h : takes s r v s')
    (hinvoke : ∀ f arguments (m : Machine ω) calls events, ∃ new,
      ReachesBy takes ⟨m.state, calls, events⟩ ⟨(after (invoke f arguments m)).state, calls, events ++ new⟩)
    (journal : ω) :
    ∃ new, ReachesBy takes ⟨s, calls, events⟩
      ⟨(after (Activity.runReaction invoke r v ⟨s', journal⟩)).state, calls, events ++ new⟩ := by
  have hreact (hr : ∀ handler d, r ≠ .handle handler d) : ∃ new, ReachesBy takes ⟨s, calls, events⟩
      ⟨(after (Activity.runReaction invoke r v ⟨s', journal⟩)).state, calls, events ++ new⟩ :=
    ⟨[], (List.append_nil events).symm ▸ .single (.react h hr invoke journal)⟩
  cases r with
  | handle handler d =>
    cases handler with
    | none =>
      change ∃ new, ReachesBy takes _ ⟨(after (Activity.ofEngine (Engine.conclude d v) ⟨s', journal⟩)).state, _, _⟩
      rw [Activity.state_after_ofEngine]
      exact ⟨_, .single (.pass h)⟩
    | some f =>
      obtain ⟨new, hcall⟩ := hinvoke f [v] ⟨s', journal⟩ (d :: calls) (events ++ [.began f d v])
      have hbegun := hcall.head (.call h)
      change ∃ new, ReachesBy takes _
        ⟨(after ((invoke f [v] >>= fun result ↦ Activity.ofEngine (Engine.conclude d result)) _)).state, _, _⟩
      rw [bind_apply]
      cases hends : invoke f [v] ⟨s', journal⟩ with
      | error stop m =>
        rw [hends, List.append_assoc] at hbegun
        have hfailed := hbegun.tail .fail
        rw [List.append_assoc] at hfailed
        exact ⟨_, hfailed⟩
      | ok result m =>
        rw [hends, List.append_assoc] at hbegun
        have hconcluded := hbegun.tail (.conclude result)
        rw [List.append_assoc] at hconcluded
        dsimp only
        rw [Activity.state_after_ofEngine]
        exact ⟨_, hconcluded⟩
  | collect a index => exact hreact nofun
  | race a => exact hreact nofun
  | adopt a => exact hreact nofun

/-- Of reactions for races a step registers only those for new ones. -/
def Registers (x : History) (_ : Address) (r : Reaction) : Prop := ∀ a, r = .race a → ¬ x.state.Made a

/-- The promises that a step settles: new ones and its own, and where the value comes from. -/
structure Gives (x y : History) (taken : List (Reaction × Value)) (own : Option Address) (c : Standing) (b : Address)
    (w : Value) : Prop where
  target : own = some b ∨ ¬ x.state.Made b
  source : w.Final ∨ (∃ q, c.value? q = some w) ∨ (∃ r, (r, w) ∈ taken) ∨ .settled b w ∈ y.events

/-- A step as a row of changes of how promises stand, after a reaction may have been taken out of the queue. -/
structure Moves (x y : History) (taken left : List (Reaction × Value)) (own : Option Address) : Prop where
  changes : Changes (Registers x) (Gives x y taken own) { x.state.standing with queued := left } y.state.standing
  own : ∀ b, own = some b → (∃ t ∈ taken, t.1.target = b) ∨ b ∈ x.calls ∨ b ∈ x.state.fetching ∨
    ∃ w, .settled b w ∈ y.events
  /-- a reaction of a race settles that with the value that it brings -/
  raced : ∀ a v, (.race a, v) ∈ taken → x.state.promises.contains a = true →
    y.state.standing = Standing.settle { x.state.standing with queued := left } a v
  /-- what is noted down of handlers is about the reaction that is taken, or a call in progress -/
  noted : ∃ new, y.events = x.events ++ new ∧
    (∀ handler d v, (.handle handler d, v) ∈ taken → ∃ e ∈ new, e.Runs d) ∧
    ∀ e ∈ new, ∀ d, e.Runs d → d ∈ x.calls ∨ ∃ handler v, (.handle handler d, v) ∈ taken

section Moves

open State Engine

variable {s s' : State} {calls calls' : List Address} {events new : List Event} {d q : Address} {r : Reaction}
  {v : Value} {own : Option Address}

theorem moves_of_becomes (h : s.Becomes (Registers ⟨s, calls, events⟩)
      (Gives ⟨s, calls, events⟩ ⟨s', calls', events ++ new⟩ [] own) s')
    (hown : ∀ b, own = some b → b ∈ calls ∨ b ∈ s.fetching ∨ ∃ w, .settled b w ∈ events ++ new)
    (hnew : ∀ e ∈ new, ∀ d, e.Runs d → d ∈ calls) :
    Moves ⟨s, calls, events⟩ ⟨s', calls', events ++ new⟩ [] s.queued own where
  changes := h.changes
  own b hb := .inr (hown b hb)
  raced _ _ h := absurd h List.not_mem_nil
  noted := ⟨new, rfl, fun _ _ _ h ↦ absurd h List.not_mem_nil, fun e he d hd ↦ .inl (hnew e he d hd)⟩

theorem final_or_exists_of_delivered {c : Standing} {v w : Value} (h : c.delivered? v = some w) :
    w.Final ∨ ∃ q, c.value? q = some w := by
  cases v with
  | promise q => exact .inr ⟨q, h⟩
  | _ =>
    cases h
    exact .inl nofun

theorem not_runs_event (operation : Operation) (s : State) (d : Address) :
    ¬ (operation.event (operation.note s)).Runs d := by
  rintro ⟨hprogress, -⟩
  rcases operation.event_forms s with h | ⟨a, h⟩ | ⟨q, v, h⟩
  all_goals
    rw [h] at hprogress
    cases hprogress

theorem moves_make {operation : Operation} (x : Engine Address)
    (hnote : operation.note s = (Event.made operation <$> x) s)
    (h : s.Becomes (Registers ⟨s, calls, events⟩)
      (Gives ⟨s, calls, events⟩ ⟨after (x s), calls, events ++ [operation.event (operation.note s)]⟩ [] none)
      (after (x s))) :
    Moves ⟨s, calls, events⟩
      ⟨after (operation.note s), calls, events ++ [operation.event (operation.note s)]⟩ [] s.queued none := by
  have hmap : after (operation.note s) = after (x s) := by
    rw [hnote, map_apply]
    cases x s <;> rfl
  rw [hmap]
  refine moves_of_becomes h nofun fun e he d hd ↦ ?_
  cases List.mem_singleton.mp he
  exact absurd hd (not_runs_event operation s d)

theorem moves_operate (calls : List Address) (events : List Event) (hs : s.Ahead) (operation : Operation) :
    ∃ own, Moves ⟨s, calls, events⟩
      ⟨after (operation.note s), calls, events ++ [operation.event (operation.note s)]⟩ [] s.queued own := by
  have hnew : ¬ s.Made (.promise (s.lastId + 1)) := s.not_made_next
  cases operation with
  | create =>
    refine ⟨none, moves_make Engine.createPromise rfl ?_⟩
    exact .of_standing_eq (ahead_created hs) (standing_created hs)
  | chain p handler =>
    refine ⟨none, moves_make (Engine.chain p handler) rfl (becomes_chain hs ?_)⟩
    exact fun _ _ _ ↦ nofun
  | all inputs =>
    refine ⟨none, moves_make (Engine.all inputs) rfl (becomes_all hs ?_ ?_)⟩
    · exact fun _ _ _ ↦ nofun
    · exact fun c b ↦ ⟨.inr hnew, .inl nofun⟩
  | race inputs =>
    refine ⟨none, moves_make (Engine.race inputs) rfl (becomes_race hs (fun q _ a ha ↦ ?_) fun c v w _ hw ↦ ?_)⟩
    · cases ha
      exact hnew
    · exact ⟨.inr hnew, (final_or_exists_of_delivered hw).imp_right .inl⟩
  | fetch url line => exact ⟨none, moves_make (Engine.fetch url line) rfl (becomes_fetch hs url line)⟩
  | settle q v =>
    cases hq : s.promises.contains q with
    | false =>
      rw [Operation.note_settle_of_error (settle_of_not_contains hq v)]
      refine ⟨none, moves_of_becomes (.refl hs) nofun fun e he d hd ↦ ?_⟩
      cases List.mem_singleton.mp he
      cases hd.1
    | true =>
      obtain ⟨p, hp⟩ := exists_promise hq
      obtain ⟨t, ht, hstanding, hahead⟩ := standing_settle hp v
      have hsettled : .settled q v ∈ events ++ [.settled q v] := List.mem_append_right _ List.mem_cons_self
      rw [Operation.note_settle_of_ok ht]
      refine ⟨some q, moves_of_becomes ⟨hahead hs, hstanding ▸ .single (.settle ⟨.inl rfl, ?_⟩)⟩ (fun b hb ↦ ?_)
        fun e he d hd ↦ ?_⟩
      · exact .inr (.inr (.inr hsettled))
      · cases hb
        exact .inr (.inr ⟨v, hsettled⟩)
      · cases List.mem_singleton.mp he
        cases hd.1

theorem moves_of_takes {s'' : State} (h : s.Takes r v s')
    (hbecomes : s'.Becomes (Registers ⟨s, calls, events⟩)
      (Gives ⟨s, calls, events⟩ ⟨s'', calls', events ++ new⟩ [(r, v)] (some r.target)) s'')
    (hraced : ∀ a, r = .race a → s.promises.contains a = true → s''.standing = s'.standing.settle a v)
    (hhandled : ∀ handler d, r = .handle handler d → ∃ e ∈ new, e.Runs d)
    (hnew : ∀ e ∈ new, ∀ d, e.Runs d → ∃ handler, r = .handle handler d) :
    Moves ⟨s, calls, events⟩ ⟨s'', calls', events ++ new⟩ [(r, v)] s'.queued (some r.target) where
  changes := h.standing ▸ hbecomes.changes
  own b hb := .inl ⟨_, List.mem_cons_self, Option.some.inj hb⟩
  raced a w ha hknown := by
    cases List.mem_singleton.mp ha
    exact h.standing ▸ hraced a rfl hknown
  noted := by
    refine ⟨new, rfl, fun handler d w hd ↦ ?_, fun e he d hd ↦ .inr ?_⟩
    · exact hhandled handler d (congrArg Prod.fst (List.mem_singleton.mp hd)).symm
    · obtain ⟨handler, rfl⟩ := hnew e he d hd
      exact ⟨handler, v, List.mem_cons_self⟩

theorem moves_of_takes_handle {s'' : State} {handler : Option Function} {e : Event}
    (h : s.Takes (.handle handler d) v s') (he : e.Runs d) (hbecomes : s'.Becomes (Registers ⟨s, calls, events⟩)
      (Gives ⟨s, calls, events⟩ ⟨s'', calls', events ++ [e]⟩ [(.handle handler d, v)] (some d)) s'') :
    Moves ⟨s, calls, events⟩ ⟨s'', calls', events ++ [e]⟩ [(.handle handler d, v)] s'.queued (some d) := by
  refine moves_of_takes h hbecomes nofun (fun handler' d' hd ↦ ?_) fun e' he' d' hd ↦ ⟨handler, ?_⟩
  · cases hd
    exact ⟨e, List.mem_cons_self, he⟩
  · cases List.mem_singleton.mp he'
    cases he.2.symm.trans hd.2
    rfl

theorem moves_react {ω : Type} (calls : List Address) (events : List Event) (hs : s.Ahead) (h : s.Takes r v s')
    (hr : ∀ handler d, r ≠ .handle handler d) (invoke : Function → List Value → Activity ω Value) (journal : ω) :
    Moves ⟨s, calls, events⟩ ⟨(after (Activity.runReaction invoke r v ⟨s', journal⟩)).state, calls, events ++ []⟩
      [(r, v)] s'.queued (some r.target) := by
  have hs' := h.ahead hs
  have hbrings {y : History} {c : Standing} : Gives ⟨s, calls, events⟩ y [(r, v)] (some r.target) c r.target v :=
    ⟨.inl rfl, .inr (.inr (.inl ⟨r, List.mem_cons_self⟩))⟩
  refine moves_of_takes h ?_ (fun b hb hknown ↦ ?_) (fun handler d hd ↦ absurd hd (hr handler d))
    (List.forall_mem_nil _)
  · cases r with
    | handle handler d => exact absurd rfl (hr handler d)
    | collect a index =>
      change s'.Becomes _ _ (after (Activity.ofEngine (Engine.gather a index v) ⟨s', journal⟩)).state
      rw [Activity.state_after_ofEngine]
      exact changing_gather (fun c b ↦ ⟨.inl rfl, .inl nofun⟩) index v s' hs'
    | race a | adopt a =>
      change s'.Becomes _ _ (after (Activity.ofEngine (Engine.settle a v) ⟨s', journal⟩)).state
      rw [Activity.state_after_ofEngine]
      exact changing_settle (fun c ↦ hbrings) s' hs'
  · subst hb
    change (after (Activity.ofEngine (Engine.settle b v) ⟨s', journal⟩)).state.standing = _
    obtain ⟨p, hp⟩ := exists_promise (h.shifts.promises.symm ▸ hknown)
    obtain ⟨t, ht, hstanding, -⟩ := standing_settle hp v
    rw [Activity.state_after_ofEngine, ht]
    exact hstanding

theorem moves_receive {url : Text} (calls : List Address) (events : List Event) (hs : s.Ahead)
    (h : s.Receives q url s') :
    Moves ⟨s, calls, events⟩ ⟨after (Engine.completeFetch q url s'), calls, events ++ []⟩ [] s.queued (some q) := by
  have hstanding : s'.standing = s.standing := by
    refine standing_congr (fun b ↦ by rw [h.shifts.promises]) ?_
    obtain ⟨task, before, behind, -, -, rfl⟩ := h
    rfl
  have hahead : s'.Ahead := hs.of_promises_eq h.shifts.promises h.shifts.lastId
  refine moves_of_becomes ((State.Becomes.of_standing_eq hahead hstanding).trans ?_) (fun b hb ↦ ?_)
    (List.forall_mem_nil _)
  · exact changing_completeFetch (fun c b ↦ ⟨.inl rfl, .inl nofun⟩) url s' hahead
  · cases hb
    exact .inr (.inl h.mem_fetching)

theorem runs_ending (d : Address) (result : Value) (r : EStateM.Result Fault State Unit) :
    (Event.ending d result r).Runs d := ⟨Event.isProgress_ending d result r, Event.subject?_ending d result r⟩

theorem mem_calls_of_runs {e : Event} {calls : List Address} (he : e.subject? = some d) :
    ∀ e' ∈ [e], ∀ d', e'.Runs d' → d' ∈ d :: calls := by
  intro e' he' d' hd
  cases List.mem_singleton.mp he'
  cases he.symm.trans hd.2
  exact List.mem_cons_self

theorem StepBy.moves (h : StepBy takes x y) (htakes : ∀ s r v s', takes s r v s' → s.Takes r v s')
    (hx : x.state.Ahead) : ∃ taken left own, x.Moves y taken left own ∧
      (taken = [] ∧ left = x.state.queued ∨
        ∃ r v s', takes x.state r v s' ∧ taken = [(r, v)] ∧ left = s'.queued) := by
  cases h with
  | operate operation =>
    obtain ⟨own, hmoves⟩ := moves_operate _ _ hx operation
    exact ⟨_, _, own, hmoves, .inl ⟨rfl, rfl⟩⟩
  | @call s s' calls events f d v h =>
    have htakes := htakes _ _ _ _ h
    have hruns : (Event.began f d v).Runs d := ⟨rfl, rfl⟩
    exact ⟨_, _, _, moves_of_takes_handle htakes hruns (.refl (htakes.ahead hx)), .inr ⟨_, v, s', h, rfl, rfl⟩⟩
  | @conclude s calls events d result =>
    refine ⟨_, _, some d, moves_of_becomes ?_ (fun b hb ↦ ?_) ?_, .inl ⟨rfl, rfl⟩⟩
    · exact changing_conclude (fun _ _ _ ↦ nofun) (fun hfinal c ↦ ⟨.inl rfl, .inl hfinal⟩) s hx
    · cases hb
      exact .inl List.mem_cons_self
    · exact mem_calls_of_runs (Event.subject?_ending _ _ _)
  | fail => exact ⟨_, _, none, moves_of_becomes (.refl hx) nofun (mem_calls_of_runs rfl), .inl ⟨rfl, rfl⟩⟩
  | @pass s s' calls events d v h =>
    have htakes := htakes _ _ _ _ h
    refine ⟨_, _, _, moves_of_takes_handle htakes (runs_ending _ _ _) ?_, .inr ⟨_, v, s', h, rfl, rfl⟩⟩
    exact changing_conclude (fun _ _ _ ↦ nofun) (fun hfinal c ↦ ⟨.inl rfl, .inl hfinal⟩) s' (htakes.ahead hx)
  | @react s s' calls events r v h hr ω invoke journal =>
    have hmoves := moves_react calls events hx (htakes _ _ _ _ h) hr invoke journal
    rw [List.append_nil] at hmoves
    exact ⟨_, _, _, hmoves, .inr ⟨r, v, s', h, rfl, rfl⟩⟩
  | @receive s s' calls events q url h =>
    have hmoves := moves_receive calls events hx h
    rw [List.append_nil] at hmoves
    exact ⟨_, _, _, hmoves, .inl ⟨rfl, rfl⟩⟩
  | @other s s' calls events h =>
    have hstanding : s'.standing = s.standing := standing_congr (fun b ↦ by rw [h.promises]) h.queued
    have hmoves : Moves ⟨s, calls, events⟩ ⟨s', calls, events ++ []⟩ [] s.queued none :=
      moves_of_becomes (.of_standing_eq (hx.of_promises_eq h.promises h.lastId) hstanding) nofun (List.forall_mem_nil _)
    rw [List.append_nil] at hmoves
    exact ⟨_, _, _, hmoves, .inl ⟨rfl, rfl⟩⟩

end Moves

/-- A turn takes nothing, or the reaction at the head of the queue. -/
theorem Turn.moves (h : Turn x y) (hx : x.state.Ahead) : ∃ taken left own, x.Moves y taken left own ∧
    x.state.queued = taken ++ left ∧
    (taken = [] ∨ ∃ r v s', x.state.Takes r v s' ∧ taken = [(r, v)] ∧ left = s'.queued) := by
  obtain ⟨taken, left, own, hmoves, ⟨rfl, rfl⟩ | ⟨r, v, s', htakes, rfl, rfl⟩⟩ :=
    StepBy.moves h (fun _ _ _ _ ↦ State.TakesOldest.takes) hx
  · exact ⟨[], _, own, hmoves, rfl, .inl rfl⟩
  · exact ⟨_, _, own, hmoves, htakes.queued, .inr ⟨r, v, s', htakes.takes, rfl, rfl⟩⟩

theorem Step.moves (h : Step x y) (hx : x.state.Ahead) : ∃ taken left own, x.Moves y taken left own ∧
    x.state.queued.Perm (taken ++ left) ∧ taken.length ≤ 1 := by
  obtain ⟨taken, left, own, hmoves, ⟨rfl, rfl⟩ | ⟨r, v, s', htakes, rfl, rfl⟩⟩ :=
    h.stepBy.moves (fun _ _ _ _ ↦ id) hx
  · exact ⟨[], _, own, hmoves, .refl _, by simp⟩
  · exact ⟨_, _, own, hmoves, htakes.shifts.queued, by simp⟩

section Values

variable {q : Address} {w : Value}

theorem Step.value? (h : Step x y) (hx : x.Sound) (hw : x.state.value? q = some w) : y.state.value? q = some w := by
  obtain ⟨taken, left, own, hmoves, -⟩ := h.moves hx.sane.ahead
  exact hmoves.changes.value? hw

theorem Reaches.value? (h : Reaches x y) (hx : x.Sound) (hw : x.state.value? q = some w) :
    y.state.value? q = some w := by
  induction h with
  | refl => exact hw
  | tail hreaches hstep ih => exact hstep.value? (Reaches.sound hreaches hx) ih

end Values

/-- A history goes on with operations. -/
def operate (h : History) : List Operation → History
  | [] => h
  | operation :: operations =>
    operate ⟨after (operation.note h.state), h.calls, h.events ++ [operation.event (operation.note h.state)]⟩ operations

theorem turns_operate (operations : List Operation) (h : History) : Turns h (h.operate operations) := by
  induction operations generalizing h with
  | nil => exact .refl
  | cons operation operations ih => exact .head (.operate operation) (ih _)

/-- The state without the oldest microtask. -/
def rest (h : History) : State :=
  { h.state with loop := { h.state.loop with microtasks := h.state.loop.microtasks.tail } }

theorem takesOldest_rest {h : History} {r : Reaction} {v : Value}
    (hfirst : h.state.loop.microtasks.head?.map Task.job = some (.react r v)) : h.state.TakesOldest r v h.rest := by
  obtain ⟨task, htask, hjob⟩ := Option.map_eq_some_iff.mp hfirst
  obtain ⟨tasks, htasks⟩ := List.head?_eq_some_iff.mp htask
  refine ⟨task, tasks, hjob, htasks, ?_⟩
  simp [rest, htasks]

end History

end Stepwise
