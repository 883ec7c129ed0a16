import Stepwise.Proofs.Promise.Account
import Stepwise.Proofs.State.Apart
/-!
The roster of promises. An operation that goes well adds the promise that it gives, and nothing else adds any, so that
a history in which no operation fails has noted down all promises, in their order.
-/

namespace Stepwise

namespace Engine

open State

variable {α β : Type} {x : Engine α} {s s' : State} {a : Address}

/-- An operation that makes no promise. -/
def Barren (x : Engine α) : Prop := ∀ s : State, (after (x s)).promises.keys = s.promises.keys

namespace Barren

theorem pure (a : α) : Barren (Pure.pure a) := fun _ ↦ rfl

theorem bind {f : α → Engine β} (hx : Barren x) (hf : ∀ a, Barren (f a)) : Barren (x >>= f) := by
  intro s
  have hs := hx s
  rw [bind_apply]
  cases h : x s with
  | ok a t =>
    rw [h] at hs
    exact (hf a t).trans hs
  | error e t =>
    rw [h] at hs
    exact hs

theorem of_apart (h : ∀ s : State, s.Apart (after (x s))) : Barren x := fun s ↦ congrArg Dict.keys (h s).promises

end Barren

theorem barren_promise (q : Address) : Barren (promise q) := by
  intro s
  cases hp : s.promises.get? q with
  | none => rw [promise_of_get?_eq_none hp]; rfl
  | some p => rw [promise_of_get? hp]; rfl

theorem barren_modifyPromise (q : Address) (f : Promise → Promise) : Barren (modifyPromise q f) :=
  fun _ ↦ Dict.keys_modify _ _ _

theorem barren_scheduleReaction (v : Value) (r : Reaction) : Barren (scheduleReaction v r) := fun _ ↦ rfl

theorem barren_scheduleReactions (v : Value) (rs : List Reaction) : Barren (rs.forM (scheduleReaction v)) := by
  induction rs with
  | nil => exact .pure ()
  | cons r rs ih => exact (barren_scheduleReaction v r).bind fun _ ↦ ih

theorem barren_settle (q : Address) (v : Value) : Barren (settle q v) := by
  refine (barren_promise q).bind fun p ↦ ?_
  split
  · exact (barren_modifyPromise q _).bind fun _ ↦ .bind (fun _ ↦ rfl) fun _ ↦ barren_scheduleReactions v p.reactions
  · exact .pure ()

theorem barren_subscribe (q : Address) (r : Reaction) : Barren (subscribe q r) := by
  refine (barren_promise q).bind fun p ↦ ?_
  cases p.value? with
  | some w => exact barren_scheduleReaction w r
  | none => exact barren_modifyPromise q _

theorem barren_settleIfFull (q : Address) : Barren (settleIfFull q) := by
  refine (barren_promise q).bind fun p ↦ ?_
  split
  · exact (Barren.of_apart (apart_newArray p.slots)).bind (barren_settle q)
  · exact .pure ()

theorem barren_gather (q : Address) (index : Nat) (v : Value) : Barren (gather q index v) :=
  (barren_promise q).bind fun _ ↦ (barren_modifyPromise q _).bind fun _ ↦ barren_settleIfFull q

theorem barren_collectFrom (q : Address) (index : Nat) (vs : List Value) : Barren (collectFrom q index vs) := by
  induction vs generalizing index with
  | nil => exact .pure ()
  | cons v vs ih =>
    have hfill (w : Value) : Barren (fillSlot q index w >>= fun _ ↦ collectFrom q (index + 1) vs) :=
      (barren_modifyPromise q _).bind fun _ ↦ ih (index + 1)
    cases v with
    | promise b =>
      refine (barren_promise b).bind fun p ↦ ?_
      cases p.value? with
      | some w => exact hfill w
      | none => exact (barren_modifyPromise b _).bind fun _ ↦ ih (index + 1)
    | _ => exact hfill _

theorem barren_raceFrom (q : Address) (vs : List Value) : Barren (raceFrom q vs) := by
  induction vs with
  | nil => exact .pure ()
  | cons v vs ih =>
    cases v with
    | promise b =>
      refine (barren_promise b).bind fun p ↦ ?_
      cases p.value? with
      | some w => exact (barren_settle q w).bind fun _ ↦ ih
      | none => exact (barren_modifyPromise b _).bind fun _ ↦ ih
    | _ => exact (barren_settle q _).bind fun _ ↦ ih

theorem barren_completeFetch (q : Address) (url : Text) : Barren (completeFetch q url) :=
  (Barren.of_apart (apart_newObject _)).bind (barren_settle q)

theorem barren_conclude (d : Address) (result : Value) : Barren (conclude d result) := by
  cases result with
  | promise q => exact barren_subscribe q (.adopt d)
  | _ => exact barren_settle d _

/-- What an operation adds that goes on with a new promise. -/
theorem keys_of_create {f : Address → Engine β} {b : β} (hs : s.Sane) (hf : ∀ a, Barren (f a))
    (h : (createPromise >>= f) s = .ok b s') : s'.promises.keys = s.promises.keys ++ [.promise (s.lastId + 1)] := by
  have hbarren := hf (.promise (s.lastId + 1)) s.created
  rw [eq_ok_of_create h] at hbarren
  exact hbarren.trans (Dict.keys_set_of_get?_eq_none hs.get?_next _)

end Engine

theorem Operation.keys_of_made {s : State} {operation operation' : Operation} {a : Address} (hs : s.Sane)
    (h : operation.event (operation.note s) = .made operation' a) :
    (after (operation.note s)).promises.keys = s.promises.keys ++ [a] := by
  have hmakes {f : Address → Engine Address} (hf : ∀ a, Engine.Barren (f a))
      (hfirst : ∀ b s', (Engine.createPromise >>= f) s = .ok b s' → b = .promise (s.lastId + 1))
      (hnote : operation.note s = (Event.made operation <$> (Engine.createPromise >>= f)) s) :
      (after (operation.note s)).promises.keys = s.promises.keys ++ [a] := by
    rcases event_cases _ hnote with hevent | ⟨b, s', hok, hafter, hevent⟩
    · cases hevent.symm.trans h
    · cases hevent.symm.trans h
      rw [hafter, hfirst _ _ hok]
      exact Engine.keys_of_create hs hf hok
  cases operation with
  | create =>
    refine hmakes (f := Pure.pure) .pure (fun b s' hok ↦ ?_) rfl
    cases hok
    rfl
  | chain p handler =>
    refine hmakes (fun d ↦ (Engine.barren_subscribe p _).bind fun _ ↦ .pure d) (fun b s' hok ↦ ?_) rfl
    have hprogress : Event.progress b [] = [] := rfl
    exact (Engine.derives_chain hs hok hprogress).1
  | all inputs =>
    refine hmakes (fun d ↦ (Engine.barren_modifyPromise d _).bind fun _ ↦ (Engine.barren_collectFrom d 0 inputs).bind
      fun _ ↦ (Engine.barren_settleIfFull d).bind fun _ ↦ .pure d) (fun b s' hok ↦ ?_) rfl
    exact (Engine.gathers_all hs hok).1
  | race inputs =>
    refine hmakes (fun d ↦ (Engine.barren_raceFrom d inputs).bind fun _ ↦ .pure d) (fun b s' hok ↦ ?_) rfl
    exact (Engine.races_race hs hok).1
  | fetch url line =>
    refine hmakes (fun d ↦ .bind (fun _ ↦ rfl) fun _ ↦ .pure d) (fun b s' hok ↦ ?_) rfl
    exact (Engine.expects_fetch hs hok).1
  | settle q v =>
    change Operation.event _ ((Engine.settle q v >>= _) s) = _ at h
    rw [bind_apply] at h
    cases hsettle : Engine.settle q v s <;> rw [hsettle] at h <;> cases h

theorem Operation.exists_made {s : State} {operation : Operation} (h : (operation.event (operation.note s)).Regular) :
    ∃ a, operation.event (operation.note s) = .made operation a := by
  rcases operation.event_forms s with hevent | hevent | ⟨q, v, hevent⟩
  · rw [hevent] at h
    exact h.elim
  · exact hevent
  · rw [hevent] at h
    exact h.elim

theorem Activity.keys_runReaction {ω : Type} {r : Reaction} (invoke : Function → List Value → Activity ω Value)
    (hr : ∀ handler d, r ≠ .handle handler d) (v : Value) (m : Machine ω) :
    (after (runReaction invoke r v m)).state.promises.keys = m.state.promises.keys := by
  have hengine {x : Engine Unit} (hx : Engine.Barren x) :
      (after (ofEngine x m : EStateM.Result Stop (Machine ω) Unit)).state.promises.keys = m.state.promises.keys := by
    rw [state_after_ofEngine]
    exact hx m.state
  cases r with
  | handle handler d => exact absurd rfl (hr handler d)
  | collect a index => exact hengine (Engine.barren_gather a index v)
  | race a => exact hengine (Engine.barren_settle a v)
  | adopt a => exact hengine (Engine.barren_settle a v)

theorem Event.made?_ending (d : Address) (result : Value) (r : EStateM.Result Fault State Unit) :
    (Event.ending d result r).made? = none := by cases r <;> rfl

namespace History

variable {x y : History}

/-- The promises there are have all been noted down. -/
def Listed (h : History) : Prop := h.state.promises.keys = h.events.filterMap Event.made?

/-- Nothing is noted down of a promise that would be new. -/
theorem Listed.of_keys {s s' : State} {calls calls' : List Address} {events new : List Event}
    (hx : Listed ⟨s, calls, events⟩) (h : s'.promises.keys = s.promises.keys) (hnew : ∀ e ∈ new, e.made? = none) :
    Listed ⟨s', calls', events ++ new⟩ := by
  unfold Listed
  rw [List.filterMap_append, List.filterMap_eq_nil_iff.mpr hnew, List.append_nil]
  exact h.trans hx

theorem Step.listed (h : Step x y) (hx : x.Sound) (hregular : ∀ e ∈ y.events, e.Regular) (hlisted : x.Listed) :
    y.Listed := by
  cases h with
  | operate operation =>
    -- the only step that adds to the roster
    obtain ⟨a, ha⟩ := Operation.exists_made (hregular _ (List.mem_append_right _ List.mem_cons_self))
    unfold Listed
    rw [Operation.keys_of_made hx.sane ha, ha, List.filterMap_append, ← hlisted]
    rfl
  | call h => exact hlisted.of_keys (congrArg Dict.keys h.shifts.promises) (List.forall_mem_singleton.mpr rfl)
  | conclude result =>
    exact hlisted.of_keys (Engine.barren_conclude _ result _) (List.forall_mem_singleton.mpr (Event.made?_ending _ _ _))
  | fail => exact hlisted.of_keys rfl (List.forall_mem_singleton.mpr rfl)
  | @pass s s' calls events d v h =>
    have hkeys := (Engine.barren_conclude d v s').trans (congrArg Dict.keys h.shifts.promises)
    exact hlisted.of_keys hkeys (List.forall_mem_singleton.mpr (Event.made?_ending _ _ _))
  | react h hr invoke journal =>
    exact (Activity.keys_runReaction invoke hr _ _).trans ((congrArg Dict.keys h.shifts.promises).trans hlisted)
  | receive h =>
    exact (Engine.barren_completeFetch _ _ _).trans ((congrArg Dict.keys h.shifts.promises).trans hlisted)
  | other h => exact (congrArg Dict.keys h.promises).trans hlisted

theorem Step.regular (h : Step x y) (hregular : ∀ e ∈ y.events, e.Regular) : ∀ e ∈ x.events, e.Regular :=
  fun e he ↦ hregular e (h.mem_events he)

theorem Reaches.listed (h : Reaches {} x) (hregular : ∀ e ∈ x.events, e.Regular) : x.Listed := by
  induction h with
  | refl => rfl
  | tail hreaches hstep ih =>
    exact hstep.listed (Reaches.sound hreaches sound_initial) hregular (ih (hstep.regular hregular))

end History

end Stepwise
