import Stepwise.Proofs.Promise.Making
import Stepwise.Proofs.Promise.Orderly
import Stepwise.Proofs.Promise.Standing
/-!
Operations on promises as rows of changes of how promises stand.
-/

namespace Stepwise

namespace State

variable {s t : State} {q : Address} {p : Promise} {r : Reaction}

theorem Ahead.of_promises_eq (hs : s.Ahead) (hpromises : t.promises = s.promises) (hlastId : s.lastId ≤ t.lastId) :
    t.Ahead := fun n hn ↦ hpromises ▸ hs n (Nat.lt_of_le_of_lt hlastId hn)

theorem Ahead.modify (hs : s.Ahead) {f : Promise → Promise} (hpromises : t.promises = s.promises.modify q f)
    (hlastId : s.lastId ≤ t.lastId) : t.Ahead := by
  intro n hn
  have hnone := hs n (Nat.lt_of_le_of_lt hlastId hn)
  rw [hpromises, Dict.get?_modify]
  split
  next hq => rw [← hq, hnone, Option.map_none]
  next => exact hnone

theorem ahead_created (hs : s.Ahead) : s.created.Ahead := by
  intro n hn
  have hlt : s.lastId + 1 < n := hn
  have hne : Address.promise n ≠ .promise (s.lastId + 1) := by
    rintro h
    cases h
    omega
  exact (Dict.get?_set _ _ _ _).trans ((if_neg hne).trans (hs n (by omega)))

theorem standing_created (hs : s.Ahead) : s.created.standing = s.standing := by
  have hnone : s.promises.get? (.promise (s.lastId + 1)) = none := hs _ (Nat.lt_succ_self _)
  have hget? : ∀ b, s.created.promises.get? b = if b = .promise (s.lastId + 1) then some {} else s.promises.get? b :=
    fun b ↦ Dict.get?_set _ _ _ _
  have hqueued : s.created.queued = s.queued ++ [] := (List.append_nil _).symm
  rw [standing_of_get? hget? hqueued]
  unfold standing
  congr 1
  · refine Function.update_eq_self_iff.mpr ?_
    unfold value?
    rw [hnone]
    rfl
  · refine Function.update_eq_self_iff.mpr ?_
    unfold waiting
    rw [hnone]
    rfl
  · exact List.append_nil _

end State

namespace Engine

open State

variable {α β : Type} {x : Engine α} {f : α → Engine β} {s : State} {q a : Address} {p : Promise} {r : Reaction}
  {v : Value} {new : Address → Reaction → Prop} {gives : Standing → Address → Value → Prop}

theorem standing_settle (hp : s.promises.get? q = some p) (v : Value) : ∃ t, settle q v s = .ok () t ∧
    t.standing = s.standing.settle q v ∧ (s.Ahead → t.Ahead) := by
  have hvalue : s.standing.value? q = p.value? := value?_of_get? hp
  cases hw : p.value? with
  | some w =>
    rw [hw] at hvalue
    exact ⟨s, settle_of_value? hp hw v, (Standing.settle_of_some hvalue v).symm, id⟩
  | none =>
    rw [hw] at hvalue
    let s₁ : State := { s with
      promises := s.promises.modify q fun p ↦ { p with value? := some v, reactions := [] }
      heap := s.heap.retain v }
    obtain ⟨t, ht, h⟩ := queues_scheduleReactions v p.reactions s₁
    have hget? (b : Address) : t.promises.get? b =
        if b = q then some { p with value? := some v, reactions := [] } else s.promises.get? b := by
      rw [h.promises, Dict.get?_modify, hp]
      rfl
    refine ⟨t, ?_, ?_, fun hs ↦ hs.modify h.promises h.lastId⟩
    · unfold settle
      rw [bind_apply, promise_of_get? hp]
      simp only [hw, Option.isNone_none, if_true]
      exact ht
    · rw [standing_of_get? hget? h.queued, Standing.settle_of_none hvalue]
      exact congrArg (Standing.mk _ _) (by rw [← waiting_of_get? hp]; rfl)

theorem standing_register (hp : s.promises.get? q = some p) (hpending : p.value? = none) (r : Reaction) :
    (after (modifyPromise q (fun p ↦ { p with reactions := p.reactions ++ [r] }) s)).standing =
      s.standing.register q r := by
  have hvalue : s.standing.value? q = none := (value?_of_get? hp).trans hpending
  have hget? (b : Address) : (s.promises.modify q fun p ↦ { p with reactions := p.reactions ++ [r] }).get? b =
      if b = q then some { p with reactions := p.reactions ++ [r] } else s.promises.get? b := by
    rw [Dict.get?_modify, hp]
    rfl
  have hqueued : (after (modifyPromise q (fun p ↦ { p with reactions := p.reactions ++ [r] }) s)).queued =
      s.queued ++ [] := (List.append_nil _).symm
  rw [standing_of_get? hget? hqueued, Standing.register_of_none hvalue, List.append_nil]
  dsimp only
  rw [hpending, ← waiting_of_get? hp, Function.update_eq_self_iff.mpr hvalue.symm]
  rfl

theorem standing_subscribe (hp : s.promises.get? q = some p) (r : Reaction) : ∃ t, subscribe q r s = .ok () t ∧
    t.standing = s.standing.register q r ∧ (s.Ahead → t.Ahead) := by
  unfold subscribe
  rw [bind_apply, promise_of_get? hp]
  dsimp only
  cases hw : p.value? with
  | none => exact ⟨_, rfl, standing_register hp hw r, fun hs ↦ hs.modify rfl (Nat.le_refl _)⟩
  | some w =>
    obtain ⟨t, ht, h⟩ := queues_scheduleReaction w r s
    have hvalue : s.standing.value? q = some w := (value?_of_get? hp).trans hw
    refine ⟨t, ht, ?_, fun hs ↦ hs.of_promises_eq h.promises h.lastId⟩
    have hstanding := standing_congr (s := { s with loop := t.loop }) (t := t) (fun b ↦ by rw [h.promises]) rfl
    rw [hstanding, Standing.register_of_some hvalue]
    exact congrArg (Standing.mk _ _) h.queued

/-- An operation that changes how promises stand by certain registrations and certain settlements only. -/
def Changing (new : Address → Reaction → Prop) (gives : Standing → Address → Value → Prop) (x : Engine α) : Prop :=
  ∀ s : State, s.Ahead → s.Becomes new gives (after (x s))

theorem becomes_bind (hx : s.Becomes new gives (after (x s))) (hf : ∀ a, Changing new gives (f a)) :
    s.Becomes new gives (after ((x >>= f) s)) := by
  rw [bind_apply]
  cases hr : x s with
  | ok a t =>
    rw [hr] at hx
    exact hx.trans (hf a t hx.ahead)
  | error e t =>
    rw [hr] at hx
    exact hx

theorem Changing.pure (a : α) : Changing new gives (Pure.pure a : Engine α) := fun _ hs ↦ .refl hs

theorem Changing.bind (hx : Changing new gives x) (hf : ∀ a, Changing new gives (f a)) :
    Changing new gives (x >>= f) := fun s hs ↦ becomes_bind (hx s hs) hf

theorem Changing.of_apart (h : ∀ s : State, s.Apart (after (x s))) : Changing new gives x := by
  intro s hs
  have hx := h s
  refine .of_standing_eq (hs.of_promises_eq hx.promises hx.lastId) (standing_congr (fun b ↦ by rw [hx.promises]) ?_)
  unfold queued
  rw [hx.loop]

theorem changing_promise {f : Promise → Engine β}
    (hf : ∀ (s : State) p, s.Ahead → s.promises.get? q = some p → s.Becomes new gives (after (f p s))) :
    Changing new gives (promise q >>= f) := by
  intro s hs
  rw [bind_apply]
  cases hp : s.promises.get? q with
  | none =>
    rw [promise_of_get?_eq_none hp]
    exact .refl hs
  | some p =>
    rw [promise_of_get? hp]
    exact hf s p hs hp

theorem becomes_register (hs : s.Ahead) (hp : s.promises.get? q = some p) (hpending : p.value? = none) (hr : new q r) :
    s.Becomes new gives (after (modifyPromise q (fun p ↦ { p with reactions := p.reactions ++ [r] }) s)) := by
  refine ⟨hs.modify rfl (Nat.le_refl _), ?_⟩
  rw [standing_register hp hpending]
  exact .single (.register hr)

theorem changing_modifyPromise {f : Promise → Promise}
    (hf : ∀ p, (f p).value? = p.value? ∧ (f p).reactions = p.reactions) : Changing new gives (modifyPromise q f) := by
  intro s hs
  refine .of_standing_eq (hs.modify rfl (Nat.le_refl _)) ?_
  unfold standing
  congr 1
  · funext b
    unfold value?
    change ((s.promises.modify q f).get? b).bind _ = _
    rw [Dict.get?_modify]
    split
    next hb =>
      rw [hb]
      cases s.promises.get? q with
      | none => rfl
      | some p => exact (hf p).1
    next => rfl
  · funext b
    unfold waiting
    change (((s.promises.modify q f).get? b).map _).getD [] = _
    rw [Dict.get?_modify]
    split
    next hb =>
      rw [hb]
      cases s.promises.get? q with
      | none => rfl
      | some p => exact (hf p).2
    next => rfl

theorem becomes_create {f : Address → Engine β} (hs : s.Ahead) (hf : Changing new gives (f (.promise (s.lastId + 1)))) :
    s.Becomes new gives (after ((createPromise >>= f) s)) := by
  have hcreated : s.Becomes new gives s.created := .of_standing_eq (ahead_created hs) (standing_created hs)
  exact hcreated.trans (hf s.created hcreated.ahead)

theorem becomes_settle (hs : s.Ahead) (hv : gives s.standing q v) : s.Becomes new gives (after (settle q v s)) := by
  cases hp : s.promises.get? q with
  | none =>
    rw [settle_of_get?_eq_none hp]
    exact .refl hs
  | some p =>
    obtain ⟨t, ht, hstanding, hahead⟩ := standing_settle hp v
    rw [ht]
    exact ⟨hahead hs, hstanding ▸ .single (.settle hv)⟩

theorem changing_settle (hv : ∀ c, gives c q v) : Changing new gives (settle q v) := fun _ hs ↦ becomes_settle hs (hv _)

theorem changing_subscribe (hr : new q r) : Changing new gives (subscribe q r) := by
  intro s hs
  cases hp : s.promises.get? q with
  | none =>
    unfold subscribe
    rw [bind_apply, promise_of_get?_eq_none hp]
    exact .refl hs
  | some p =>
    obtain ⟨t, ht, hstanding, hahead⟩ := standing_subscribe hp r
    rw [ht]
    exact ⟨hahead hs, hstanding ▸ .single (.register hr)⟩

theorem changing_fillSlot (index : Nat) (v : Value) : Changing new gives (fillSlot q index v) :=
  changing_modifyPromise fun _ ↦ ⟨rfl, rfl⟩

theorem changing_settleIfFull (hgives : ∀ c b, gives c a (.object b)) : Changing new gives (settleIfFull a) := by
  refine changing_promise fun s p hs hp ↦ ?_
  split
  · have harray : s.Becomes new gives (after (newArray p.slots s)) :=
      Changing.of_apart (apart_newArray p.slots) s hs
    exact harray.trans (changing_settle (fun c ↦ hgives c _) _ harray.ahead)
  · exact .refl hs

theorem changing_gather (hgives : ∀ c b, gives c a (.object b)) (index : Nat) (v : Value) :
    Changing new gives (gather a index v) :=
  changing_promise fun s _ hs _ ↦ (changing_fillSlot index v).bind (fun _ ↦ changing_settleIfFull hgives) s hs

theorem changing_collectFrom (index : Nat) {vs : List Value}
    (hnew : ∀ q i, .promise q ∈ vs → new q (.collect a i)) : Changing new gives (collectFrom a index vs) := by
  induction vs generalizing index with
  | nil => exact .pure ()
  | cons v vs ih =>
    have hrest := ih (index + 1) fun q i hq ↦ hnew q i (List.mem_cons_of_mem v hq)
    have hfill (w : Value) : Changing new gives (fillSlot a index w >>= fun _ ↦ collectFrom a (index + 1) vs) :=
      (changing_fillSlot index w).bind fun _ ↦ hrest
    cases v with
    | promise member =>
      refine changing_promise fun s p hs hp ↦ ?_
      cases hw : p.value? with
      | some w => exact hfill w s hs
      | none => exact becomes_bind (becomes_register hs hp hw (hnew member index List.mem_cons_self)) fun _ ↦ hrest
    | _ => exact hfill _

theorem changing_raceFrom {vs : List Value} (hnew : ∀ q, .promise q ∈ vs → new q (.race a))
    (hgives : ∀ c v w, v ∈ vs → c.delivered? v = some w → gives c a w) : Changing new gives (raceFrom a vs) := by
  induction vs with
  | nil => exact .pure ()
  | cons v vs ih =>
    have hrest := ih (fun q hq ↦ hnew q (List.mem_cons_of_mem v hq)) fun c v' w hv' ↦
      hgives c v' w (List.mem_cons_of_mem v hv')
    have hsettle (s : State) (hs : s.Ahead) (w : Value) (hw : s.standing.delivered? v = some w) :
        s.Becomes new gives (after ((settle a w >>= fun _ ↦ raceFrom a vs) s)) :=
      becomes_bind (becomes_settle hs (hgives _ v w List.mem_cons_self hw)) fun _ ↦ hrest
    cases v with
    | promise member =>
      refine changing_promise fun s p hs hp ↦ ?_
      cases hw : p.value? with
      | some w => exact hsettle s hs w ((value?_of_get? hp).trans hw)
      | none => exact becomes_bind (becomes_register hs hp hw (hnew member List.mem_cons_self)) fun _ ↦ hrest
    | _ => exact fun s hs ↦ hsettle s hs _ rfl

theorem changing_scheduleFetch (description : Text) (url : Text) (line : Int) :
    Changing new gives (schedule .macrotask description (.fetched q url) line) := fun _ hs ↦
  .of_standing_eq (hs.of_promises_eq rfl (Nat.le_succ _)) (standing_congr (fun _ ↦ rfl) rfl)

theorem changing_completeFetch (hgives : ∀ c b, gives c q (.object b)) (url : Text) :
    Changing new gives (completeFetch q url) := by
  intro s hs
  let fields : Dict Text Value :=
    Dict.ofList [(Text.ofString "status", .ofInt okStatus), (Text.ofString "url", .string url)]
  have hobject : s.Becomes new gives (after (newObject fields s)) := Changing.of_apart (apart_newObject fields) s hs
  have hsettle : Changing new gives (settle q (.object (.object (s.lastId + 1)))) :=
    changing_settle fun c ↦ hgives c (.object (s.lastId + 1))
  exact hobject.trans (hsettle _ hobject.ahead)

/-- A result is passed on, at once or when the promise that it is has a value. -/
theorem changing_conclude (hnew : ∀ q, v = .promise q → new q (.adopt a)) (hgives : v.Final → ∀ c, gives c a v) :
    Changing new gives (conclude a v) := by
  cases v with
  | promise q => exact changing_subscribe (hnew q rfl)
  | _ => exact changing_settle (hgives nofun)

section Operations

variable {d : Address} {t : State} {handler : Option Function} {inputs : List Value}

/-- A promise is derived by a reaction to another one, if there is that one. -/
theorem chain_cases (hs : s.Ahead) (q : Address) (handler : Option Function) :
    (∃ f, chain q handler s = .error f s.created) ∨
      ∃ t, chain q handler s = .ok (.promise (s.lastId + 1)) t ∧ t.Ahead ∧
        t.standing = s.standing.register q (.handle handler (.promise (s.lastId + 1))) := by
  have hcreate : createPromise s = .ok (.promise (s.lastId + 1)) s.created := rfl
  unfold chain
  rw [bind_apply, hcreate]
  dsimp only
  rw [bind_apply]
  cases hp : s.created.promises.get? q with
  | none =>
    have hunknown : s.created.promises.contains q = false := by rw [Dict.contains, hp, Option.isSome_none]
    rw [subscribe_of_not_contains hunknown]
    exact .inl ⟨_, rfl⟩
  | some p =>
    obtain ⟨t, ht, hstanding, hahead⟩ := standing_subscribe hp (.handle handler (.promise (s.lastId + 1)))
    rw [ht]
    exact .inr ⟨t, rfl, hahead (ahead_created hs), standing_created hs ▸ hstanding⟩

theorem becomes_chain (hs : s.Ahead) (hnew : ∀ d t, chain q handler s = .ok d t → new q (.handle handler d)) :
    s.Becomes new gives (after (chain q handler s)) := by
  rcases chain_cases hs q handler with ⟨f, hchain⟩ | ⟨t, hchain, hahead, hstanding⟩
  · rw [hchain]
    exact .of_standing_eq (ahead_created hs) (standing_created hs)
  · have hregister : Standing.Change new gives s.standing _ := .register (hnew _ t hchain)
    rw [hchain]
    exact ⟨hahead, hstanding ▸ .single hregister⟩

theorem standing_chain (hs : s.Ahead) (h : chain q handler s = .ok d t) :
    t.standing = s.standing.register q (.handle handler d) := by
  rcases chain_cases hs q handler with ⟨f, hchain⟩ | ⟨t', hchain, -, hstanding⟩
  · cases hchain.symm.trans h
  · cases hchain.symm.trans h
    exact hstanding

theorem becomes_all (hs : s.Ahead) (hnew : ∀ q i, .promise q ∈ inputs → new q (.collect (.promise (s.lastId + 1)) i))
    (hgives : ∀ c b, gives c (.promise (s.lastId + 1)) (.object b)) : s.Becomes new gives (after (all inputs s)) := by
  refine becomes_create hs (.bind (changing_modifyPromise fun p ↦ ⟨rfl, rfl⟩) fun _ ↦ ?_)
  refine .bind (changing_collectFrom 0 hnew) fun _ ↦ .bind (changing_settleIfFull hgives) fun _ ↦ .pure _

theorem becomes_race (hs : s.Ahead) (hnew : ∀ q, .promise q ∈ inputs → new q (.race (.promise (s.lastId + 1))))
    (hgives : ∀ c v w, v ∈ inputs → c.delivered? v = some w → gives c (.promise (s.lastId + 1)) w) :
    s.Becomes new gives (after (race inputs s)) :=
  becomes_create hs ((changing_raceFrom hnew hgives).bind fun _ ↦ .pure _)

theorem becomes_fetch (hs : s.Ahead) (url : Text) (line : Int) : s.Becomes new gives (after (fetch url line s)) :=
  becomes_create hs ((changing_scheduleFetch _ url line).bind fun _ ↦ .pure _)

end Operations

end Engine

end Stepwise
