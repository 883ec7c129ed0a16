import Stepwise.Proofs.Promise.Sparing
import Stepwise.Proofs.State.Counting
/-!
Operations on stored data keep count of references: whatever they store they retain, and what they write
over they release.
-/

namespace Stepwise

theorem Reaction.allMade_values (reaction : Reaction) (n : Nat) : AllMade n reaction.values := by
  cases reaction with
  | handle handler derived =>
    cases handler with
    | none => exact List.forall_mem_nil _
    | some f => exact List.forall_mem_singleton.mpr trivial
  | _ => exact List.forall_mem_nil _

namespace Engine

variable {α β : Type} {outside : Address → Nat} {n m : Nat} {s : State} {q : Address}

/-- What an operation leaves that keeps count of the references beside those bound outside. Its result may
depend on how many numbers were handed out. -/
def Tallies (outside : Address → Nat) (A : Nat → α → Prop) (s : State) : EStateM.Result Fault State α → Prop
  | .ok a t => t.Tallied outside ∧ s.lastId ≤ t.lastId ∧ A t.lastId a
  | .error _ t => t.Tallied outside ∧ s.lastId ≤ t.lastId

/-- Such an operation, from when some numbers were handed out. -/
def Tallying (outside : Address → Nat) (n : Nat) (x : Engine α) (A : Nat → α → Prop) : Prop :=
  ∀ s : State, s.Tallied outside → n ≤ s.lastId → Tallies outside A s (x s)

/-- No condition on a result. -/
def whatever : Nat → α → Prop := fun _ _ ↦ True

variable {x : Engine α} {A : Nat → α → Prop} {B : Nat → β → Prop}

theorem Tallies.of_le {t : State} {r : EStateM.Result Fault State α} (h : Tallies outside A t r) (hle : s.lastId ≤ t.lastId) :
    Tallies outside A s r := by
  cases r with
  | ok a u => exact ⟨h.1, hle.trans h.2.1, h.2.2⟩
  | error f u => exact ⟨h.1, hle.trans h.2⟩

theorem Tallying.pure {a : α} (ha : ∀ m, n ≤ m → A m a) : Tallying outside n (Pure.pure a) A :=
  fun s hs hn ↦ ⟨hs, Nat.le_refl _, ha s.lastId hn⟩

theorem Tallying.bind {f : α → Engine β} (h : Tallying outside n x A)
    (hf : ∀ m a, n ≤ m → A m a → Tallying outside m (f a) B) : Tallying outside n (x >>= f) B := by
  intro s hs hn
  have hx := h s hs hn
  rw [bind_apply]
  generalize x s = r at hx
  cases r with
  | ok a t => exact (hf t.lastId a (hn.trans hx.2.1) hx.2.2 t hx.1 (Nat.le_refl _)).of_le hx.2.1
  | error f t => exact hx

theorem Tallying.seq {f : α → Engine β} (h : Tallying outside n x A)
    (hf : ∀ m a, n ≤ m → Tallying outside m (f a) B) : Tallying outside n (x >>= f) B :=
  h.bind fun m a hm _ ↦ hf m a hm

theorem tallying_newArray {vs : List Value} (hvs : AllMade n vs) :
    Tallying outside n (newArray vs) fun m v ↦ v.Made m :=
  fun _ hs hn ↦ ⟨hs.store (Nat.not_succ_le_self _) (fun v hv ↦ (hvs v hv).mono hn) rfl, Nat.le_succ _, Nat.le_refl _⟩

theorem tallying_newObject {fields : Dict Text Value} (hf : AllMade n fields.values) :
    Tallying outside n (newObject fields) fun m v ↦ v.Made m :=
  fun _ hs hn ↦
    ⟨hs.store (Nat.not_succ_le_self _) (fun v hv ↦ (hf v hv).mono hn) (List.append_nil _), Nat.le_succ _, Nat.le_refl _⟩

theorem tallying_setProperty (receiver : Value) (key : Text) {v : Value} (hv : v.Made n) :
    Tallying outside n (setProperty receiver key v) whatever := by
  intro s hs hn
  change Tallies outside whatever s (((liftM (s.heap.setProperty receiver key v) : Engine Heap) >>= fun heap ↦
    modify fun s ↦ { s with heap }) s)
  cases h : s.heap.setProperty receiver key v with
  | ok heap => exact ⟨hs.setProperty (hv.mono hn) h, Nat.le_refl _, trivial⟩
  | error f => exact ⟨hs, Nat.le_refl _⟩

theorem tallying_freshIdentity : Tallying outside n freshIdentity whatever :=
  fun _ hs _ ↦ ⟨⟨hs.covered, hs.outside_eq, hs.heap, hs.promises, hs.tasks⟩, Nat.le_refl _, trivial⟩

theorem tallying_say (level : Level) (content : List Value) : Tallying outside n (say level content) whatever := by
  intro s hs _
  have hnext := hs.withLastId (Nat.le_succ _)
  exact ⟨⟨hnext.covered, hnext.outside_eq, hnext.heap, hnext.promises, hnext.tasks⟩, Nat.le_succ _, trivial⟩

theorem tallying_schedule (kind : TaskKind) (description : Text) (job : Job) (line : Int) (hjob : AllMade n job.values) :
    Tallying outside n (schedule kind description job line) whatever := by
  intro s hs hn
  have hjob' : AllMade (s.lastId + 1) job.values := fun v hv ↦ (hjob v hv).mono (hn.trans (Nat.le_succ _))
  have hnext := hs.withLastId (Nat.le_succ _)
  refine ⟨hnext.withLoop fun task htask ↦ ?_, Nat.le_succ _, trivial⟩
  rcases State.mem_tasks_of_enqueue htask with htask | rfl
  · exact hnext.tasks task htask
  · exact hjob'

theorem tallying_createPromise : Tallying outside n createPromise whatever :=
  fun _ hs _ ↦ ⟨hs.createPromise _, Nat.le_succ _, trivial⟩

theorem tallying_promise (q : Address) :
    Tallying outside n (promise q) fun m p ↦ AllMade m (p.settlement ++ p.slots) := by
  intro s hs _
  cases hp : s.promises.get? q with
  | some p =>
    rw [promise_of_get? hp]
    exact ⟨hs, Nat.le_refl _, hs.promises p (Dict.mem_values_of_get? hp)⟩
  | none =>
    rw [promise_of_get?_eq_none hp]
    exact ⟨hs, Nat.le_refl _⟩

theorem tallying_modifyPromise (q : Address) {f : Promise → Promise} (hsettlement : ∀ p, (f p).settlement = p.settlement)
    (hslots : ∀ m p, n ≤ m → AllMade m p.slots → AllMade m (f p).slots) :
    Tallying outside n (modifyPromise q f) whatever :=
  fun s hs hn ↦ ⟨hs.modifyPromise q hsettlement fun p ↦ hslots s.lastId p hn, Nat.le_refl _, trivial⟩

theorem tallying_register (q : Address) (reaction : Reaction) :
    Tallying outside n (modifyPromise q fun p ↦ { p with reactions := p.reactions ++ [reaction] }) whatever :=
  tallying_modifyPromise q (fun _ ↦ rfl) fun _ _ _ hslots ↦ hslots

theorem tallying_scheduleReaction {v : Value} (reaction : Reaction) (hv : v.Made n) :
    Tallying outside n (scheduleReaction v reaction) whatever := by
  have hjob : AllMade n (Job.react reaction v).values := List.forall_mem_cons.mpr ⟨hv, reaction.allMade_values n⟩
  exact (tallying_schedule .microtask reaction.description _ 0 hjob).seq fun _ _ _ ↦ .pure fun _ _ ↦ trivial

theorem tallying_scheduleReactions {v : Value} (reactions : List Reaction) (hv : v.Made n) :
    Tallying outside n (reactions.forM (scheduleReaction v)) whatever := by
  induction reactions generalizing n with
  | nil => exact .pure fun _ _ ↦ trivial
  | cons reaction reactions ih => exact (tallying_scheduleReaction reaction hv).seq fun _ _ hm ↦ ih (hv.mono hm)

theorem tallying_settle (q : Address) {v : Value} (hv : v.Made n) : Tallying outside n (settle q v) whatever := by
  intro s hs hn
  cases hp : s.promises.get? q with
  | none =>
    rw [settle_of_get?_eq_none hp]
    exact ⟨hs, Nat.le_refl _⟩
  | some p =>
    cases hw : p.value? with
    | some w =>
      rw [settle_of_value? hp hw]
      exact ⟨hs, Nat.le_refl _, trivial⟩
    | none =>
      have hsettled := hs.settle hp hw (hv.mono hn)
      have hreactions := tallying_scheduleReactions p.reactions hv _ hsettled hn
      unfold settle
      rw [bind_apply, promise_of_get? hp]
      simp only [hw, Option.isNone_none, if_true]
      exact hreactions

theorem tallying_subscribe (q : Address) (reaction : Reaction) : Tallying outside n (subscribe q reaction) whatever := by
  refine (tallying_promise q).bind fun m p _ hp ↦ ?_
  cases hv : p.value? with
  | some v =>
    rw [Promise.settlement_of_some hv] at hp
    exact tallying_scheduleReaction reaction (hp v List.mem_cons_self)
  | none => exact tallying_register q reaction

theorem tallying_chain (q : Address) (handler : Option Function) : Tallying outside n (chain q handler) whatever :=
  tallying_createPromise.seq fun _ derived _ ↦
    (tallying_subscribe q (.handle handler derived)).seq fun _ _ _ ↦ .pure fun _ _ ↦ trivial

theorem tallying_fillSlot (q : Address) (index : Nat) {v : Value} (hv : v.Made n) :
    Tallying outside n (fillSlot q index v) whatever := by
  refine tallying_modifyPromise q (fun _ ↦ rfl) fun m p hm hslots w hw ↦ ?_
  rcases List.mem_or_eq_of_mem_set hw with hw | rfl
  · exact hslots w hw
  · exact hv.mono hm

theorem tallying_settleIfFull (q : Address) : Tallying outside n (settleIfFull q) whatever := by
  refine (tallying_promise q).bind fun m p _ hp ↦ ?_
  split
  · have hslots : AllMade m p.slots := (List.forall_mem_append.mp hp).2
    exact (tallying_newArray hslots).bind fun k v _ hv ↦ tallying_settle q hv
  · exact .pure fun _ _ ↦ trivial

theorem tallying_gather (q : Address) (index : Nat) {v : Value} (hv : v.Made n) :
    Tallying outside n (gather q index v) whatever :=
  (tallying_promise q).seq fun _ _ hm ↦
    (tallying_fillSlot q index (hv.mono hm)).seq fun _ _ _ ↦ tallying_settleIfFull q

theorem tallying_collectFrom (q : Address) (index : Nat) {vs : List Value} (hvs : AllMade n vs) :
    Tallying outside n (collectFrom q index vs) whatever := by
  induction vs generalizing index n with
  | nil => exact .pure fun _ _ ↦ trivial
  | cons v vs ih =>
    obtain ⟨hv, hrest⟩ := List.forall_mem_cons.mp hvs
    have hgoesOn (m : Nat) (hm : n ≤ m) : Tallying outside m (collectFrom q (index + 1) vs) whatever :=
      ih (index + 1) fun w hw ↦ (hrest w hw).mono hm
    have hfill (m : Nat) (w : Value) (hm : n ≤ m) (hw : w.Made m) : Tallying outside m
        (fillSlot q index w >>= fun _ ↦ collectFrom q (index + 1) vs) whatever :=
      (tallying_fillSlot q index hw).seq fun k _ hk ↦ hgoesOn k (hm.trans hk)
    cases v with
    | promise member =>
      refine (tallying_promise member).bind fun m p hm hp ↦ ?_
      cases hw : p.value? with
      | some w =>
        rw [Promise.settlement_of_some hw] at hp
        exact hfill m w hm (hp w List.mem_cons_self)
      | none => exact (tallying_register member _).seq fun k _ hk ↦ hgoesOn k (hm.trans hk)
    | _ => exact hfill n _ (Nat.le_refl n) hv

theorem tallying_all {vs : List Value} (hvs : AllMade n vs) : Tallying outside n (all vs) whatever := by
  refine tallying_createPromise.seq fun m q hm ↦ ?_
  have hslots (k : Nat) : AllMade k (List.replicate vs.length .null) := fun v hv ↦ by
    rw [List.eq_of_mem_replicate hv]
    trivial
  refine Tallying.seq (tallying_modifyPromise q (fun _ ↦ rfl) fun k _ _ _ ↦ hslots k) fun k _ hk ↦ ?_
  refine (tallying_collectFrom q 0 fun v hv ↦ (hvs v hv).mono (hm.trans hk)).seq fun _ _ _ ↦ ?_
  exact (tallying_settleIfFull q).seq fun _ _ _ ↦ .pure fun _ _ ↦ trivial

theorem tallying_raceFrom (q : Address) {vs : List Value} (hvs : AllMade n vs) :
    Tallying outside n (raceFrom q vs) whatever := by
  induction vs generalizing n with
  | nil => exact .pure fun _ _ ↦ trivial
  | cons v vs ih =>
    obtain ⟨hv, hrest⟩ := List.forall_mem_cons.mp hvs
    have hgoesOn (m : Nat) (hm : n ≤ m) : Tallying outside m (raceFrom q vs) whatever :=
      ih fun w hw ↦ (hrest w hw).mono hm
    have hsettle (m : Nat) (w : Value) (hm : n ≤ m) (hw : w.Made m) : Tallying outside m
        (settle q w >>= fun _ ↦ raceFrom q vs) whatever :=
      (tallying_settle q hw).seq fun k _ hk ↦ hgoesOn k (hm.trans hk)
    cases v with
    | promise member =>
      refine (tallying_promise member).bind fun m p hm hp ↦ ?_
      cases hw : p.value? with
      | some w =>
        rw [Promise.settlement_of_some hw] at hp
        exact hsettle m w hm (hp w List.mem_cons_self)
      | none => exact (tallying_register member _).seq fun k _ hk ↦ hgoesOn k (hm.trans hk)
    | _ => exact hsettle n _ (Nat.le_refl n) hv

theorem tallying_race {vs : List Value} (hvs : AllMade n vs) : Tallying outside n (race vs) whatever :=
  tallying_createPromise.seq fun _ q hm ↦
    (tallying_raceFrom q fun v hv ↦ (hvs v hv).mono hm).seq fun _ _ _ ↦ .pure fun _ _ ↦ trivial

theorem tallying_fetch (url : Text) (line : Int) : Tallying outside n (fetch url line) whatever :=
  tallying_createPromise.seq fun _ q _ ↦
    (tallying_schedule .macrotask _ (.fetched q url) line fun _ hv ↦ nomatch hv).seq fun _ _ _ ↦ .pure fun _ _ ↦ trivial

theorem tallying_completeFetch (q : Address) (url : Text) : Tallying outside n (completeFetch q url) whatever := by
  refine (tallying_newObject fun v hv ↦ ?_).bind fun m response _ hresponse ↦ tallying_settle q hresponse
  have hfields := Dict.mem_values_of_mem_values_ofList hv
  simp only [List.map_cons, List.map_nil, List.mem_cons, List.not_mem_nil, or_false] at hfields
  rcases hfields with rfl | rfl <;> trivial

end Engine

end Stepwise
