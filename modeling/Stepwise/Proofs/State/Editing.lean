import Stepwise.Proofs.State.Counted
import Stepwise.Proofs.State.Numbering
/-!
Operations are rows of edits, as long as what they are handed is known. None of them raises a fault that only a
state out of order could give rise to.
-/

namespace Stepwise

/-- No reference dangles, and no number is ahead. -/
structure State.Proper (s : State) : Prop where
  whole : s.Whole
  numbered : s.Numbered

theorem State.Unfolds.proper {s t : State} {handed : List Bearer} (h : s.Unfolds handed t) (hs : s.Proper) : t.Proper :=
  ⟨h.whole hs.whole, h.numbered hs.numbered⟩

namespace Engine

open State

variable {α β : Type} {s t : State} {A : State → α → Prop} {B : State → β → Prop}

/-- What an operation leaves that is a row of edits, with a condition on its result. -/
def Edits (A : State → α → Prop) (s : State) : EStateM.Result Fault State α → Prop
  | .ok a t => (∃ handed, s.Unfolds handed t) ∧ A t a
  | .error f t => (∃ handed, s.Unfolds handed t) ∧ f.isCorruption = false

/-- No condition on a result. -/
def anyResult : State → α → Prop := fun _ _ ↦ True

/-- All values of a list are known. -/
abbrev AllKnown (s : State) (vs : List Value) : Prop := ∀ v ∈ vs, s.Knows v

theorem AllKnown.grows {vs : List Value} (h : AllKnown s vs) (hst : s.Grows t) : AllKnown t vs := fun v hv ↦
  hst.knows (h v hv)

theorem Edits.ok {a : α} (ha : A s a) : Edits A s (.ok a s) := ⟨⟨[], .refl⟩, ha⟩

theorem Edits.fault {f : Fault} (hf : f.isCorruption = false) : Edits A s (.error f s) := ⟨⟨[], .refl⟩, hf⟩

theorem Edits.single {a : α} {new : List Bearer} (h : s.Edit new t) (ha : A t a) : Edits A s (.ok a t) :=
  ⟨⟨[] ++ new, .edit .refl h⟩, ha⟩

theorem Edits.of_unfolds {handed : List Bearer} {r : EStateM.Result Fault State α} (h : s.Unfolds handed t)
    (hr : Edits A t r) : Edits A s r := by
  cases r with
  | ok a u =>
    obtain ⟨⟨handed', h'⟩, ha⟩ := hr
    exact ⟨⟨_, h.trans h'⟩, ha⟩
  | error f u =>
    obtain ⟨⟨handed', h'⟩, hf⟩ := hr
    exact ⟨⟨_, h.trans h'⟩, hf⟩

theorem Edits.bind {x : Engine α} {f : α → Engine β} (hs : s.Proper) (h : Edits A s (x s))
    (hf : ∀ t a, t.Proper → s.Grows t → A t a → Edits B t (f a t)) : Edits B s ((x >>= f) s) := by
  rw [bind_apply]
  generalize x s = r at h
  cases r with
  | ok a t =>
    obtain ⟨⟨handed, hrow⟩, ha⟩ := h
    exact (hf t a (hrow.proper hs) hrow.grows ha).of_unfolds hrow
  | error f t => exact h

theorem Edits.seq {x : Engine α} {f : α → Engine β} (hs : s.Proper) (h : Edits A s (x s))
    (hf : ∀ t a, t.Proper → s.Grows t → Edits B t (f a t)) : Edits B s ((x >>= f) s) :=
  h.bind hs fun t a ht hst _ ↦ hf t a ht hst

theorem knows_stored {address : Address} (h : address ∈ s.heap.keys) : s.Knows (.object address) :=
  Option.ne_none_iff_exists'.mp fun hnone ↦ Dict.get?_eq_none_iff.mp hnone h

theorem edits_freshIdentity (s : State) : Edits anyResult s (freshIdentity s) := .single .identifies trivial

section Stored

variable (hs : s.Proper)
include hs

/-- An address with the next number is new to the heap, and known behind. -/
theorem edits_store {address : Address} {cell : Cell} {contents : List Value} (hnumber : address.number = s.lastId + 1)
    (hvs : AllKnown s cell.held) : Edits State.Knows s (.ok (Value.object address)
      { s with lastId := s.lastId + 1, heap := s.heap.store address cell contents }) := by
  have hfresh : s.heap.get? address = none := hs.numbered.heap_get?_eq_none (by omega)
  refine .single (.stores hnumber hfresh hvs contents) (knows_stored ?_)
  rw [Heap.keys_store hfresh]
  exact List.mem_append_right _ List.mem_cons_self

theorem edits_newArray {vs : List Value} (hvs : AllKnown s vs) : Edits State.Knows s (newArray vs s) :=
  edits_store hs rfl hvs

theorem edits_newObject {fields : Dict Text Value} (hf : AllKnown s fields.values) :
    Edits State.Knows s (newObject fields s) :=
  edits_store hs rfl fun v hv ↦ (List.mem_append.mp hv).elim (hf v) (absurd · List.not_mem_nil)

theorem edits_createPromise : Edits (fun t q ↦ t.Knows (.promise q)) s (createPromise s) := by
  have hfresh : s.promises.get? (.promise (s.lastId + 1)) = none :=
    hs.numbered.promises_get?_eq_none (Nat.lt_succ_self _)
  refine .single (.promises rfl hfresh) ⟨{}, ?_⟩
  rw [Dict.get?_set, if_pos rfl]

end Stored

theorem edits_setProperty (receiver : Value) (key : Text) {v : Value} (hv : s.Knows v) :
    Edits anyResult s (setProperty receiver key v s) := by
  change Edits anyResult s (((liftM (s.heap.setProperty receiver key v) : Engine Heap) >>= fun heap ↦
    modify fun s ↦ { s with heap }) s)
  cases h : s.heap.setProperty receiver key v with
  | ok heap => exact .single (.writes hv h) trivial
  | error f =>
    exact .fault (Fault.isCorruption_of_isInternal (Heap.computes_setProperty s.heap receiver key v f h))

theorem edits_say (level : Level) {content : List Value} (hvs : AllKnown s content) :
    Edits anyResult s (say level content s) := .single (.prints level hvs) trivial

theorem edits_schedule (kind : TaskKind) (description : Text) {job : Job} (line : Int)
    (hjob : AllKnown s job.references) : Edits anyResult s (schedule kind description job line s) :=
  .single (@Edit.schedules s ⟨s.lastId + 1, kind, description, job, s.loop.scheduled + 1, line⟩ rfl rfl hjob) trivial

variable {q : Address} {v : Value}

theorem edits_declare (name : String) (kind : BindingKind) (scope : Option Nat) (hv : s.Knows v) :
    Edits anyResult s (declare name v kind scope s) := by
  rw [declare_apply]
  cases hid : scope.elim s.headId .ok with
  | error f =>
    refine .fault ?_
    cases scope with
    | none => exact s.raises_headId f hid
    | some id => cases hid
  | ok id =>
    dsimp only
    cases hfound : s.scope? id with
    | none => exact .fault rfl
    | some found =>
      obtain rfl : found.id = id := id_of_scope? hfound
      have hbinds := Edit.binds name hfound hv
      have hdeclares := Edit.declares name kind found.id (hbinds.knows hv)
      exact ⟨⟨_, .edit (.edit .refl hbinds) hdeclares⟩, trivial⟩

theorem edits_assign (name : String) (hv : s.Knows v) : Edits anyResult s (assign name v s) := by
  rw [assign_apply]
  cases h : s.binder? name with
  | error f => exact .fault (s.raises_binder? name f h)
  | ok scope =>
    cases scope with
    | none => exact edits_declare name .blockScoped none hv
    | some scope => exact .single (.binds name (of_binder? h).1 hv) trivial

theorem edits_capture (s : State) : Edits anyResult s (capture s) := by
  obtain ⟨ids, captured, h, hids, hcaptured⟩ | ⟨f, h, hfault⟩ := capture_cases s
  · rw [h]
    refine .single (.captures fun id hid ↦ ?_) trivial
    exact (hcaptured id hid).elim (List.mem_append_right _) (mem_of_visibleIds hids)
  · rw [h]
    exact .fault hfault

theorem edits_promise (hq : s.Knows (.promise q)) :
    Edits (fun t p ↦ t = s ∧ s.promises.get? q = some p) s (promise q s) := by
  obtain ⟨p, hp⟩ := hq
  rw [promise_of_get? hp]
  exact .ok ⟨rfl, hp⟩

theorem known_references {p : Promise} (hs : s.Proper) (hp : s.promises.get? q = some p) : AllKnown s p.references :=
  hs.whole.promises p (Dict.mem_values_of_get? hp)

theorem knows_value {p : Promise} (hs : s.Proper) (hp : s.promises.get? q = some p) (hv : p.value? = some v) :
    s.Knows v :=
  known_references hs hp v (List.mem_append_left _ (List.mem_append_left _ (Option.mem_toList.mpr hv)))

theorem edits_scheduleReaction {reaction : Reaction} (hv : s.Knows v) (hr : AllKnown s reaction.references) :
    Edits anyResult s (scheduleReaction v reaction s) :=
  edits_schedule .microtask reaction.description 0 (List.forall_mem_cons.mpr ⟨hv, hr⟩)

theorem edits_scheduleReactions {reactions : List Reaction} (hs : s.Proper) (hv : s.Knows v)
    (hr : ∀ reaction ∈ reactions, AllKnown s reaction.references) :
    Edits anyResult s (reactions.forM (scheduleReaction v) s) := by
  induction reactions generalizing s with
  | nil => exact .ok trivial
  | cons reaction reactions ih =>
    obtain ⟨hreaction, hrest⟩ := List.forall_mem_cons.mp hr
    refine (edits_scheduleReaction hv hreaction).seq hs fun t _ ht hst ↦ ih ht (hst.knows hv) ?_
    exact fun other hother ↦ (hrest other hother).grows hst

theorem edits_register {reaction : Reaction} (q : Address) (hr : AllKnown s reaction.references) :
    Edits anyResult s (modifyPromise q (fun p ↦ { p with reactions := p.reactions ++ [reaction] }) s) := by
  refine .single (.revises q (fun _ ↦ rfl) fun p v hv ↦ ?_) trivial
  have hv : v ∈ p.value?.toList ++ p.slots ++ (p.reactions ++ [reaction]).flatMap Reaction.references := hv
  rw [List.flatMap_append, List.flatMap_singleton, ← List.append_assoc] at hv
  exact (List.mem_append.mp hv).imp_right (hr v)

theorem edits_fillSlot (q : Address) (index : Nat) (hv : s.Knows v) : Edits anyResult s (fillSlot q index v s) := by
  refine .single (.revises q (fun _ ↦ rfl) fun p w hw ↦ ?_) trivial
  have hw : w ∈ p.value?.toList ++ p.slots.set index v ++ p.reactions.flatMap Reaction.references := hw
  simp only [Promise.references, List.mem_append] at hw ⊢
  rcases hw with (hw | hw) | hw
  · exact .inl (.inl (.inl hw))
  · rcases List.mem_or_eq_of_mem_set hw with hw | rfl
    · exact .inl (.inl (.inr hw))
    · exact .inr hv
  · exact .inl (.inr hw)

theorem edits_settle (hs : s.Proper) (hq : s.Knows (.promise q)) (hv : s.Knows v) :
    Edits anyResult s (settle q v s) := by
  obtain ⟨p, hp⟩ := hq
  cases hw : p.value? with
  | some w =>
    rw [settle_of_value? hp hw]
    exact .ok trivial
  | none =>
    have hedit := State.Edit.settles hp hw hv
    have hrow := State.Unfolds.edit .refl hedit
    have hreactions : ∀ reaction ∈ p.reactions, AllKnown s reaction.references := fun reaction hreaction w hw ↦
      known_references hs hp w (List.mem_append_right _ (List.mem_flatMap.mpr ⟨reaction, hreaction, hw⟩))
    have hscheduled := edits_scheduleReactions (hrow.proper hs) (hedit.knows hv) fun reaction hreaction ↦
      (hreactions reaction hreaction).grows hedit.grows
    unfold settle
    rw [bind_apply, promise_of_get? hp]
    simp only [hw, Option.isNone_none, if_true]
    exact hscheduled.of_unfolds hrow

theorem edits_subscribe {reaction : Reaction} (hs : s.Proper) (hq : s.Knows (.promise q))
    (hr : AllKnown s reaction.references) : Edits anyResult s (subscribe q reaction s) := by
  refine (edits_promise hq).bind hs fun t p _ _ hp ↦ ?_
  obtain ⟨rfl, hp⟩ := hp
  cases hv : p.value? with
  | none => exact edits_register q hr
  | some v => exact edits_scheduleReaction (knows_value hs hp hv) hr

theorem edits_chain {handler : Option Function} (hs : s.Proper) (hq : s.Knows (.promise q)) :
    Edits (fun t q ↦ t.Knows (.promise q)) s (chain q handler s) := by
  refine (edits_createPromise hs).bind hs fun t derived ht hst hderived ↦ ?_
  have hreferences : AllKnown t (Reaction.handle handler derived).references := by
    refine List.forall_mem_cons.mpr ⟨hderived, fun v hv ↦ ?_⟩
    obtain ⟨f, -, rfl⟩ := List.mem_map.mp (Option.toList_map .. ▸ hv)
    trivial
  exact (edits_subscribe ht (hst.knows hq) hreferences).seq ht fun u _ _ htu ↦ .ok (htu.knows hderived)

theorem edits_settleIfFull (hs : s.Proper) (hq : s.Knows (.promise q)) : Edits anyResult s (settleIfFull q s) := by
  refine (edits_promise hq).bind hs fun t p _ _ hp ↦ ?_
  obtain ⟨rfl, hp⟩ := hp
  split
  · have hslots : AllKnown t p.slots := fun v hv ↦
      known_references hs hp v (List.mem_append_left _ (List.mem_append_right _ hv))
    exact (edits_newArray hs hslots).bind hs fun u v hu htu hv ↦ edits_settle hu (htu.knows hq) hv
  · exact .ok trivial

theorem edits_gather (index : Nat) (hs : s.Proper) (hq : s.Knows (.promise q)) (hv : s.Knows v) :
    Edits anyResult s (gather q index v s) := by
  refine (edits_promise hq).seq hs fun t _ ht hst ↦ ?_
  exact (edits_fillSlot q index (hst.knows hv)).seq ht fun u _ hu htu ↦
    edits_settleIfFull hu (htu.knows (hst.knows hq))

theorem edits_collectFrom (index : Nat) {vs : List Value} (hs : s.Proper) (hq : s.Knows (.promise q))
    (hvs : AllKnown s vs) : Edits anyResult s (collectFrom q index vs s) := by
  induction vs generalizing index s with
  | nil => exact .ok trivial
  | cons v vs ih =>
    obtain ⟨hv, hrest⟩ := List.forall_mem_cons.mp hvs
    have hgoesOn (t : State) (ht : t.Proper) (hst : s.Grows t) : Edits anyResult t (collectFrom q (index + 1) vs t) :=
      ih (index + 1) ht (hst.knows hq) (AllKnown.grows hrest hst)
    have hfill (w : Value) (hw : s.Knows w) :
        Edits anyResult s ((fillSlot q index w >>= fun _ ↦ collectFrom q (index + 1) vs) s) :=
      (edits_fillSlot q index hw).seq hs fun t _ ht hst ↦ hgoesOn t ht hst
    cases v with
    | promise member =>
      refine (edits_promise hv).bind hs fun t p _ _ hp ↦ ?_
      obtain ⟨rfl, hp⟩ := hp
      cases hw : p.value? with
      | some w => exact hfill w (knows_value hs hp hw)
      | none =>
        have hreferences : AllKnown t (Reaction.collect q index).references := List.forall_mem_singleton.mpr hq
        exact (edits_register member hreferences).seq hs fun u _ hu htu ↦ hgoesOn u hu htu
    | _ => exact hfill _ hv

theorem edits_all {vs : List Value} (hs : s.Proper) (hvs : AllKnown s vs) :
    Edits (fun t q ↦ t.Knows (.promise q)) s (all vs s) := by
  refine (edits_createPromise hs).bind hs fun t q ht hst hq ↦ ?_
  have hslots : Edits anyResult t (modifyPromise q
      (fun p ↦ { p with slots := List.replicate vs.length .null, remaining := vs.length }) t) := by
    refine .single (.revises q (fun _ ↦ rfl) fun p w hw ↦ ?_) trivial
    have hw : w ∈ p.value?.toList ++ List.replicate vs.length .null ++ p.reactions.flatMap Reaction.references := hw
    simp only [Promise.references, List.mem_append] at hw ⊢
    rcases hw with (hw | hw) | hw
    · exact .inl (.inl (.inl hw))
    · rw [List.eq_of_mem_replicate hw]
      exact .inr trivial
    · exact .inl (.inr hw)
  refine hslots.seq ht fun u _ hu htu ↦ ?_
  refine (edits_collectFrom 0 hu (htu.knows hq) ((hvs.grows hst).grows htu)).seq hu fun w _ hw huw ↦ ?_
  have hqw := huw.knows (htu.knows hq)
  exact (edits_settleIfFull hw hqw).seq hw fun x _ _ hwx ↦ .ok (hwx.knows hqw)

theorem edits_raceFrom {vs : List Value} (hs : s.Proper) (hq : s.Knows (.promise q)) (hvs : AllKnown s vs) :
    Edits anyResult s (raceFrom q vs s) := by
  induction vs generalizing s with
  | nil => exact .ok trivial
  | cons v vs ih =>
    obtain ⟨hv, hrest⟩ := List.forall_mem_cons.mp hvs
    have hgoesOn (t : State) (ht : t.Proper) (hst : s.Grows t) : Edits anyResult t (raceFrom q vs t) :=
      ih ht (hst.knows hq) (AllKnown.grows hrest hst)
    have hsettle (w : Value) (hw : s.Knows w) : Edits anyResult s ((settle q w >>= fun _ ↦ raceFrom q vs) s) :=
      (edits_settle hs hq hw).seq hs fun t _ ht hst ↦ hgoesOn t ht hst
    cases v with
    | promise member =>
      refine (edits_promise hv).bind hs fun t p _ _ hp ↦ ?_
      obtain ⟨rfl, hp⟩ := hp
      cases hw : p.value? with
      | some w => exact hsettle w (knows_value hs hp hw)
      | none =>
        have hreferences : AllKnown t (Reaction.race q).references := List.forall_mem_singleton.mpr hq
        exact (edits_register member hreferences).seq hs fun u _ hu htu ↦ hgoesOn u hu htu
    | _ => exact hsettle _ hv

theorem edits_race {vs : List Value} (hs : s.Proper) (hvs : AllKnown s vs) :
    Edits (fun t q ↦ t.Knows (.promise q)) s (race vs s) := by
  refine (edits_createPromise hs).bind hs fun t q ht hst hq ↦ ?_
  exact (edits_raceFrom ht hq (hvs.grows hst)).seq ht fun u _ _ htu ↦ .ok (htu.knows hq)

theorem edits_fetch (url : Text) (line : Int) (hs : s.Proper) :
    Edits (fun t q ↦ t.Knows (.promise q)) s (fetch url line s) := by
  refine (edits_createPromise hs).bind hs fun t q ht _ hq ↦ ?_
  have hjob : AllKnown t (Job.fetched q url).references := List.forall_mem_singleton.mpr hq
  exact (edits_schedule .macrotask _ line hjob).seq ht fun u _ _ htu ↦ .ok (htu.knows hq)

theorem edits_completeFetch (url : Text) (hs : s.Proper) (hq : s.Knows (.promise q)) :
    Edits anyResult s (completeFetch q url s) := by
  refine (edits_newObject hs fun v hv ↦ ?_).bind hs fun t response ht hst hresponse ↦
    edits_settle ht (hst.knows hq) hresponse
  have hfields := Dict.mem_values_of_mem_values_ofList hv
  simp only [List.map_cons, List.map_nil, List.mem_cons, List.not_mem_nil, or_false] at hfields
  rcases hfields with rfl | rfl <;> trivial

end Engine

end Stepwise
