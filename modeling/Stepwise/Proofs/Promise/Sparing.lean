import Stepwise.Proofs.Outcome
import Stepwise.Proofs.Promise.Ledger
/-!
Operations on promises. Each is made of rewrites of single promises and of shifts of the queues,
and spares the books of every aggregate but those it works on.
-/

namespace Stepwise

namespace Heap

variable {heap : Heap} {b address : Address} {vs contents : List Value}

theorem get?_update_eq_none (h : heap.get? b = none) (f : Cell → Cell) : (heap.update address f).get? b = none := by
  change (Dict.modify heap address f).get? b = none
  rw [Dict.get?_modify]
  split
  next hb => rw [← hb, h]; rfl
  next => exact h

theorem get?_retain_eq_none (h : heap.get? b = none) (v : Value) : (heap.retain v).get? b = none := by
  cases v with
  | object address => exact get?_update_eq_none h _
  | _ => exact h

theorem get?_release_eq_none (h : heap.get? b = none) (v : Value) : (heap.release v).get? b = none := by
  cases v with
  | object address => exact get?_update_eq_none h _
  | _ => exact h

theorem get?_retains_eq_none (h : heap.get? b = none) (vs : List Value) :
    (vs.foldl retain heap).get? b = none := by
  induction vs generalizing heap with
  | nil => exact h
  | cons v vs ih => exact ih (get?_retain_eq_none h v)

theorem get?_store_eq_none (h : heap.get? b = none) (hb : b ≠ address) (cell : Cell) :
    (heap.store address cell contents).get? b = none := by
  refine get?_retains_eq_none ?_ contents
  rw [Dict.get?_set, if_neg hb]
  exact h

/-- An array with certain elements is stored at an address. -/
def Shows (heap : Heap) (b : Address) (vs : List Value) : Prop :=
  ∃ cell, heap.get? b = some cell ∧ cell.isArray = true ∧ cell.elements = vs

theorem Shows.retain (h : heap.Shows b vs) (v : Value) : (heap.retain v).Shows b vs := by
  obtain ⟨cell, hcell, harray, hvs⟩ := h
  cases v with
  | object address =>
    change Shows (Dict.modify heap address _) b vs
    by_cases hb : b = address
    · subst hb
      refine ⟨{ cell with references := cell.references + 1 }, ?_, harray, hvs⟩
      rw [Dict.get?_modify, if_pos rfl, hcell]
      rfl
    · refine ⟨cell, ?_, harray, hvs⟩
      rw [Dict.get?_modify, if_neg hb, hcell]
  | _ => exact ⟨cell, hcell, harray, hvs⟩

theorem Shows.retains (h : heap.Shows b vs) (contents : List Value) : (contents.foldl Heap.retain heap).Shows b vs := by
  induction contents generalizing heap with
  | nil => exact h
  | cons v contents ih => exact ih (h.retain v)

theorem shows_store (heap : Heap) (b : Address) (vs contents : List Value) :
    (heap.store b { isArray := true, elements := vs } contents).Shows b vs :=
  Shows.retains ⟨_, (Dict.get?_set _ _ _ _).trans (if_pos rfl), rfl, rfl⟩ contents

end Heap

namespace State

/-- A condition on the books of a promise that work on other promises leaves true. -/
structure Steady (a : Address) (B : State → Prop) : Prop where
  rewrites : ∀ {s s' : State} {q : Address} {p p' : Promise} {new : List Reaction} {tasks : List (Reaction × Value)},
    s.Sane → s.Rewrites s' q p p' new tasks → (∀ r ∈ new, r.target ≠ a) →
      (q = a → p'.value? = p.value? ∧ p'.slots = p.slots ∧ p'.remaining = p.remaining) → B s → B s'
  shifts : ∀ {s s' : State} {gone : List (Reaction × Value)} {asked : List Address}, s.Shifts s' gone asked →
    (∀ t ∈ gone, t.1.target ≠ a) → a ∉ asked → (a ∈ s.fetching → a ∈ s'.fetching) → B s → B s'

/-- What an operation that works on some promises does to the books of the others. -/
structure Spares (own : List Address) (s s' : State) : Prop where
  sane : s'.Sane
  lastId : s.lastId ≤ s'.lastId
  books : ∀ {a B}, Steady a B → a ∉ own → s.Made a → B s → B s'

variable {s s' s'' : State} {own own' : List Address} {a q : Address} {p p' : Promise}
  {new : List Reaction} {tasks gone : List (Reaction × Value)} {asked : List Address}
  {inputs slots : List Value} {hand : List Nat} {value : Option Value}

theorem filterMap_slotIn_eq_nil (hnew : ∀ r ∈ new, r.target ≠ a) : new.filterMap (Reaction.slotIn a) = [] := by
  refine List.filterMap_eq_nil_iff.mpr fun r hr ↦ ?_
  cases hi : r.slotIn a with
  | none => rfl
  | some i =>
    have htarget := hnew r hr
    rw [Reaction.target_of_slotIn hi] at htarget
    exact absurd rfl htarget

theorem filterMap_gone_eq_nil (hgone : ∀ t ∈ gone, t.1.target ≠ a) :
    (gone.map Prod.fst).filterMap (Reaction.slotIn a) = [] :=
  filterMap_slotIn_eq_nil (List.forall_mem_map.mpr hgone)

theorem steady_entries (a : Address) (is : List Nat) : Steady a fun s ↦ (s.entries a).Perm is where
  rewrites _ h hnew _ hB := by
    have hperm := h.perm_entries a
    rw [filterMap_slotIn_eq_nil hnew] at hperm
    exact hperm.trans hB
  shifts h hgone _ _ hB := by
    have hperm := h.perm_entries a
    rw [filterMap_gone_eq_nil hgone] at hperm
    exact hperm.symm.trans hB

theorem steady_ledger (a : Address) (inputs : List Value) (hand : List Nat) (value : Option Value)
    (slots : List Value) : Steady a (Ledger a inputs hand value slots) where
  rewrites _ h hnew hrecord hB := by
    have hnil := filterMap_slotIn_eq_nil hnew
    exact h.ledger (by rw [hnil]; exact hB) (fun r hr hra ↦ absurd hra (hnew r hr)) hrecord
  shifts h hgone hasked _ hB := by
    have hledger := h.ledger hB hasked
    rwa [filterMap_gone_eq_nil hgone] at hledger

namespace Spares

theorem entries (h : s.Spares own s') (ha : a ∉ own) (hmade : s.Made a) : (s'.entries a).Perm (s.entries a) :=
  h.books (steady_entries a (s.entries a)) ha hmade (.refl _)

theorem ledger (h : s.Spares own s') (ha : a ∉ own) (hl : s.Ledger a inputs hand value slots) :
    s'.Ledger a inputs hand value slots :=
  h.books (steady_ledger a inputs hand value slots) ha hl.tracks.made hl

/-- A promise that is new after all is none of before. -/
theorem trans (h : s.Spares own s') (h' : s'.Spares own' s'') (hown : ∀ b ∈ own', b ∈ own ∨ ¬ s.Made b) :
    s.Spares own s'' where
  sane := h'.sane
  lastId := h.lastId.trans h'.lastId
  books hB ha hmade hs := by
    have ha' := fun hmem ↦ (hown _ hmem).elim ha fun hnew ↦ hnew hmade
    exact h'.books hB ha' (hmade.mono h.lastId) (h.books hB ha hmade hs)

end Spares

theorem Sane.spares (hs : s.Sane) (own : List Address) : s.Spares own s := ⟨hs, Nat.le_refl _, fun _ _ _ hB ↦ hB⟩

/-- The promise written over is worked on, or is new, or has kept its values. -/
theorem Rewrites.spares (h : s.Rewrites s' q p p' new tasks) (hs : s.Sane)
    (hnew : ∀ r ∈ new, r.target ∈ own ∧ s.Made r.target)
    (hrecord : q ∉ own → s.Made q → p'.value? = p.value? ∧ p'.slots = p.slots ∧ p'.remaining = p.remaining) :
    s.Spares own s' where
  sane := h.sane hs fun r hr ↦ (hnew r hr).2.mono h.lastId
  lastId := h.lastId
  books hB ha hmade := hB.rewrites hs h (fun r hr hra ↦ ha (hra ▸ (hnew r hr).1))
    fun hqa ↦ hrecord (hqa ▸ ha) (hqa ▸ hmade)

theorem Shifts.spares (h : s.Shifts s' gone asked) (hs : s.Sane) (hgone : ∀ t ∈ gone, t.1.target ∈ own)
    (hasked : ∀ b ∈ asked, b ∈ own ∧ s.Made b) (hkept : ∀ b ∈ s.fetching, b ∈ own ∨ b ∈ s'.fetching) :
    s.Spares own s' where
  sane := h.sane hs fun b hb ↦ (hasked b hb).2.mono h.lastId
  lastId := h.lastId
  books hB ha _ := hB.shifts h (fun t ht hta ↦ ha (hta ▸ hgone t ht)) (fun hmem ↦ ha (hasked _ hmem).1)
    fun hmem ↦ (hkept _ hmem).resolve_left ha

/-- Only tasks were put into the queue of microtasks. -/
structure Queues (s s' : State) (tasks : List (Reaction × Value)) : Prop where
  promises : s'.promises = s.promises
  queued : s'.queued = s.queued ++ tasks
  fetching : s'.fetching = s.fetching
  lastId : s.lastId ≤ s'.lastId
  heap : s'.heap = s.heap

theorem Sane.made (hs : s.Sane) (hp : s.promises.get? q = some p) : s.Made q :=
  hs.keys _ (Dict.mem_entries_of_get? hp)

theorem Sane.reactions_eq_nil (hs : s.Sane) (hp : s.promises.get? q = some p) (hv : p.value? ≠ none) :
    p.reactions = [] := hs.settled _ (Dict.mem_entries_of_get? hp) hv

theorem Sane.get?_next (hs : s.Sane) : s.promises.get? (.promise (s.lastId + 1)) = none := by
  cases hp : s.promises.get? (.promise (s.lastId + 1)) with
  | none => rfl
  | some p =>
    obtain ⟨n, hn, hkey⟩ := hs.made hp
    cases hkey
    omega

theorem not_made_next (s : State) : ¬ s.Made (.promise (s.lastId + 1)) := by
  rintro ⟨n, hn, hkey⟩
  cases hkey
  omega

theorem rewrites_modify {f : Promise → Promise} (hs : s.Sane) (hp : s.promises.get? q = some p)
    (hbalance : ((f p).reactions ++ tasks.map Prod.fst).Perm (new ++ p.reactions))
    (hkeeps : ∀ w, p.value? = some w → (f p).value? = some w)
    (hsettled : (f p).value? ≠ none → (f p).reactions = []) (hcurrent : ∀ t ∈ tasks, (f p).value? = some t.2)
    (hpromises : s'.promises = s.promises.modify q f) (hqueued : s'.queued = s.queued ++ tasks)
    (hfetching : s'.fetching = s.fetching) (hlastId : s.lastId ≤ s'.lastId)
    (hheap : ∀ b, s.heap.get? b = none → s'.heap.get? b = none) : s.Rewrites s' q p (f p) new tasks where
  before := .inl hp
  get? b := by rw [hpromises, Dict.get?_modify, hp]; rfl
  entries := by
    obtain ⟨es₁, es₂, hes, hmodify⟩ := Dict.exists_append_of_get? hp
    refine ⟨es₁, [(q, p)], es₂, ?_, ?_, .inl rfl⟩
    · rw [hes, List.append_assoc, List.singleton_append]
    · rw [hpromises, hmodify]
  made := (hs.made hp).mono hlastId
  balance := hbalance
  keeps := hkeeps
  settled := hsettled
  current := hcurrent
  queued := hqueued
  fetching := hfetching
  lastId := hlastId
  heap := hheap

/-- Tasks of new reactions to a promise that has its value. -/
theorem Queues.rewrites (h : s.Queues s' tasks) (hs : s.Sane) (hp : s.promises.get? q = some p)
    (hw : ∀ t ∈ tasks, p.value? = some t.2) : s.Rewrites s' q p p (tasks.map Prod.fst) tasks where
  before := .inl hp
  get? b := by
    rw [h.promises]
    split
    next hb => rw [hb, hp]
    next => rfl
  entries := by
    obtain ⟨es₁, es₂, hes, -⟩ := Dict.exists_append_of_get? hp
    refine ⟨es₁, [(q, p)], es₂, ?_, h.promises ▸ hes, .inl rfl⟩
    rw [hes, List.append_assoc, List.singleton_append]
  made := (hs.made hp).mono h.lastId
  balance := List.perm_append_comm
  keeps _ := id
  settled := hs.reactions_eq_nil hp
  current := hw
  queued := h.queued
  fetching := h.fetching
  lastId := h.lastId
  heap _ hb := h.heap ▸ hb

theorem rewrites_refl (hs : s.Sane) (hp : s.promises.get? q = some p) : s.Rewrites s q p p [] [] := by
  have hqueues : s.Queues s [] := ⟨rfl, (List.append_nil _).symm, rfl, Nat.le_refl _, rfl⟩
  exact hqueues.rewrites hs hp (List.forall_mem_nil _)

/-- The state with a new promise. -/
def created (s : State) : State :=
  { s with lastId := s.lastId + 1, promises := s.promises.set (.promise (s.lastId + 1)) {} }

theorem rewrites_created (hs : s.Sane) : s.Rewrites s.created (.promise (s.lastId + 1)) {} {} [] [] where
  before := .inr ⟨hs.get?_next, rfl⟩
  get? b := Dict.get?_set _ _ _ _
  entries := by
    refine ⟨s.promises.entries, [], [], ?_, Dict.entries_set_of_get?_eq_none hs.get?_next _,
      .inr ⟨rfl, rfl, hs.get?_next⟩⟩
    rw [List.append_nil, List.append_nil]
  made := ⟨_, Nat.le_refl _, rfl⟩
  balance := List.Perm.refl _
  keeps _ := id
  settled _ := rfl
  current _ h := absurd h List.not_mem_nil
  queued := (List.append_nil _).symm
  fetching := rfl
  lastId := Nat.le_succ _
  heap _ := id

end State

namespace Engine

variable {α β : Type} {s : State} {q : Address} {p : Promise} {own : List Address}

theorem promise_of_get? (hp : s.promises.get? q = some p) : promise q s = .ok p s := by
  unfold promise
  rw [bind_apply, get_apply]
  dsimp only
  rw [hp]
  rfl

theorem promise_of_get?_eq_none (hq : s.promises.get? q = none) :
    promise q s = .error (.unknownPromise q.toText) s := by
  unfold promise
  rw [bind_apply, get_apply]
  dsimp only
  rw [hq]
  rfl

theorem queues_scheduleReaction (v : Value) (r : Reaction) (s : State) :
    ∃ s', scheduleReaction v r s = .ok () s' ∧ s.Queues s' [(r, v)] := by
  refine ⟨_, rfl, rfl, ?_, rfl, Nat.le_succ _, rfl⟩
  exact List.filterMap_append

theorem queues_scheduleReactions (v : Value) (rs : List Reaction) (s : State) :
    ∃ s', rs.forM (scheduleReaction v) s = .ok () s' ∧ s.Queues s' (rs.map (·, v)) := by
  induction rs generalizing s with
  | nil => exact ⟨s, rfl, rfl, (List.append_nil _).symm, rfl, Nat.le_refl _, rfl⟩
  | cons r rs ih =>
    obtain ⟨s₁, hr, h₁⟩ := queues_scheduleReaction v r s
    obtain ⟨s₂, hrs, h₂⟩ := ih s₁
    refine ⟨s₂, ?_, h₂.promises.trans h₁.promises, ?_, h₂.fetching.trans h₁.fetching,
      h₁.lastId.trans h₂.lastId, h₂.heap.trans h₁.heap⟩
    · change (scheduleReaction v r >>= fun _ ↦ rs.forM (scheduleReaction v)) s = _
      rw [bind_apply, hr]
      exact hrs
    · rw [h₂.queued, h₁.queued, List.append_assoc]
      rfl

theorem exists_settle (hs : s.Sane) (hp : s.promises.get? q = some p) (hpending : p.value? = none) (v : Value) :
    ∃ s', settle q v s = .ok () s' ∧ s'.heap = s.heap.retain v ∧
      s.Rewrites s' q p { p with value? := some v, reactions := [] } [] (p.reactions.map (·, v)) := by
  let s₁ : State := { s with
    promises := s.promises.modify q fun p ↦ { p with value? := some v, reactions := [] }
    heap := s.heap.retain v }
  obtain ⟨s', hs', h⟩ := queues_scheduleReactions v p.reactions s₁
  refine ⟨s', ?_, h.heap, State.rewrites_modify hs hp ?_ ?_ (fun _ ↦ rfl) ?_ h.promises h.queued h.fetching
    h.lastId fun b hb ↦ h.heap ▸ Heap.get?_retain_eq_none hb v⟩
  · unfold settle
    rw [bind_apply, promise_of_get? hp]
    simp only [hpending, Option.isNone_none, if_true]
    exact hs'
  · simp [Function.comp_def]
  · rw [hpending]
    exact fun _ h ↦ nomatch h
  · simp

theorem settle_of_value? {w : Value} (hp : s.promises.get? q = some p) (hw : p.value? = some w) (v : Value) :
    settle q v s = .ok () s := by
  unfold settle
  rw [bind_apply, promise_of_get? hp]
  simp only [hw]
  rfl

theorem exists_rewrites_settle (hs : s.Sane) (hp : s.promises.get? q = some p) (v : Value) :
    ∃ s' p' tasks, settle q v s = .ok () s' ∧ s.Rewrites s' q p p' [] tasks ∧ p'.value? = p.value?.or (some v) := by
  cases hw : p.value? with
  | none =>
    obtain ⟨s', hs', -, h⟩ := exists_settle hs hp hw v
    exact ⟨s', _, _, hs', h, rfl⟩
  | some w => exact ⟨s, p, [], settle_of_value? hp hw v, State.rewrites_refl hs hp, hw⟩

theorem settle_of_get?_eq_none (hq : s.promises.get? q = none) (v : Value) :
    settle q v s = .error (.unknownPromise q.toText) s := by
  unfold settle
  rw [bind_apply, promise_of_get?_eq_none hq]

theorem rewrites_register (hs : s.Sane) (hp : s.promises.get? q = some p) (hpending : p.value? = none)
    (r : Reaction) :
    s.Rewrites (after (modifyPromise q (fun p ↦ { p with reactions := p.reactions ++ [r] }) s)) q p
      { p with reactions := p.reactions ++ [r] } [r] [] := by
  refine State.rewrites_modify (f := fun p ↦ { p with reactions := p.reactions ++ [r] }) hs hp ?_ (fun _ ↦ id)
    (absurd hpending) (List.forall_mem_nil _) rfl (List.append_nil _).symm rfl (Nat.le_refl _) fun _ ↦ id
  rw [List.map_nil, List.append_nil]
  exact List.perm_append_comm

theorem rewrites_modifyPromise {f : Promise → Promise} (hs : s.Sane) (hp : s.promises.get? q = some p)
    (hvalue : (f p).value? = p.value?) (hreactions : (f p).reactions = p.reactions) :
    s.Rewrites (after (modifyPromise q f s)) q p (f p) [] [] := by
  refine State.rewrites_modify hs hp ?_ ?_ ?_ (List.forall_mem_nil _) rfl
    (List.append_nil _).symm rfl (Nat.le_refl _) fun _ ↦ id
  · rw [hreactions, List.map_nil, List.append_nil]
    exact List.Perm.refl _
  · rw [hvalue]
    exact fun _ ↦ id
  · rw [hvalue, hreactions]
    exact hs.reactions_eq_nil hp

theorem exists_subscribe (hs : s.Sane) (hp : s.promises.get? q = some p) (r : Reaction) :
    ∃ s' p' tasks, subscribe q r s = .ok () s' ∧ s.Rewrites s' q p p' [r] tasks ∧
      p'.value? = p.value? ∧ p'.slots = p.slots ∧ p'.remaining = p.remaining := by
  unfold subscribe
  rw [bind_apply, promise_of_get? hp]
  dsimp only
  cases hw : p.value? with
  | none => exact ⟨_, _, [], rfl, rewrites_register hs hp hw r, hw, rfl, rfl⟩
  | some w =>
    obtain ⟨s', hs', h⟩ := queues_scheduleReaction w r s
    exact ⟨s', p, _, hs', h.rewrites hs hp (List.forall_mem_singleton.mpr hw), hw, rfl, rfl⟩

/-- An operation that works on promises that are there. -/
def Sparing (own : List Address) (x : Engine α) : Prop :=
  ∀ s : State, s.Sane → (∀ b ∈ own, s.Made b) → s.Spares own (after (x s))

variable {x : Engine α} {f : α → Engine β}

theorem spares_bind (hx : s.Spares own (after (x s))) (hown : ∀ b ∈ own, s.Made b)
    (hf : ∀ a, Sparing own (f a)) : s.Spares own (after ((x >>= f) s)) := by
  rw [bind_apply]
  cases hr : x s with
  | error fault s' =>
    rw [hr] at hx
    exact hx
  | ok a s' =>
    rw [hr] at hx
    have hrest := hf a s' hx.sane fun b hb ↦ (hown b hb).mono hx.lastId
    exact hx.trans hrest fun b hb ↦ .inl hb

theorem Sparing.pure (a : α) : Sparing own (Pure.pure a : Engine α) := fun _ hs _ ↦ hs.spares own

theorem Sparing.bind (hx : Sparing own x) (hf : ∀ a, Sparing own (f a)) : Sparing own (x >>= f) :=
  fun s hs hown ↦ spares_bind (hx s hs hown) hown hf

/-- An operation that goes on with a new promise may work on it. -/
theorem Sparing.create {f : Address → Engine β} (hf : ∀ b, Sparing (b :: own) (f b)) :
    Sparing own (createPromise >>= f) := by
  intro s hs hown
  have hcreated := State.rewrites_created hs
  have hspares : s.Spares own s.created := hcreated.spares hs (List.forall_mem_nil _)
    fun _ hmade ↦ absurd hmade (State.not_made_next s)
  have hmade : ∀ b ∈ Address.promise (s.lastId + 1) :: own, s.created.Made b :=
    List.forall_mem_cons.mpr ⟨hcreated.made, fun b hb ↦ (hown b hb).mono hspares.lastId⟩
  refine hspares.trans (hf _ _ hspares.sane hmade) fun b hb ↦ ?_
  rcases List.mem_cons.mp hb with rfl | hb
  · exact .inr (State.not_made_next s)
  · exact .inl hb

theorem sparing_promise {f : Promise → Engine β}
    (hf : ∀ (s : State) p, s.Sane → (∀ b ∈ own, s.Made b) → s.promises.get? q = some p → s.Spares own (after (f p s))) :
    Sparing own (promise q >>= f) := by
  intro s hs hown
  rw [bind_apply]
  cases hp : s.promises.get? q with
  | none =>
    rw [promise_of_get?_eq_none hp]
    exact hs.spares own
  | some p =>
    rw [promise_of_get? hp]
    exact hf s p hs hown hp

theorem sparing_settle (hq : q ∈ own) (v : Value) : Sparing own (settle q v) := by
  intro s hs hown
  cases hp : s.promises.get? q with
  | none =>
    rw [settle_of_get?_eq_none hp]
    exact hs.spares own
  | some p =>
    cases hw : p.value? with
    | some w =>
      rw [settle_of_value? hp hw]
      exact hs.spares own
    | none =>
      obtain ⟨s', hs', -, h⟩ := exists_settle hs hp hw v
      rw [hs']
      exact h.spares hs (List.forall_mem_nil _) fun h ↦ absurd hq h

theorem sparing_subscribe {r : Reaction} (hr : r.target ∈ own) : Sparing own (subscribe q r) := by
  intro s hs hown
  cases hp : s.promises.get? q with
  | none =>
    unfold subscribe
    rw [bind_apply, promise_of_get?_eq_none hp]
    exact hs.spares own
  | some p =>
    obtain ⟨s', p', tasks, hs', h, hkept⟩ := exists_subscribe hs hp r
    rw [hs']
    exact h.spares hs (List.forall_mem_singleton.mpr ⟨hr, hown _ hr⟩) fun _ _ ↦ hkept

theorem spares_register {r : Reaction} (hr : r.target ∈ own) (hs : s.Sane) (hown : ∀ b ∈ own, s.Made b)
    (hp : s.promises.get? q = some p) (hpending : p.value? = none) :
    s.Spares own (after (modifyPromise q (fun p ↦ { p with reactions := p.reactions ++ [r] }) s)) := by
  have hnew : ∀ r' ∈ [r], r'.target ∈ own ∧ s.Made r'.target := List.forall_mem_singleton.mpr ⟨hr, hown _ hr⟩
  exact (rewrites_register hs hp hpending r).spares hs hnew fun _ _ ↦ ⟨rfl, rfl, rfl⟩

theorem sparing_chain (handler : Option Function) : Sparing own (chain q handler) :=
  .create fun b ↦ (sparing_subscribe (r := .handle handler b) List.mem_cons_self).bind fun _ ↦ .pure b

theorem sparing_modifyPromise {f : Promise → Promise} (hq : q ∈ own)
    (hf : ∀ p, (f p).value? = p.value? ∧ (f p).reactions = p.reactions) : Sparing own (modifyPromise q f) := by
  intro s hs hown
  cases hp : s.promises.get? q with
  | none =>
    have hsame : modifyPromise q f s = .ok () s := by
      change EStateM.Result.ok () { s with promises := s.promises.modify q f } = _
      unfold Dict.modify
      rw [hp]
    rw [hsame]
    exact hs.spares own
  | some p =>
    have h := rewrites_modifyPromise (f := f) hs hp (hf p).1 (hf p).2
    exact h.spares hs (List.forall_mem_nil _) fun h ↦ absurd hq h

theorem sparing_fillSlot (hq : q ∈ own) (index : Nat) (v : Value) : Sparing own (fillSlot q index v) :=
  sparing_modifyPromise hq fun _ ↦ ⟨rfl, rfl⟩

theorem shifts_newArray (elements : List Value) (s : State) : s.Shifts (after (newArray elements s)) [] [] where
  promises := rfl
  queued := List.Perm.refl _
  fetching _ := .inl
  lastId := Nat.le_succ _
  fresh n hn h := by
    refine Heap.get?_store_eq_none h (fun heq ↦ ?_) _
    cases heq
    exact absurd hn (lt_irrefl _)

theorem shifts_newObject (fields : Dict Text Value) (s : State) :
    s.Shifts (after (newObject fields s)) [] [] where
  promises := rfl
  queued := List.Perm.refl _
  fetching _ := .inl
  lastId := Nat.le_succ _
  fresh n _ h := by
    have hne : Address.array n ≠ .object (s.lastId + 1) := nofun
    exact Heap.get?_store_eq_none h hne _

theorem shifts_scheduleFetch (description : Text) (b : Address) (url : Text) (line : Int) (s : State) :
    s.Shifts (after (schedule .macrotask description (.fetched b url) line s)) [] [b] where
  promises := rfl
  queued := List.Perm.refl _
  fetching c hc := by
    change c ∈ (s.loop.macrotasks ++ [_]).filterMap Task.fetched? at hc
    rw [List.filterMap_append, List.mem_append] at hc
    exact hc
  lastId := Nat.le_succ _
  fresh _ _ := id

theorem sparing_shifts {asked : List Address} (hx : ∀ s : State, s.Shifts (after (x s)) [] asked)
    (hasked : ∀ b ∈ asked, b ∈ own) (hkept : ∀ s : State, s.fetching ⊆ (after (x s)).fetching) :
    Sparing own x := fun s hs hown ↦
  (hx s).spares hs (List.forall_mem_nil _) (fun b hb ↦ ⟨hasked b hb, hown b (hasked b hb)⟩)
    fun _ hb ↦ .inr (hkept s hb)

theorem sparing_newArray (elements : List Value) : Sparing own (newArray elements) :=
  sparing_shifts (shifts_newArray elements) (List.forall_mem_nil _) fun _ ↦ List.Subset.refl _

theorem sparing_newObject (fields : Dict Text Value) : Sparing own (newObject fields) :=
  sparing_shifts (shifts_newObject fields) (List.forall_mem_nil _) fun _ ↦ List.Subset.refl _

theorem sparing_scheduleFetch (description : Text) (hq : q ∈ own) (url : Text) (line : Int) :
    Sparing own (schedule .macrotask description (.fetched q url) line) := by
  refine sparing_shifts (shifts_scheduleFetch description q url line) (List.forall_mem_singleton.mpr hq) fun s b hb ↦ ?_
  obtain ⟨task, htask, hfetched⟩ := List.mem_filterMap.mp hb
  exact List.mem_filterMap.mpr ⟨task, List.mem_append_left _ htask, hfetched⟩

theorem sparing_settleIfFull (hq : q ∈ own) : Sparing own (settleIfFull q) := by
  refine sparing_promise fun s p hs hown hp ↦ ?_
  split
  · exact (sparing_newArray p.slots).bind (fun v ↦ sparing_settle hq v) s hs hown
  · exact hs.spares own

theorem sparing_gather (hq : q ∈ own) (index : Nat) (v : Value) : Sparing own (gather q index v) :=
  sparing_promise fun s _ hs hown _ ↦
    (sparing_fillSlot hq index v).bind (fun _ ↦ sparing_settleIfFull hq) s hs hown

theorem sparing_collectFrom (hq : q ∈ own) (index : Nat) (vs : List Value) :
    Sparing own (collectFrom q index vs) := by
  induction vs generalizing index with
  | nil => exact .pure ()
  | cons v vs ih =>
    have hfill (w : Value) : Sparing own (fillSlot q index w >>= fun _ ↦ collectFrom q (index + 1) vs) :=
      (sparing_fillSlot hq index w).bind fun _ ↦ ih (index + 1)
    cases v with
    | promise member =>
      refine sparing_promise fun s p hs hown hp ↦ ?_
      cases hw : p.value? with
      | some w => exact hfill w s hs hown
      | none =>
        have hregister := spares_register (r := .collect q index) hq hs hown hp hw
        exact spares_bind hregister hown fun _ ↦ ih (index + 1)
    | _ => exact hfill _

theorem sparing_all (vs : List Value) : Sparing own (all vs) := by
  refine .create fun b ↦ ?_
  have hb : b ∈ b :: own := List.mem_cons_self
  refine Sparing.bind ?_ fun _ ↦ ?_
  · exact sparing_modifyPromise hb fun _ ↦ ⟨rfl, rfl⟩
  exact (sparing_collectFrom hb 0 vs).bind fun _ ↦ (sparing_settleIfFull hb).bind fun _ ↦ .pure b

theorem sparing_raceFrom (hq : q ∈ own) (vs : List Value) : Sparing own (raceFrom q vs) := by
  induction vs with
  | nil => exact .pure ()
  | cons v vs ih =>
    have hsettle (w : Value) : Sparing own (settle q w >>= fun _ ↦ raceFrom q vs) :=
      (sparing_settle hq w).bind fun _ ↦ ih
    cases v with
    | promise member =>
      refine sparing_promise fun s p hs hown hp ↦ ?_
      cases hw : p.value? with
      | some w => exact hsettle w s hs hown
      | none => exact spares_bind (spares_register (r := .race q) hq hs hown hp hw) hown fun _ ↦ ih
    | _ => exact hsettle _

theorem sparing_race (vs : List Value) : Sparing own (race vs) :=
  .create fun b ↦ (sparing_raceFrom List.mem_cons_self vs).bind fun _ ↦ .pure b

theorem sparing_fetch (url : Text) (line : Int) : Sparing own (fetch url line) :=
  .create fun b ↦ (sparing_scheduleFetch _ List.mem_cons_self url line).bind fun _ ↦ .pure b

theorem sparing_completeFetch (hq : q ∈ own) (url : Text) : Sparing own (completeFetch q url) :=
  (sparing_newObject _).bind fun _ ↦ sparing_settle hq _

theorem sparing_conclude (hq : q ∈ own) (result : Value) : Sparing own (conclude q result) := by
  cases result with
  | promise p => exact sparing_subscribe (r := .adopt q) hq
  | _ => exact sparing_settle hq _

end Engine

end Stepwise
