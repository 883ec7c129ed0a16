import Mathlib.Data.List.Forall2
import Stepwise.Proofs.Promise.Sparing
/-!
Aggregates of all, from their making to their value. At first every slot is at hand; each input
then fills its slot or has a reaction wait for it, and each reaction that is carried out fills one.
-/

namespace Stepwise

namespace State

variable {s s' s'' : State} {a : Address} {inputs slots : List Value} {hand : List Nat} {value : Option Value}

theorem Ledger.value?_eq (hl : s.Ledger a inputs hand value slots) : s.value? a = value := by
  obtain ⟨p, hp, hvalue, -⟩ := hl.stores.stored
  unfold value?
  rw [hp]
  exact hvalue

theorem Ledger.forall₂ (hl : s.Ledger a inputs [] value slots) (hentries : s.entries a = []) :
    List.Forall₂ s.Delivers inputs slots := by
  refine List.forall₂_of_length_eq_of_get hl.stores.length.symm fun i hi hi' ↦ ?_
  have hinput : inputs[i]? = some (inputs.get ⟨i, hi⟩) := List.getElem?_eq_getElem hi
  have hi₀ : i ∉ s.entries a := hentries ▸ List.not_mem_nil
  obtain ⟨w, hw, hd⟩ := hl.stores.filled i _ hinput List.not_mem_nil hi₀
  cases (List.getElem?_eq_getElem hi').symm.trans hw
  exact hd

/-- An aggregate between two operations: it has a value if no reaction is left for it. -/
def Gathers (s : State) (a : Address) (inputs : List Value) : Prop :=
  ∃ value slots, s.Ledger a inputs [] value slots ∧ (value = none ↔ s.entries a ≠ [])

/-- What becomes of an aggregate that had no value: if it has one, that is a new array of what the
inputs deliver. -/
structure Closes (s s' : State) (a : Address) (inputs : List Value) : Prop where
  sane : s'.Sane
  lastId : s.lastId ≤ s'.lastId
  gathers : s'.Gathers a inputs
  array : ∀ v, s'.value? a = some v → ∃ n elements, v = .object (.array n) ∧ s.lastId < n ∧
    s'.heap.Shows (.array n) elements ∧ List.Forall₂ s'.Delivers inputs elements

theorem Closes.of_le (h : s'.Closes s'' a inputs) (hle : s.lastId ≤ s'.lastId) : s.Closes s'' a inputs where
  sane := h.sane
  lastId := hle.trans h.lastId
  gathers := h.gathers
  array v hv := by
    obtain ⟨n, elements, hn, hlt, hrest⟩ := h.array v hv
    exact ⟨n, elements, hn, hle.trans_lt hlt, hrest⟩

theorem tracks_of_forall_ne (hmade : s.Made a) (hhand : hand.Nodup) (hreactions : ∀ r ∈ s.reactions, r.target ≠ a)
    (hfetching : a ∉ s.fetching) : s.Tracks a inputs hand where
  made := hmade
  nodup := by
    have hnil : s.entries a = [] := filterMap_slotIn_eq_nil hreactions
    rw [hnil, List.append_nil]
    exact hhand
  registered e he i hi := absurd rfl (hreactions _ (mem_reactions.mpr (.inl ⟨e, he, hi⟩)))
  queued i w hw := absurd rfl (hreactions _ (mem_reactions.mpr (.inr ⟨w, hw⟩)))
  alone r hr hra := absurd hra (hreactions r hr)
  fetching := hfetching

end State

namespace Engine

open State

variable {s : State} {a : Address} {inputs slots : List Value} {hand : List Nat} {p : Promise}

theorem exists_settleIfFull (hs : s.Sane) (hl : s.Ledger a inputs [] none slots) :
    ∃ s', settleIfFull a s = .ok () s' ∧ s.Closes s' a inputs := by
  obtain ⟨p, hp, hvalue, hslots, hremaining⟩ := hl.stores.stored
  rw [List.length_nil, Nat.zero_add] at hremaining
  unfold settleIfFull
  rw [bind_apply, promise_of_get? hp]
  dsimp only
  by_cases hfull : p.remaining = 0
  · have hentries : s.entries a = [] := List.eq_nil_of_length_eq_zero (hremaining.symm.trans hfull)
    have hshifts := shifts_newArray p.slots s
    have hl₁ := hshifts.ledger hl List.not_mem_nil
    have hs₁ := hshifts.sane hs (List.forall_mem_nil _)
    obtain ⟨s', hs', hheap, h⟩ := exists_settle hs₁ hp hvalue (.object (.array (s.lastId + 1)))
    have hl' : s'.Ledger a inputs [] (some (.object (.array (s.lastId + 1)))) slots := hl₁.settle hp h
    have hentries' : s'.entries a = [] := by
      have hperm := hshifts.perm_entries a
      rw [hentries] at hperm
      exact ((h.perm_entries a).trans hperm.symm).eq_nil
    rw [if_pos hfull]
    refine ⟨s', hs', ?_, (Nat.le_succ _).trans h.lastId, ⟨_, _, hl', by simp [hentries']⟩, fun v hv ↦ ?_⟩
    · exact h.sane hs₁ (List.forall_mem_nil _)
    · cases hl'.value?_eq.symm.trans hv
      refine ⟨_, slots, rfl, Nat.lt_succ_self _, ?_, hl'.forall₂ hentries'⟩
      rw [hheap, ← hslots]
      exact (Heap.shows_store _ _ p.slots p.slots).retain _
  · rw [if_neg hfull]
    have hentries : s.entries a ≠ [] := fun h ↦ hfull (by rw [hremaining, h]; rfl)
    refine ⟨s, rfl, hs, Nat.le_refl _, ⟨none, slots, hl, by simp [hentries]⟩, fun v hv ↦ ?_⟩
    cases hl.value?_eq.symm.trans hv

theorem exists_fillSlot {i : Nat} {v w : Value} (hs : s.Sane) (hl : s.Ledger a inputs (i :: hand) none slots)
    (hv : inputs[i]? = some v) (hd : s.Delivers v w) :
    ∃ s', fillSlot a i w s = .ok () s' ∧ s'.Sane ∧ s.lastId ≤ s'.lastId ∧
      s'.Ledger a inputs hand none (slots.set i w) ∧ ∀ b, s.promises.contains b → s'.promises.contains b := by
  obtain ⟨p, hp, -⟩ := hl.stores.stored
  have h := rewrites_modifyPromise (f := fun p ↦ { p with
    slots := p.slots.set i w, remaining := p.remaining - 1 }) hs hp rfl rfl
  refine ⟨_, rfl, h.sane hs (List.forall_mem_nil _), h.lastId, hl.fill hv hd hp h, fun b hb ↦ ?_⟩
  exact h.contains hb

theorem exists_gather {i : Nat} {v w : Value} (hs : s.Sane) (hl : s.Ledger a inputs [i] none slots)
    (hv : inputs[i]? = some v) (hd : s.Delivers v w) :
    ∃ s', gather a i w s = .ok () s' ∧ s.Closes s' a inputs := by
  obtain ⟨p, hp, -⟩ := hl.stores.stored
  obtain ⟨s₁, hfill, hs₁, hle, hl₁, -⟩ := exists_fillSlot hs hl hv hd
  obtain ⟨s', hs', hcloses⟩ := exists_settleIfFull hs₁ hl₁
  refine ⟨s', ?_, hcloses.of_le hle⟩
  unfold gather
  rw [bind_apply, promise_of_get? hp]
  dsimp only
  rw [bind_apply, hfill]
  exact hs'

theorem exists_register {i : Nat} {q : Address} (hs : s.Sane) (hl : s.Ledger a inputs (i :: hand) none slots)
    (hv : inputs[i]? = some (.promise q)) (hp : s.promises.get? q = some p) (hpending : p.value? = none) :
    ∃ s', modifyPromise q (fun p ↦ { p with reactions := p.reactions ++ [.collect a i] }) s = .ok () s' ∧ s'.Sane ∧
      s.lastId ≤ s'.lastId ∧ s'.Ledger a inputs hand none slots ∧
      ∀ b, s.promises.contains b → s'.promises.contains b := by
  have h := rewrites_register hs hp hpending (.collect a i)
  have hnew : ([.collect a i] : List Reaction).filterMap (Reaction.slotIn a) = [i] := by
    simp [Reaction.slotIn_collect]
  refine ⟨_, rfl, h.sane hs ?_, h.lastId, h.ledger (by rw [hnew]; exact hl) ?_ fun _ ↦ ⟨rfl, rfl, rfl⟩,
    fun b hb ↦ h.contains hb⟩
  · exact List.forall_mem_singleton.mpr (hl.tracks.made.mono h.lastId)
  · exact List.forall_mem_singleton.mpr fun _ ↦ ⟨i, rfl, hv⟩

/-- Each input that is looked at leaves the hand. -/
theorem exists_collectFrom {vs : List Value} {index : Nat} (hs : s.Sane) (hdrop : inputs.drop index = vs)
    (hl : s.Ledger a inputs (List.range' index vs.length) none slots)
    (hknown : ∀ q, .promise q ∈ vs → s.promises.contains q) :
    ∃ s' slots', collectFrom a index vs s = .ok () s' ∧ s'.Sane ∧ s.lastId ≤ s'.lastId ∧
      s'.Ledger a inputs [] none slots' := by
  induction vs generalizing index s slots with
  | nil => exact ⟨s, slots, rfl, hs, Nat.le_refl _, hl⟩
  | cons v vs ih =>
    have hv : inputs[index]? = some v := by
      rw [← List.head?_drop, hdrop]
      rfl
    have hrest : inputs.drop (index + 1) = vs := by
      rw [← List.tail_drop, hdrop]
      rfl
    have hknown₁ {s' : State} (hkept : ∀ b, s.promises.contains b → s'.promises.contains b) (q : Address)
        (hq : .promise q ∈ vs) : s'.promises.contains q := hkept q (hknown q (List.mem_cons_of_mem v hq))
    rw [List.length_cons, List.range'_succ] at hl
    -- filling the slot leads on to the other inputs
    have hfill (w : Value) (hd : s.Delivers v w) : ∃ s' slots',
        (fillSlot a index w >>= fun _ ↦ collectFrom a (index + 1) vs) s = .ok () s' ∧ s'.Sane ∧
          s.lastId ≤ s'.lastId ∧ s'.Ledger a inputs [] none slots' := by
      obtain ⟨s₁, h₁, hs₁, hle₁, hl₁, hkept⟩ := exists_fillSlot hs hl hv hd
      obtain ⟨s₂, slots', h₂, hs₂, hle₂, hl₂⟩ := ih hs₁ hrest hl₁ (hknown₁ hkept)
      refine ⟨s₂, slots', ?_, hs₂, hle₁.trans hle₂, hl₂⟩
      rw [bind_apply, h₁]
      exact h₂
    cases v with
    | promise q =>
      obtain ⟨p, hp⟩ := Option.isSome_iff_exists.mp (hknown q List.mem_cons_self)
      unfold collectFrom
      dsimp only
      rw [bind_apply, promise_of_get? hp]
      dsimp only
      cases hw : p.value? with
      | some w =>
        refine hfill w ?_
        change (s.promises.get? q).bind Promise.value? = some w
        rw [hp]
        exact hw
      | none =>
        obtain ⟨s₁, h₁, hs₁, hle₁, hl₁, hkept⟩ := exists_register hs hl hv hp hw
        obtain ⟨s₂, slots', h₂, hs₂, hle₂, hl₂⟩ := ih hs₁ hrest hl₁ (hknown₁ hkept)
        refine ⟨s₂, slots', ?_, hs₂, hle₁.trans hle₂, hl₂⟩
        dsimp only
        rw [bind_apply, h₁]
        exact h₂
    | _ => exact hfill _ rfl

theorem exists_prepare (hs : s.Sane) (inputs : List Value) :
    ∃ s', (modifyPromise (.promise (s.lastId + 1)) fun p ↦
        { p with slots := List.replicate inputs.length .null, remaining := inputs.length }) s.created = .ok () s' ∧
      s'.Sane ∧ s.lastId ≤ s'.lastId ∧ (∀ b, s.created.promises.contains b → s'.promises.contains b) ∧
      s'.Ledger (.promise (s.lastId + 1)) inputs (List.range' 0 inputs.length) none
        (List.replicate inputs.length .null) := by
  have h₁ := rewrites_created hs
  have hs₁ := h₁.sane hs (List.forall_mem_nil _)
  have hp : s.created.promises.get? (.promise (s.lastId + 1)) = some {} := (h₁.get? _).trans (if_pos rfl)
  have h₂ := rewrites_modifyPromise (f := fun p ↦ { p with
    slots := List.replicate inputs.length .null, remaining := inputs.length }) hs₁ hp rfl rfl
  have hle := h₁.lastId.trans h₂.lastId
  have hreactions : ∀ r ∈ s.created.reactions, r.target ≠ .promise (s.lastId + 1) := fun r hr hra ↦
    not_made_next s (hra ▸ hs.reactions r (h₁.perm.mem_iff.mp hr))
  have hfetching : .promise (s.lastId + 1) ∉ s.created.fetching := fun h ↦ not_made_next s (hs.fetching _ h)
  have htracks : s.created.Tracks (.promise (s.lastId + 1)) inputs (List.range' 0 inputs.length) :=
    tracks_of_forall_ne h₁.made List.nodup_range' hreactions hfetching
  refine ⟨_, rfl, h₂.sane hs₁ (List.forall_mem_nil _), hle, fun b hb ↦ h₂.contains hb,
    h₂.tracks htracks (List.forall_mem_nil _), ?_, List.length_replicate, fun i v hv hi _ ↦ ?_⟩
  · have hnil : s.created.entries (.promise (s.lastId + 1)) = [] := filterMap_slotIn_eq_nil hreactions
    have hentries := (h₂.perm_entries (.promise (s.lastId + 1))).length_eq
    rw [hnil] at hentries
    refine ⟨_, (h₂.get? _).trans (if_pos rfl), rfl, rfl, ?_⟩
    rw [List.length_range']
    exact (congrArg (inputs.length + ·) hentries).symm
  · have hlt := (List.getElem?_eq_some_iff.mp hv).1
    exact absurd (List.mem_range'_1.mpr ⟨Nat.zero_le _, by omega⟩) hi

/-- An aggregate may be among its own inputs. -/
theorem exists_all_of_created (hs : s.Sane) (hknown : ∀ q, .promise q ∈ inputs → s.created.promises.contains q) :
    ∃ s', all inputs s = .ok (.promise (s.lastId + 1)) s' ∧ s.Closes s' (.promise (s.lastId + 1)) inputs := by
  obtain ⟨s₁, h₁, hs₁, hle₁, hkept, hl₁⟩ := exists_prepare hs inputs
  obtain ⟨s₂, slots, h₂, hs₂, hle₂, hl₂⟩ :=
    exists_collectFrom hs₁ List.drop_zero hl₁ fun q hq ↦ hkept q (hknown q hq)
  obtain ⟨s₃, h₃, hcloses⟩ := exists_settleIfFull hs₂ hl₂
  refine ⟨s₃, ?_, hcloses.of_le (hle₁.trans hle₂)⟩
  unfold all
  rw [bind_apply]
  change (modifyPromise (.promise (s.lastId + 1)) _ >>= _) s.created = _
  rw [bind_apply, h₁]
  dsimp only
  rw [bind_apply, h₂]
  dsimp only
  rw [bind_apply, h₃]
  rfl

theorem exists_all (hs : s.Sane) (hknown : ∀ q, .promise q ∈ inputs → s.promises.contains q) :
    ∃ s', all inputs s = .ok (.promise (s.lastId + 1)) s' ∧ s.Closes s' (.promise (s.lastId + 1)) inputs :=
  exists_all_of_created hs fun q hq ↦ (rewrites_created hs).contains (hknown q hq)

end Engine

end Stepwise
