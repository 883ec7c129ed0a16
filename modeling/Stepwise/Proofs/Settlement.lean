import Stepwise.Proofs.DerivedPromise
/-!
Settlement is final. A promise that has a value keeps it, and nothing waits for it any more: what had been waiting
went into the queue with that value when it was settled, and what comes later goes there at once. Unless one is settled
so from outside, no promise ever has another one as its value.
-/

namespace Stepwise

namespace Standing

variable {c c' : Standing} {q : Address}
variable {new : Address → Reaction → Prop} {gives : Standing → Address → Value → Prop}

/-- What waited for a promise while it was pending has gone into the queue, behind what had been left there, in its order
and with the value of the promise. -/
structure Drained (c : Standing) (left : List (Reaction × Value)) (q : Address) (waiting : List Reaction) (w : Value) :
    Prop where
  value : c.value? q = some w
  queued : ∃ before reactions behind, waiting <+: reactions ∧
    c.queued = left ++ before ++ reactions.map (·, w) ++ behind

/-- A pending promise stays so, with more and more waiting for it, or it is drained. -/
theorem Changes.drains (h : Changes new gives c c') (hnone : c.value? q = none) :
    c'.value? q = none ∧ c.waiting q <+: c'.waiting q ∨ ∃ w, c'.Drained c.queued q (c.waiting q) w := by
  have hdrained {c₁ c₂ : Standing} {w : Value} (h : c₁.Drained c.queued q (c.waiting q) w)
      (hvalue : c₂.value? q = some w) (hqueued : c₁.queued <+: c₂.queued) :
      c₂.Drained c.queued q (c.waiting q) w := by
    obtain ⟨before, reactions, behind, hprefix, hsplit⟩ := h.queued
    obtain ⟨more, hmore⟩ := hqueued
    refine ⟨hvalue, before, reactions, behind ++ more, hprefix, ?_⟩
    rw [← hmore, hsplit, List.append_assoc]
  suffices hall : (c'.value? q = none ∧ c.waiting q <+: c'.waiting q ∧ c.queued <+: c'.queued) ∨
      ∃ w, c'.Drained c.queued q (c.waiting q) w from hall.imp_left fun h ↦ ⟨h.1, h.2.1⟩
  refine h.preserves (P := fun c' ↦ (c'.value? q = none ∧ c.waiting q <+: c'.waiting q ∧ c.queued <+: c'.queued) ∨
    ∃ w, c'.Drained c.queued q (c.waiting q) w) (.inl ⟨hnone, List.prefix_refl _, List.prefix_refl _⟩)
    (fun c' b r _ hc ↦ ?_) fun c' b v _ hc ↦ ?_
  · rw [value?_register]
    rcases hc with ⟨hc, hwaiting, hqueued⟩ | ⟨w, hc⟩
    · exact .inl ⟨hc, hwaiting.trans (waiting_register c' b q r), hqueued.trans (queued_register c' b r)⟩
    · exact .inr ⟨w, hdrained hc (by simp [hc.value]) (queued_register c' b r)⟩
  · rcases hc with ⟨hc, hwaiting, hqueued⟩ | ⟨w, hc⟩
    · by_cases hb : q = b
      · subst hb
        obtain ⟨more, hmore⟩ := hqueued
        rw [settle_of_none hc]
        exact .inr ⟨v, by simp, more, c'.waiting q, [], hwaiting, by simp [← hmore]⟩
      · rw [value?_settle, if_neg hb, waiting_settle c' v hb]
        exact .inl ⟨hc, hwaiting, hqueued.trans (queued_settle c' b v)⟩
    · exact .inr ⟨w, hdrained hc (value?_settle_of_some hc.value b v) (queued_settle c' b v)⟩

/-- What is in the queue is there with the value of a promise. -/
def Backed (c : Standing) : Prop := ∀ t ∈ c.queued, ∃ q, c.value? q = some t.2

theorem Changes.backed (h : Changes new gives c c') (hc : c.Backed) : c'.Backed := by
  refine h.preserves hc (fun c q r _ hc ↦ ?_) fun c q v _ hc ↦ ?_
  · cases hq : c.value? q with
    | none =>
      rw [register_of_none hq]
      exact hc
    | some w =>
      rw [register_of_some hq]
      exact List.forall_mem_append.mpr ⟨hc, List.forall_mem_singleton.mpr ⟨q, hq⟩⟩
  · have hkept (t : Reaction × Value) (ht : t ∈ c.queued) : ∃ b, (c.settle q v).value? b = some t.2 := by
      obtain ⟨b, hb⟩ := hc t ht
      exact ⟨b, value?_settle_of_some hb q v⟩
    cases hq : c.value? q with
    | none =>
      rw [settle_of_none hq] at hkept ⊢
      refine List.forall_mem_append.mpr ⟨hkept, fun t ht ↦ ⟨q, ?_⟩⟩
      obtain ⟨r, -, rfl⟩ := List.mem_map.mp ht
      exact Function.update_self ..
    | some w =>
      rw [settle_of_some hq]
      exact hc

theorem Changes.final (h : Changes new gives c c') (hc : ∀ q w, c.value? q = some w → w.Final)
    (hgives : ∀ c q v, (∀ q w, c.value? q = some w → w.Final) → gives c q v → v.Final) (q : Address) (w : Value)
    (hw : c'.value? q = some w) : w.Final := by
  have hfinal := h.preserves (P := fun c ↦ ∀ q w, c.value? q = some w → w.Final) hc
    (fun c q r _ hc ↦ by rwa [value?_register]) fun c q v hv hc b w hw ↦ ?_
  · exact hfinal q w hw
  · rw [value?_settle] at hw
    split at hw
    · cases hq : c.value? q with
      | none =>
        rw [hq] at hw
        cases hw
        exact hgives c q v hc hv
      | some w' =>
        rw [hq] at hw
        exact hc q w (hq.trans hw)
    · exact hc b w hw

end Standing

namespace History

variable {x y start : History} {q : Address} {w : Value}

/-- A step settles a promise, and everything that waits for it goes into the queue behind what the step leaves there. -/
structure Drains (y z : History) (q : Address) (waiting : List Reaction) (w : Value) : Prop where
  step : Step y z
  pending : y.state.value? q = none
  drained : ∃ taken left, y.state.queued.Perm (taken ++ left) ∧ taken.length ≤ 1 ∧
    z.state.standing.Drained left q waiting w

/-- What becomes of a promise with a value. -/
structure Settlement (x : History) (q : Address) (w : Value) : Prop where
  /-- it keeps the value, and nothing waits for it -/
  stays : ∀ y, Reaches x y → ∃ p, y.state.promises.get? q = some p ∧ p.value? = some w ∧ p.reactions = []
  /-- what waited for it at any time was put in the queue with the value when that was settled -/
  drained : ∀ start, Reaches {} start → Reaches start x → start.state.value? q = none →
    ∃ y z, Reaches start y ∧ y.Drains z q (start.state.waiting q) w ∧ Reaches z x
  /-- what is registered from now on goes to the end of the queue with the value -/
  queues : ∀ y, Reaches x y → ∀ r, ∃ t, Engine.subscribe q r y.state = .ok () t ∧ t.queued = y.state.queued ++ [(r, w)]

/-- While a promise is pending, what waits for it only grows; then it is drained by one step. -/
theorem Reaches.drains (h : Reaches start x) (hstart : start.Sound) (hnone : start.state.value? q = none) :
    x.state.value? q = none ∧ start.state.waiting q <+: x.state.waiting q ∨
      ∃ y z w, Reaches start y ∧ y.Drains z q (start.state.waiting q) w ∧ Reaches z x := by
  induction h with
  | refl => exact .inl ⟨hnone, List.prefix_refl _⟩
  | @tail x x' hreaches hstep ih =>
    rcases ih with ⟨hpending, hwaiting⟩ | ⟨y, z, w, hy, hdrains, hx⟩
    · obtain ⟨taken, left, own, hmoves, hqueued, hone⟩ := hstep.moves (Reaches.sound hreaches hstart).sane.ahead
      rcases hmoves.changes.drains hpending with
        ⟨hpending', hwaiting'⟩ | ⟨w, hvalue, before, reactions, behind, hprefix, hsplit⟩
      · exact .inl ⟨hpending', hwaiting.trans hwaiting'⟩
      · have hdrained : x'.state.standing.Drained left q (start.state.waiting q) w :=
          ⟨hvalue, before, reactions, behind, hwaiting.trans hprefix, hsplit⟩
        exact .inr ⟨x, x', w, hreaches, ⟨hstep, hpending, taken, left, hqueued, hone, hdrained⟩, .refl⟩
    · exact .inr ⟨y, z, w, hy, hdrains, hx.tail hstep⟩

theorem Reaches.settlement (hx : Reaches {} x) (hw : x.state.value? q = some w) : x.Settlement q w := by
  have hsound : x.Sound := hx.sound sound_initial
  have hrecord {y : History} (hy : Reaches x y) : ∃ p, y.state.promises.get? q = some p ∧ p.value? = some w :=
    Option.bind_eq_some_iff.mp (hy.value? hsound hw)
  refine ⟨fun y hy ↦ ?_, fun start hstart hreaches hnone ↦ ?_, fun y hy r ↦ ?_⟩
  · obtain ⟨p, hp, hvalue⟩ := hrecord hy
    exact ⟨p, hp, hvalue, (hy.sound hsound).sane.reactions_eq_nil hp (hvalue ▸ Option.some_ne_none w)⟩
  · have hstart' := hstart.sound sound_initial
    rcases hreaches.drains hstart' hnone with ⟨hpending, -⟩ | ⟨y, z, w', hy, hdrains, hx'⟩
    · cases hw.symm.trans hpending
    · obtain ⟨taken, left, -, -, hdrained⟩ := hdrains.drained
      have hz : z.Sound := hdrains.step.sound (hy.sound hstart')
      cases hw.symm.trans (hx'.value? hz hdrained.value)
      exact ⟨y, z, hy, hdrains, hx'⟩
  · obtain ⟨p, hp, hvalue⟩ := hrecord hy
    obtain ⟨t, ht, hstanding, -⟩ := Engine.standing_subscribe hp r
    have hregister := Standing.register_of_some (c := y.state.standing) (hy.value? hsound hw) r
    exact ⟨t, ht, congrArg Standing.queued (hstanding.trans hregister)⟩

theorem Step.backed (h : Step x y) (hx : x.Sound) (hbacked : x.state.standing.Backed) : y.state.standing.Backed := by
  obtain ⟨taken, left, own, hmoves, hqueued, -⟩ := h.moves hx.sane.ahead
  exact hmoves.changes.backed fun t ht ↦ hbacked t (hqueued.mem_iff.mpr (List.mem_append_right _ ht))

theorem Step.final (h : Step x y) (hx : x.Sound) (hbacked : x.state.standing.Backed)
    (hsettled : ∀ q v, .settled q v ∈ y.events → v.Final) (hfinal : ∀ q w, x.state.value? q = some w → w.Final) :
    ∀ q w, y.state.value? q = some w → w.Final := by
  obtain ⟨taken, left, own, hmoves, hqueued, -⟩ := h.moves hx.sane.ahead
  refine hmoves.changes.final hfinal fun c q v hc hv ↦ ?_
  rcases hv.source with hv | ⟨b, hb⟩ | ⟨r, hr⟩ | hv
  · exact hv
  · exact hc b v hb
  · obtain ⟨b, hb⟩ := hbacked (r, v) (hqueued.mem_iff.mpr (List.mem_append_left _ hr))
    exact hfinal b v hb
  · exact hsettled q v hv

theorem Reaches.backed (h : Reaches {} x) : x.state.standing.Backed := by
  induction h with
  | refl => exact List.forall_mem_nil _
  | tail hreaches hstep ih => exact hstep.backed (Reaches.sound hreaches sound_initial) ih

theorem Reaches.final (h : Reaches {} x) (hsettled : ∀ q v, .settled q v ∈ x.events → v.Final) :
    ∀ q w, x.state.value? q = some w → w.Final := by
  induction h with
  | refl => exact fun q w hw ↦ nomatch hw
  | tail hreaches hstep ih =>
    have hbefore := ih fun q v hv ↦ hsettled q v (hstep.mem_events hv)
    exact hstep.final (Reaches.sound hreaches sound_initial) (Reaches.backed hreaches) hsettled hbefore

/-- Whatever has happened before, a promise with a value is settled for good, and what is in the queue has the value of
a promise. If only final values are given from outside, no value is a promise. -/
theorem settlement_final (hx : Reaches {} x) :
    (∀ q p w, x.state.promises.get? q = some p → p.value? = some w → x.Settlement q w) ∧
      (∀ r v, (r, v) ∈ x.state.queued → ∃ q, x.state.value? q = some v) ∧
      ((∀ q v, .settled q v ∈ x.events → v.Final) → ∀ q v, x.state.value? q = some v → v.Final) := by
  refine ⟨fun q p w hp hw ↦ ?_, fun r v hr ↦ hx.backed _ hr, hx.final⟩
  exact hx.settlement ((State.value?_of_get? hp).trans hw)

/-- A promise was settled while a handler waited for it. -/
def drainedOnce : History := operate {} [.create, .chain (.promise 1) (some itself), .settle (.promise 1) (.ofInt 5)]

theorem settlement_drainedOnce : Reaches {} drainedOnce ∧ drainedOnce.Settlement (.promise 1) (.ofInt 5) ∧
    (∃ q, drainedOnce.state.value? q = some (.ofInt 5)) ∧
    ∀ q v, drainedOnce.state.value? q = some v → v.Final := by
  have hreaches : Reaches {} drainedOnce := reaches_operate _ _
  obtain ⟨hsettlement, hbacked, hfinal⟩ := settlement_final hreaches
  obtain ⟨p, hp, hvalue⟩ := Option.bind_eq_some_iff.mp (rfl : drainedOnce.state.value? (.promise 1) = some (.ofInt 5))
  refine ⟨hreaches, hsettlement _ p _ hp hvalue, ?_, hfinal fun q v hv ↦ ?_⟩
  · exact hbacked (.handle (some itself) (.promise 2)) _ List.mem_cons_self
  · have hevents : drainedOnce.events = [.made .create (.promise 1),
      .made (.chain (.promise 1) (some itself)) (.promise 2), .settled (.promise 1) (.ofInt 5)] := rfl
    rw [hevents] at hv
    have hlast : Event.settled q v = .settled (.promise 1) (.ofInt 5) := by simpa using hv
    cases hlast
    exact nofun

end History

end Stepwise
