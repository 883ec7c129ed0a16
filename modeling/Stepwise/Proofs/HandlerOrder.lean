import Stepwise.Proofs.DerivedPromise
/-!
Handlers of one promise run in the order of their registration. Their reactions stand in one line, the queue and then
what waits for the promise: changes never alter the order of the line, and a turn takes a reaction at its head.
-/

namespace Stepwise

namespace Standing

variable {c c' : Standing} {q : Address} {new : Address → Reaction → Prop} {gives : Standing → Address → Value → Prop}

/-- The reactions in the queue, and then those that wait for a promise. -/
def line (c : Standing) (q : Address) : List Reaction := c.queued.map Prod.fst ++ c.waiting q

theorem line_register (c : Standing) (q b : Address) (r : Reaction) : (c.line q).Sublist ((c.register b r).line q) :=
  ((queued_register c b r).sublist.map Prod.fst).append (waiting_register c b q r).sublist

theorem line_settle (c : Standing) (q b : Address) (v : Value) : (c.line q).Sublist ((c.settle b v).line q) := by
  cases hb : c.value? b with
  | some w => rw [settle_of_some hb]
  | none =>
    rw [settle_of_none hb]
    by_cases hq : q = b
    · subst hq
      simp [line, Function.comp_def]
    · simp [line, hq]

theorem Changes.line (h : Changes new gives c c') (q : Address) : (c.line q).Sublist (c'.line q) :=
  h.preserves (P := fun c' ↦ (c.line q).Sublist (c'.line q)) (List.Sublist.refl _)
    (fun c' b r _ hc ↦ hc.trans (line_register c' q b r)) fun c' b v _ hc ↦ hc.trans (line_settle c' q b v)

theorem line_register_self (hclean : c.value? q ≠ none → c.waiting q = []) (r : Reaction) :
    (c.register q r).line q = c.line q ++ [r] := by
  cases hq : c.value? q with
  | none => simp [register_of_none hq, line]
  | some w =>
    have hempty : c.waiting q = [] := hclean (by simp [hq])
    simp [register_of_some hq, line, hempty]

end Standing

namespace State

variable {s : State} {q : Address}

theorem Sane.waiting_eq_nil (hs : s.Sane) (hq : s.value? q ≠ none) : s.waiting q = [] := by
  cases hp : s.promises.get? q with
  | none => simp [waiting, hp]
  | some p =>
    rw [value?_of_get? hp] at hq
    rw [waiting_of_get? hp, hs.reactions_eq_nil hp hq]

theorem Sane.mem_line (hs : s.Sane) {e : Address × Promise} (he : e ∈ s.promises.entries) {r : Reaction}
    (hr : r ∈ e.2.reactions) : r ∈ s.standing.line e.1 := by
  have hwaiting : s.waiting e.1 = e.2.reactions := waiting_of_get? (Dict.get?_of_mem_entries hs.nodup he)
  simp [Standing.line, hwaiting, hr]

theorem mem_line_of_queued {r : Reaction} {w : Value} (hr : (r, w) ∈ s.queued) (q : Address) : r ∈ s.standing.line q :=
  List.mem_append_left _ (List.mem_map_of_mem hr)

theorem mem_reactions_of_line {r : Reaction} (hr : r ∈ s.standing.line q) : r ∈ s.reactions := by
  rcases List.mem_append.mp hr with hr | hr
  · exact List.mem_append_right _ hr
  · cases hp : s.promises.get? q with
    | none => simp [waiting, hp] at hr
    | some p =>
      rw [waiting_standing, waiting_of_get? hp] at hr
      exact mem_reactions.mpr (.inl ⟨_, Dict.mem_entries_of_get? hp, hr⟩)

end State

@[simp]
theorem Event.ending_ne_made (d : Address) (result : Value) (r : EStateM.Result Fault State Unit)
    (operation : Operation) (a : Address) : Event.ending d result r ≠ .made operation a :=
  Event.ne_made (Event.isProgress_ending d result r) operation a

namespace History

variable {x y : History} {p d d₁ d₂ : Address} {g g₁ g₂ : Option Function} {m₁ m₂ e : Event}

theorem Step.events (h : Step x y) : y.events = x.events ∨ ∃ e, y.events = x.events ++ [e] := by
  cases h with
  | react | receive | other => exact .inl rfl
  | _ => exact .inr ⟨_, rfl⟩

theorem Step.made_or (h : Step x y) (hmade : [m₁, m₂].Sublist y.events) :
    [m₁, m₂].Sublist x.events ∨ m₁ ∈ x.events ∧ y.events = x.events ++ [m₂] := by
  rcases h.events with hevents | ⟨e, hevents⟩
  · exact .inl (hevents ▸ hmade)
  · rw [hevents] at hmade ⊢
    obtain ⟨l₁, l₂, hl, h₁, h₂⟩ := List.sublist_append_iff.mp hmade
    rcases List.sublist_singleton.mp h₂ with rfl | rfl
    · rw [List.append_nil] at hl
      exact .inl (hl ▸ h₁)
    · have hboth : [m₁] ++ [m₂] = l₁ ++ [e] := hl
      obtain ⟨rfl, hm⟩ := List.append_inj' hboth rfl
      cases hm
      exact .inr ⟨List.singleton_sublist.mp h₁, rfl⟩

theorem Step.derives (h : Step x y) (hx : x.state.Ahead)
    (hevents : y.events = x.events ++ [.made (.chain p g) d]) :
    ¬ x.state.Made d ∧ y.state.standing = x.state.standing.register p (.handle g d) := by
  cases h with
  | @operate s calls events operation =>
    have hevent : operation.event (operation.note s) = .made (.chain p g) d := by simpa using hevents
    rcases operation.event_forms s with hform | ⟨a, hform⟩ | ⟨q, v, hform⟩
    · cases hevent.symm.trans hform
    · cases hevent.symm.trans hform
      have hnote : (Operation.chain p g).note s = (Event.made (.chain p g) <$> Engine.chain p g) s := rfl
      rcases Operation.event_cases _ hnote with hrefused | ⟨a, t, hchain, hstate, hmade⟩
      · cases hevent.symm.trans hrefused
      · cases hevent.symm.trans hmade
        refine ⟨?_, hstate ▸ Engine.standing_chain hx hchain⟩
        rcases Engine.chain_cases hx p g with ⟨f, hfails⟩ | ⟨t', hnew, -⟩
        · cases hchain.symm.trans hfails
        · cases hchain.symm.trans hnew
          exact s.not_made_next
    · cases hevent.symm.trans hform
  | _ => simp at hevents

/-- The reaction of a derived promise has run, or is in the line of the one that it is derived from. -/
theorem Sound.ran_or_mem_line (hx : x.Sound) (hmade : .made (.chain p g) d ∈ x.events) :
    (∃ e ∈ x.events, e.Runs d) ∨ .handle g d ∈ x.state.standing.line p := by
  have hbooks : x.state.Derives p g d x.events (x.calls.count d) := hx.books _ _ hmade
  obtain ⟨-, -, hchained, -⟩ := hbooks
  have hran {e : Event} (he : e ∈ Event.progress d x.events) : ∃ e ∈ x.events, e.Runs d := by
    obtain ⟨hmem, hruns⟩ := List.mem_filter.mp he
    exact ⟨e, hmem, by simpa [Event.Runs] using hruns⟩
  generalize Event.progress d x.events = progress, x.calls.count d = n at hchained hran
  cases hchained with
  | waiting hsole =>
    obtain ⟨hreaction, -⟩ := State.mem_reactionsFor.mp (hsole.only ▸ List.mem_cons_self : .handle g d ∈ _)
    rcases State.mem_reactions.mp hreaction with ⟨e, he, hr⟩ | ⟨w, hw⟩
    · obtain ⟨rfl, -⟩ := hsole.serves.registered e he _ hr rfl
      exact .inr (hx.sane.mem_line he hr)
    · exact .inr (State.mem_line_of_queued hw p)
  | running => exact .inl (hran List.mem_cons_self)
  | failed => exact .inl (hran (List.mem_append_right _ List.mem_cons_self))
  | concluded => exact .inl (hran (List.mem_append_right _ List.mem_cons_self))

/-- The first of two derived promises has had its reaction run, or that is before the other one in line. -/
def Precedes (x : History) (p : Address) (g₁ : Option Function) (d₁ : Address) (g₂ : Option Function) (d₂ : Address) :
    Prop := (∃ e ∈ x.events, e.Runs d₁) ∨ [.handle g₁ d₁, .handle g₂ d₂].Sublist (x.state.standing.line p)

theorem Turn.precedes (h : Turn x y) (hx : x.Sound) (hp : x.Precedes p g₁ d₁ g₂ d₂) : y.Precedes p g₁ d₁ g₂ d₂ := by
  obtain ⟨taken, left, own, hmoves, hqueued, htaken⟩ := h.moves hx.sane.ahead
  obtain ⟨new, hevents, hhandled, -⟩ := hmoves.noted
  rcases hp with ⟨e, he, hruns⟩ | hline
  · exact .inl ⟨e, hevents ▸ List.mem_append_left _ he, hruns⟩
  rcases htaken with rfl | ⟨r, v, s', -, rfl, -⟩
  · rw [List.nil_append] at hqueued
    subst hqueued
    exact .inr (hline.trans (hmoves.changes.line p))
  · have hhead : x.state.standing.line p = r :: Standing.line { x.state.standing with queued := left } p := by
      simp [Standing.line, hqueued]
    rw [hhead] at hline
    cases hline with
    | cons _ hrest => exact .inr (hrest.trans (hmoves.changes.line p))
    | cons_cons _ _ =>
      obtain ⟨e, he, hruns⟩ := hhandled g₁ d₁ v List.mem_cons_self
      exact .inl ⟨e, hevents ▸ List.mem_append_right _ he, hruns⟩

/-- Two promises that were derived from one have their reactions in line in this order. -/
theorem Turns.precedes (h : Turns {} x)
    (hmade : [.made (.chain p g₁) d₁, .made (.chain p g₂) d₂].Sublist x.events) : x.Precedes p g₁ d₁ g₂ d₂ := by
  induction h with
  | refl => simp at hmade
  | @tail x y hturns hturn ih =>
    have hx : x.Sound := (Turns.reaches hturns).sound sound_initial
    rcases hturn.step.made_or hmade with hmade | ⟨hfirst, hevents⟩
    · exact hturn.precedes hx (ih hmade)
    · obtain ⟨-, hstanding⟩ := hturn.step.derives hx.sane.ahead hevents
      rcases hx.ran_or_mem_line hfirst with ⟨e, he, hruns⟩ | hmem
      · exact .inl ⟨e, hevents ▸ List.mem_append_left _ he, hruns⟩
      · right
        rw [hstanding, Standing.line_register_self hx.sane.waiting_eq_nil]
        exact (List.singleton_sublist.mpr hmem).append (List.Sublist.refl _)

theorem Precedes.ran_of_takes {s' : State} {v : Value} (hp : x.Precedes p g₁ d₁ g₂ d₂) (hx : x.Sound)
    (hmade : .made (.chain p g₂) d₂ ∈ x.events) (htakes : x.state.Takes (.handle g d₂) v s')
    (hqueued : x.state.queued = (.handle g d₂, v) :: s'.queued) : ∃ e ∈ x.events, e.Runs d₁ := by
  refine hp.resolve_right fun hline ↦ ?_
  have hhead : x.state.standing.line p = .handle g d₂ :: s'.standing.line p := by
    simp [Standing.line, hqueued, htakes.standing]
  rw [hhead] at hline
  -- that of the second would be in line another time
  have hmem : .handle g₂ d₂ ∈ s'.standing.line p := by
    cases hline with
    | cons _ hrest => exact hrest.subset (by simp)
    | cons_cons _ hrest => exact hrest.subset (by simp)
  have hbooks : x.state.Derives p g₂ d₂ x.events (x.calls.count d₂) := hx.books _ _ hmade
  obtain ⟨-, -, -, -, hnone⟩ := hbooks.of_takes_handle htakes
  have hreaction := State.mem_reactionsFor.mpr ⟨State.mem_reactions_of_line hmem, rfl⟩
  simp [Reaction.target, hnone] at hreaction

theorem Sound.ran_of_calls (hx : x.Sound) (hmade : .made (.chain p g) d ∈ x.events) (hd : d ∈ x.calls) :
    ∃ e ∈ x.events, e.Runs d := by
  have hbooks : x.state.Derives p g d x.events (x.calls.count d) := hx.books _ _ hmade
  obtain ⟨n, hn⟩ := Nat.exists_eq_succ_of_ne_zero (List.count_pos_iff.mpr hd).ne'
  rw [hn] at hbooks
  obtain ⟨-, f, v, -, -, -, hprogress⟩ := hbooks.of_running
  have hbegan : .began f d v ∈ Event.progress d x.events := by simp [hprogress]
  exact ⟨_, List.mem_of_mem_filter hbegan, rfl, rfl⟩

/-- If a turn runs the reaction of the second promise, that of the first has run, as far as that is so up to there. -/
theorem Turn.ran (h : Turn x y) (hx : x.Sound)
    (hmade : [.made (.chain p g₁) d₁, .made (.chain p g₂) d₂].Sublist x.events) (hp : x.Precedes p g₁ d₁ g₂ d₂)
    (hran : ∀ e ∈ x.events, e.Runs d₂ → ∃ e' ∈ x.events, e'.Runs d₁) :
    ∃ new, y.events = x.events ++ new ∧ ∀ e ∈ new, e.Runs d₂ → ∃ e' ∈ x.events, e'.Runs d₁ := by
  have hsecond : .made (.chain p g₂) d₂ ∈ x.events := hmade.subset (by simp)
  obtain ⟨taken, left, own, hmoves, hqueued, htaken⟩ := h.moves hx.sane.ahead
  obtain ⟨new, hevents, -, hnew⟩ := hmoves.noted
  refine ⟨new, hevents, fun e he hruns ↦ ?_⟩
  rcases hnew e he d₂ hruns with hcalls | ⟨g, v, hmem⟩
  · obtain ⟨e', he', hruns'⟩ := hx.ran_of_calls hsecond hcalls
    exact hran e' he' hruns'
  · rcases htaken with rfl | ⟨r, w, s', htakes, rfl, rfl⟩
    · cases hmem
    · cases List.mem_singleton.mp hmem
      exact hp.ran_of_takes hx hsecond htakes hqueued

/-- Of two promises derived from the same one, the reaction of the second is only run when that of the first has been:
handlers run in the order of their registration. -/
theorem runs_in_order {h : History} (hreaches : Turns {} h) {pre post : List Event}
    (hmade : [.made (.chain p g₁) d₁, .made (.chain p g₂) d₂].Sublist h.events) (hevents : h.events = pre ++ e :: post)
    (he : e.Runs d₂) : ∃ e' ∈ pre, e'.Runs d₁ := by
  induction hreaches generalizing pre e post with
  | refl => simp at hmade
  | @tail x y hturns hturn ih =>
    have hx : x.Sound := (Turns.reaches hturns).sound sound_initial
    rcases hturn.step.made_or hmade with hmade | ⟨-, hmade⟩
    · have hbefore : ∀ e ∈ x.events, e.Runs d₂ → ∃ e' ∈ x.events, e'.Runs d₁ := by
        intro e he hruns
        obtain ⟨pre, post, hsplit⟩ := List.append_of_mem he
        obtain ⟨e', he', hruns'⟩ := ih hmade hsplit hruns
        exact ⟨e', hsplit ▸ List.mem_append_left _ he', hruns'⟩
      obtain ⟨new, hnoted, hran⟩ := hturn.ran hx hmade (Turns.precedes hturns hmade) hbefore
      rw [hnoted] at hevents
      rcases List.append_eq_append_iff.mp hevents with ⟨before, rfl, hnew⟩ | ⟨after, hx', hafter⟩
      · obtain ⟨e', he', hruns⟩ := hran e (by simp [hnew]) he
        exact ⟨e', List.mem_append_left _ he', hruns⟩
      · cases after with
        | nil =>
          rw [List.append_nil] at hx'
          rw [List.nil_append] at hafter
          exact hx' ▸ hran e (by simp [← hafter]) he
        | cons e₀ after =>
          obtain ⟨rfl, -⟩ := List.cons.inj hafter
          exact ih hmade hx' he
    · obtain ⟨hnew, -⟩ := hturn.step.derives hx.sane.ahead hmade
      have hmem : e ∈ x.events ++ [.made (.chain p g₂) d₂] := by simp [← hmade, hevents]
      rcases List.mem_append.mp hmem with hmem | hmem
      · exact absurd (hx.events e hmem d₂ he.2) hnew
      · cases List.mem_singleton.mp hmem
        cases he.1

/-- One promise was derived from another while that was pending, and one when it had its value. Then the value was
passed on to the first. -/
def passedOn : History :=
  (operate {} [.create, .chain (.promise 1) none, .settle (.promise 1) (.ofInt 5),
    .chain (.promise 1) (some itself)]).pass (.promise 2) (.ofInt 5)

/-- The handler of the second is called. -/
def called : History :=
  ⟨passedOn.rest, [.promise 4], passedOn.events ++ [.began itself (.promise 4) (.ofInt 5)]⟩

theorem runs_in_order_called : Turns {} called ∧
    [.made (.chain (.promise 1) none) (.promise 2), .made (.chain (.promise 1) (some itself)) (.promise 4)].Sublist
      called.events ∧
    Event.Runs (.promise 4) (.began itself (.promise 4) (.ofInt 5)) ∧
    ∃ e ∈ passedOn.events, e.Runs (.promise 2) := by
  have hpassed : Turns {} passedOn := (turns_operate _ _).tail (.pass (takesOldest_rest rfl))
  have htakes : passedOn.state.TakesOldest (.handle (some itself) (.promise 4)) (.ofInt 5) passedOn.rest :=
    takesOldest_rest rfl
  have hcall : Turn passedOn called := .call htakes
  have hcalled : Turns {} called := hpassed.tail hcall
  have hmade : [.made (.chain (.promise 1) none) (.promise 2),
      .made (.chain (.promise 1) (some itself)) (.promise 4)].Sublist called.events :=
    .cons _ (.cons_cons _ (.cons _ (.cons_cons _ (List.nil_sublist _))))
  exact ⟨hcalled, hmade, ⟨rfl, rfl⟩, runs_in_order hcalled hmade rfl ⟨rfl, rfl⟩⟩

end History

end Stepwise
