import Stepwise.Proofs.Promise.Making
/-!
The account of a history. Every step keeps the books of all promises that have been made.
-/

namespace Stepwise

open State

section Books

variable {s s' : State} {a d : Address} {events new : List Event} {n : Nat} {operation : Operation} {own : List Address}
  {r : Reaction} {v : Value}

theorem Event.progress_eq_nil (h : ∀ e ∈ new, e.subject? ≠ some a) : Event.progress a new = [] := by
  refine List.filter_eq_nil_iff.mpr fun e he ↦ ?_
  have hne := h e he
  simp [hne]

theorem Event.subject?_ending (d : Address) (result : Value) (r : EStateM.Result Fault State Unit) :
    (Event.ending d result r).subject? = some d := by cases r <;> rfl

theorem Event.isProgress_ending (d : Address) (result : Value) (r : EStateM.Result Fault State Unit) :
    (Event.ending d result r).isProgress = true := by cases r <;> rfl

theorem Event.ne_made {e : Event} (h : e.isProgress = true) (operation : Operation) (a : Address) :
    e ≠ .made operation a := by
  rintro rfl
  cases h

theorem Event.ending_ne_began (d : Address) (result : Value) (r : EStateM.Result Fault State Unit) (f : Function)
    (a : Address) (v : Value) : Event.ending d result r ≠ .began f a v := by
  cases r <;> exact nofun

namespace State

theorem Books.append (h : s.Books a events n operation) (hnew : ∀ e ∈ new, e.subject? ≠ some a) :
    s.Books a (events ++ new) n operation := by
  have hsub : events ⊆ events ++ new := List.subset_append_left _ _
  cases operation with
  | chain p handler =>
    refine ⟨h.known, h.fetching, ?_, h.stems.mono rfl (fun _ _ ↦ id) hsub⟩
    rw [Event.progress_append, Event.progress_eq_nil hnew, List.append_nil]
    exact h.chained
  | all inputs => exact fun hsettled ↦ h fun v hv ↦ hsettled v (hsub hv)
  | race inputs => exact fun hsettled ↦ h fun v hv ↦ hsettled v (hsub hv)
  | fetch url line => exact fun hsettled ↦ h fun v hv ↦ hsettled v (hsub hv)
  | create => trivial
  | settle q v => trivial

theorem Sane.made_of_contains (hs : s.Sane) (ha : s.promises.contains a = true) : s.Made a := by
  obtain ⟨record, hrecord⟩ := Engine.exists_promise ha
  exact hs.made hrecord

theorem Gathers.known {inputs : List Value} (h : s.Gathers a inputs) : s.promises.contains a = true := by
  obtain ⟨value, slots, hl, -⟩ := h
  obtain ⟨record, hrecord, -⟩ := hl.stores.stored
  unfold Dict.contains
  rw [hrecord]
  rfl

theorem Spares.account (h : s.Spares own s') (ha : a ∉ own) (hmade : s.Made a)
    (hnew : ∀ e ∈ new, e.subject? ≠ some a) (hb : s.Books a events n operation) :
    s'.Books a (events ++ new) n operation :=
  h.books (Steady.books a (events ++ new) n operation) ha hmade (hb.append hnew)

/-- The reactions that a promise may have by the operation that gave it. -/
theorem Books.of_mem (h : s.Books a events n operation) (hr : r ∈ s.reactionsFor a) :
    match operation with
    | .chain _ handler => r = .handle handler a ∨ r = .adopt a
    | .all _ => (∀ v, .settled a v ∉ events) → ∃ i, r = .collect a i
    | .race _ => (∀ v, .settled a v ∉ events) → r = .race a
    | .fetch _ _ => ¬ ∀ v, .settled a v ∉ events
    | .create | .settle _ _ => True := by
  cases operation with
  | chain p handler => exact h.eq_of_mem hr
  | all inputs =>
    intro hsettled
    obtain ⟨-, value, slots, hl, -⟩ := h hsettled
    obtain ⟨hr, hra⟩ := mem_reactionsFor.mp hr
    exact hl.tracks.alone r hr hra
  | race inputs => exact fun hsettled ↦ (h hsettled).2.eq_of_mem hr
  | fetch url line =>
    intro hsettled
    rw [(h hsettled).2.nobody] at hr
    cases hr
  | create => trivial
  | settle q v => trivial

theorem Books.of_handle {g : Option Function} {m : Nat} (h : s.Books d events n operation)
    (hr : .handle g d ∈ s.reactionsFor d)
    (hchain : ∀ p handler, s.Derives p handler d events n → s'.Derives p handler d (events ++ new) m) :
    s'.Books d (events ++ new) m operation := by
  have hfits := h.of_mem hr
  cases operation with
  | chain p handler => exact hchain p handler h
  | all inputs =>
    intro hsettled
    obtain ⟨i, hi⟩ := hfits fun v hv ↦ hsettled v (List.mem_append_left _ hv)
    cases hi
  | race inputs =>
    intro hsettled
    cases hfits fun v hv ↦ hsettled v (List.mem_append_left _ hv)
  | fetch url line =>
    intro hsettled
    exact (hfits fun v hv ↦ hsettled v (List.mem_append_left _ hv)).elim
  | create => trivial
  | settle q v => trivial

theorem Books.of_running {m : Nat} (h : s.Books d events (n + 1) operation)
    (hchain : ∀ p handler, s.Derives p handler d events (n + 1) → s'.Derives p handler d (events ++ new) m) :
    s'.Books d (events ++ new) m operation := by
  have hnone {P : Prop} (h : (∀ v, .settled d v ∉ events) → n + 1 = 0 ∧ P)
      (hsettled : ∀ v, .settled d v ∉ events ++ new) : False :=
    Nat.succ_ne_zero n (h fun v hv ↦ hsettled v (List.mem_append_left _ hv)).1
  cases operation with
  | chain p handler => exact hchain p handler h
  | all inputs => exact fun hsettled ↦ (hnone h hsettled).elim
  | race inputs => exact fun hsettled ↦ (hnone h hsettled).elim
  | fetch url line => exact fun hsettled ↦ (hnone h hsettled).elim
  | create => trivial
  | settle q v => trivial

theorem Derives.of_running {p : Address} {handler : Option Function} (h : s.Derives p handler d events (n + 1)) :
    n = 0 ∧ ∃ f v, handler = some f ∧ s.value? p = some v ∧ s.reactionsFor d = [] ∧
      Event.progress d events = [.began f d v] := by
  obtain ⟨-, -, hchained, -⟩ := h
  generalize Event.progress d events = progress, hm : n + 1 = m at hchained
  cases hchained with
  | running hf hv hnobody => exact ⟨Nat.succ.inj hm, _, _, hf, hv, hnobody, rfl⟩
  | _ => cases hm

end State

end Books

namespace History

variable {s s' : State} {a d q : Address} {calls calls' own : List Address} {events new : List Event} {x y : History}
  {operation : Operation}

/-- The books of all promises that have been made are in order. -/
structure Sound (h : History) : Prop where
  sane : h.state.Sane
  calls : ∀ d ∈ h.calls, h.state.Made d
  events : ∀ e ∈ h.events, ∀ a, e.subject? = some a → h.state.Made a
  books : ∀ operation a, .made operation a ∈ h.events → h.state.Books a h.events (h.calls.count a) operation

theorem Sound.course (h : Sound ⟨s, calls, events⟩) : Course.Sound ⟨s, calls⟩ := ⟨h.sane, h.calls⟩

/-- A step is right if it is so for the promises that it works on and for a new one. -/
theorem Sound.of_spares (hc : Sound ⟨s, calls, events⟩) (h : s.Spares own s')
    (hcalls : ∀ d ∈ calls', d ∈ calls ∨ d ∈ own ∧ s.Made d) (hcount : ∀ a ∉ own, calls'.count a = calls.count a)
    (hnew : ∀ e ∈ new, ∀ a, e.subject? = some a → s'.Made a ∧ (a ∈ own ∨ ¬ s.Made a))
    (hown : ∀ operation a, .made operation a ∈ events → a ∈ own →
      s'.Books a (events ++ new) (calls'.count a) operation)
    (hmade : ∀ operation a, .made operation a ∈ new → s'.Books a (events ++ new) (calls'.count a) operation) :
    Sound ⟨s', calls', events ++ new⟩ where
  sane := h.sane
  calls d hd := (hcalls d hd).elim (fun hd ↦ (hc.calls d hd).mono h.lastId) fun hd ↦ hd.2.mono h.lastId
  events e he a hea := by
    rcases List.mem_append.mp he with he | he
    · exact (hc.events e he a hea).mono h.lastId
    · exact (hnew e he a hea).1
  books operation a hop := by
    rcases List.mem_append.mp hop with hop | hop
    · have hold : s.Made a := hc.events _ hop a rfl
      by_cases hmem : a ∈ own
      · exact hown operation a hop hmem
      -- what the step does not work on it leaves alone, also in the notes
      · refine hcount a hmem ▸ h.account hmem hold (fun e he hea ↦ ?_) (hc.books operation a hop)
        exact (hnew e he a hea).2.elim hmem fun hfresh ↦ hfresh hold
    · exact hmade operation a hop

/-- A step of which nothing is noted down. -/
theorem Sound.of_silent (hc : Sound ⟨s, calls, events⟩) (h : s.Spares own s')
    (hown : ∀ operation a, .made operation a ∈ events → a ∈ own → s'.Books a events (calls.count a) operation) :
    Sound ⟨s', calls, events⟩ := by
  have hsound : Sound ⟨s', calls, events ++ []⟩ := hc.of_spares h (fun _ ↦ .inl) (fun _ _ ↦ rfl) (List.forall_mem_nil _)
    (fun operation a hop ha ↦ (hown operation a hop ha).append (List.forall_mem_nil _)) fun _ _ h ↦ nomatch h
  rwa [List.append_nil] at hsound

/-- An operation that fails, perhaps with a new promise that nobody gets to know. -/
theorem Sound.refuse (hc : Sound ⟨s, calls, events⟩) (h : s.Spares [] s') :
    Sound ⟨s', calls, events ++ [.refused operation]⟩ := by
  refine hc.of_spares h (fun _ ↦ .inl) (fun _ _ ↦ rfl) (List.forall_mem_singleton.mpr nofun)
    (fun _ _ _ h ↦ nomatch h) fun _ _ h ↦ ?_
  cases List.mem_singleton.mp h

/-- An operation that gives a promise opens its books. -/
theorem Sound.make (hc : Sound ⟨s, calls, events⟩) (x : Engine Address)
    (hnote : operation.note s = (Event.made operation <$> x) s) (hsettles : operation.settles? = none)
    (hx : ∀ a s' events, x s = .ok a s' → Event.progress a events = [] →
      a = .promise (s.lastId + 1) ∧ s'.promises.contains a = true ∧ s'.Books a events 0 operation) :
    Sound ⟨after (operation.note s), calls, events ++ [operation.event (operation.note s)]⟩ := by
  have hspares : s.Spares [] (after (operation.note s)) := by
    have h := Engine.spares_perform operation hc.sane
    rwa [hsettles, ← Operation.after_note operation s] at h
  rcases Operation.event_cases x hnote with hevent | ⟨a, s', hok, hs', hevent⟩
  · rw [hevent]
    exact hc.refuse hspares
  -- of an address that was never given nothing can have been noted down, and no handler for it is being called
  · have hfresh : ¬ s.Made a := (hx a s' [] hok rfl).1 ▸ s.not_made_next
    have hprogress : Event.progress a (events ++ [.made operation a]) = [] := by
      rw [Event.progress_append, Event.progress_eq_nil fun e he hea ↦ hfresh (hc.events e he a hea)]
      rfl
    obtain ⟨-, hknown, hbooks⟩ := hx a s' _ hok hprogress
    have hcount : calls.count a = 0 := List.count_eq_zero.mpr fun ha ↦ hfresh (hc.calls a ha)
    rw [hevent]
    rw [hs'] at hspares ⊢
    refine hc.of_spares hspares (fun _ ↦ .inl) (fun _ _ ↦ rfl) (List.forall_mem_singleton.mpr fun b hb ↦ ?_)
      (fun _ _ _ h ↦ nomatch h) fun operation' b h ↦ ?_
    · cases hb
      exact ⟨hspares.sane.made_of_contains hknown, .inr hfresh⟩
    · cases List.mem_singleton.mp h
      exact hcount.symm ▸ hbooks

theorem Sound.settle (hc : Sound ⟨s, calls, events⟩) (q : Address) (v : Value) :
    Sound ⟨after ((Operation.settle q v).note s), calls,
      events ++ [(Operation.settle q v).event ((Operation.settle q v).note s)]⟩ := by
  cases hq : s.promises.contains q with
  | false =>
    rw [Operation.note_settle_of_error (Engine.settle_of_not_contains hq v)]
    exact hc.refuse (hc.sane.spares [])
  | true =>
    obtain ⟨s', hs', hsettles⟩ := Engine.exists_settles hc.sane hq v
    have hmade : s.Made q := hc.sane.made_of_contains hq
    have hspares := Engine.sparing_settle List.mem_cons_self v s hc.sane (List.forall_mem_singleton.mpr hmade)
    rw [hs'] at hspares
    rw [Operation.note_settle_of_ok hs']
    refine hc.of_spares hspares (fun _ ↦ .inl) (fun _ _ ↦ rfl) (List.forall_mem_singleton.mpr fun b hb ↦ ?_)
      (fun operation a hop ha ↦ ?_) fun _ _ h ↦ ?_
    · cases hb
      exact ⟨hmade.mono hspares.lastId, .inl List.mem_cons_self⟩
    · cases List.mem_singleton.mp ha
      have hb := hc.books operation q hop
      have hsettled : .settled q v ∈ events ++ [.settled q v] := List.mem_append_right _ List.mem_cons_self
      cases operation with
      | chain p handler =>
        obtain ⟨s'', hs'', hd⟩ := Engine.derives_settle hc.sane hb v
        cases hs'.symm.trans hs''
        exact hd
      -- the books of the other kinds are closed from now on
      | all inputs => exact fun h ↦ absurd hsettled (h v)
      | race inputs => exact fun h ↦ absurd hsettled (h v)
      | fetch url line => exact fun h ↦ absurd hsettled (h v)
      | create => trivial
      | settle b w => trivial
    · cases List.mem_singleton.mp h

theorem Sound.operate (hc : Sound ⟨s, calls, events⟩) (operation : Operation) :
    Sound ⟨after (operation.note s), calls, events ++ [operation.event (operation.note s)]⟩ := by
  cases operation with
  | create =>
    refine hc.make Engine.createPromise rfl rfl fun a s' events h _ ↦ ?_
    cases h
    exact ⟨rfl, hc.sane.contains_created, trivial⟩
  | chain p handler =>
    refine hc.make (Engine.chain p handler) rfl rfl fun a s' events h hprogress ↦ ?_
    obtain ⟨ha, hd⟩ := Engine.derives_chain hc.sane h hprogress
    exact ⟨ha, hd.known, hd⟩
  | all inputs =>
    refine hc.make (Engine.all inputs) rfl rfl fun a s' events h _ ↦ ?_
    obtain ⟨ha, hg⟩ := Engine.gathers_all hc.sane h
    exact ⟨ha, hg.known, fun _ ↦ ⟨rfl, hg⟩⟩
  | race inputs =>
    refine hc.make (Engine.race inputs) rfl rfl fun a s' events h _ ↦ ?_
    obtain ⟨ha, hr⟩ := Engine.races_race hc.sane h
    exact ⟨ha, hr.known, fun _ ↦ ⟨rfl, hr⟩⟩
  | fetch url line =>
    refine hc.make (Engine.fetch url line) rfl rfl fun a s' events h _ ↦ ?_
    obtain ⟨ha, he⟩ := Engine.expects_fetch hc.sane h
    exact ⟨ha, he.known, fun _ ↦ ⟨rfl, he⟩⟩
  | settle q v => exact hc.settle q v

/-- A step that takes a reaction or calls, of which something is noted down of one derived promise. -/
theorem Sound.of_derived (hc : Sound ⟨s, calls, events⟩) (h : s.Spares [d] s') (hd : s.Made d) (e : Event)
    (he : e.subject? = some d) (hmade : ∀ operation a, e ≠ .made operation a)
    (hcalls : ∀ b ∈ calls', b ∈ calls ∨ b = d) (hcount : ∀ b, b ≠ d → calls'.count b = calls.count b)
    (hown : ∀ operation, .made operation d ∈ events → s'.Books d (events ++ [e]) (calls'.count d) operation) :
    Sound ⟨s', calls', events ++ [e]⟩ := by
  refine hc.of_spares h (fun b hb ↦ ?_) (fun b hb ↦ hcount b (List.ne_of_not_mem_cons hb))
    (List.forall_mem_singleton.mpr fun b hb ↦ ?_) (fun operation b hop hb ↦ ?_) fun operation b hop ↦ ?_
  · exact (hcalls b hb).imp_right fun hbd ↦ ⟨List.mem_singleton.mpr hbd, hbd ▸ hd⟩
  · cases he.symm.trans hb
    exact ⟨hd.mono h.lastId, .inl List.mem_cons_self⟩
  · cases List.mem_singleton.mp hb
    exact hown operation hop
  · exact absurd (List.mem_singleton.mp hop).symm (hmade operation b)

theorem Sound.call {f : Function} {v : Value} (hx : Sound ⟨s, calls, events⟩) (h : s.Takes (.handle (some f) d) v s') :
    Sound ⟨s', d :: calls, events ++ [.began f d v]⟩ := by
  have hspares : s.Spares [d] s' := h.spares hx.sane List.mem_cons_self
  refine hx.of_derived hspares (hx.sane.reactions _ h.mem_reactions) _ rfl (Event.ne_made rfl)
    (fun b hb ↦ (List.mem_cons.mp hb).symm) (fun b hb ↦ List.count_cons_of_ne hb.symm) fun operation hop ↦ ?_
  refine (hx.books operation d hop).of_handle h.mem_reactionsFor fun p handler hb ↦ ?_
  obtain ⟨hf, hprogress, hcount, hv, hnobody⟩ := hb.of_takes_handle h
  dsimp only at hprogress hcount
  refine ⟨h.shifts.promises.symm ▸ hb.known, h.fetching.symm ▸ hb.fetching, ?_, ?_⟩
  · rw [Event.progress_append, hprogress, Event.progress_began, List.count_cons_self, hcount]
    exact .running hf.symm ((h.shifts.value?_eq p).trans hv) hnobody
  · exact hb.stems.mono (h.shifts.value?_eq d) (fun b w hb ↦ (h.shifts.value?_eq b).trans hb)
      (List.subset_append_left _ _)

/-- The innermost handler ends, in one way or another. -/
theorem Sound.end (hx : Sound ⟨s, d :: calls, events⟩) (h : s.Spares [d] s') (e : Event) (he : e.subject? = some d)
    (hmade : ∀ operation a, e ≠ .made operation a)
    (hderives : ∀ p f v, s.Derives p (some f) d events 1 → s.value? p = some v → s.reactionsFor d = [] →
      Event.progress d events = [.began f d v] → s'.Derives p (some f) d (events ++ [e]) 0) :
    Sound ⟨s', calls, events ++ [e]⟩ := by
  refine hx.of_derived h (hx.calls d List.mem_cons_self) e he hmade (fun b hb ↦ .inl (List.mem_cons_of_mem d hb))
    (fun b hb ↦ (List.count_cons_of_ne hb.symm).symm) fun operation hop ↦ ?_
  have hbooks := hx.books operation d hop
  dsimp only at hbooks
  rw [List.count_cons_self] at hbooks
  refine hbooks.of_running fun p handler hb ↦ ?_
  obtain ⟨hcount, f, v, rfl, hv, hnobody, hprogress⟩ := hb.of_running
  rw [hcount] at hb ⊢
  exact hderives p f v hb hv hnobody hprogress

theorem Sound.conclude (hx : Sound ⟨s, d :: calls, events⟩) (result : Value) :
    Sound ⟨after (Engine.conclude d result s), calls,
      events ++ [.ending d result (Engine.conclude d result s)]⟩ := by
  have hmade : s.Made d := hx.calls d List.mem_cons_self
  have hspares := Engine.sparing_conclude List.mem_cons_self result s hx.sane (List.forall_mem_singleton.mpr hmade)
  refine hx.end hspares _ (Event.subject?_ending _ _ _) (Event.ne_made (Event.isProgress_ending _ _ _)) ?_
  intro p f v hb hv hnobody hprogress
  exact Engine.derives_conclude hx.sane hb.known hb.fetching hnobody hv nofun hprogress hb.stems

theorem Sound.fail (hx : Sound ⟨s, d :: calls, events⟩) : Sound ⟨s, calls, events ++ [.failed d]⟩ := by
  refine hx.end (hx.sane.spares [d]) _ rfl (Event.ne_made rfl) fun p f v hb hv hnobody hprogress ↦ ?_
  refine ⟨hb.known, hb.fetching, ?_, hb.stems.mono rfl (fun _ _ ↦ id) (List.subset_append_left _ _)⟩
  rw [Event.progress_append, hprogress, Event.progress_failed]
  exact .failed hv hnobody

theorem Sound.pass {v : Value} (hx : Sound ⟨s, calls, events⟩) (h : s.Takes (.handle none d) v s') :
    Sound ⟨after (Engine.conclude d v s'), calls, events ++ [.ending d v (Engine.conclude d v s')]⟩ := by
  have hmade : s.Made d := hx.sane.reactions _ h.mem_reactions
  have htakes : s.Spares [d] s' := h.spares hx.sane List.mem_cons_self
  have hconclude := Engine.sparing_conclude List.mem_cons_self v s' htakes.sane
    (List.forall_mem_singleton.mpr (hmade.mono htakes.lastId))
  refine hx.of_derived (htakes.trans hconclude fun _ ↦ .inl) hmade _ (Event.subject?_ending _ _ _)
    (Event.ne_made (Event.isProgress_ending _ _ _)) (fun _ ↦ .inl) (fun _ _ ↦ rfl) fun operation hop ↦ ?_
  refine (hx.books operation d hop).of_handle h.mem_reactionsFor fun p handler hb ↦ ?_
  obtain ⟨rfl, hprogress, hcount, hv, hnobody⟩ := hb.of_takes_handle h
  dsimp only at hcount
  have hstems : s'.Stems d events :=
    hb.stems.mono (h.shifts.value?_eq d) (fun b w hb ↦ (h.shifts.value?_eq b).trans hb) (List.Subset.refl _)
  rw [hcount]
  exact Engine.derives_conclude htakes.sane (h.shifts.promises.symm ▸ hb.known) (h.fetching.symm ▸ hb.fetching) hnobody
    ((h.shifts.value?_eq p).trans hv) (fun _ ↦ rfl) hprogress hstems

/-- A reaction brings a promise its value, or a slot. -/
theorem Sound.react {r : Reaction} {v : Value} {ω : Type} (hx : Sound ⟨s, calls, events⟩) (h : s.Takes r v s')
    (hr : ∀ handler d, r ≠ .handle handler d) (invoke : Function → List Value → Activity ω Value) (journal : ω) :
    Sound ⟨(after (Activity.runReaction invoke r v ⟨s', journal⟩)).state, calls, events⟩ := by
  have hmade : s.Made r.target := hx.sane.reactions _ h.mem_reactions
  have htakes : s.Spares [r.target] s' := h.spares hx.sane List.mem_cons_self
  have hruns := Activity.spares_runReaction invoke (fun f d ↦ hr (some f) d) htakes.sane (hmade.mono htakes.lastId) v
    journal
  refine hx.of_silent (htakes.trans hruns fun _ ↦ .inl) fun operation a hop ha ↦ ?_
  have hb := hx.books operation a hop
  have htarget : r.target = a := (List.mem_singleton.mp ha).symm
  have hfits := hb.of_mem (mem_reactionsFor.mpr ⟨h.mem_reactions, htarget⟩)
  cases operation with
  | chain p handler =>
    rcases hfits with rfl | rfl
    · exact absurd rfl (hr handler a)
    · have hadopt := Engine.derives_adopt hx.sane hb h
      rwa [← Activity.state_after_ofEngine _ ⟨s', journal⟩] at hadopt
  | all inputs =>
    intro hsettled
    obtain ⟨i, rfl⟩ := hfits hsettled
    obtain ⟨hcount, hgathers⟩ := hb hsettled
    have hadvances := Course.advances_of_collect hx.course ⟨hgathers, List.count_eq_zero.mp hcount⟩ h
    rw [← Activity.state_after_ofEngine _ ⟨s', journal⟩] at hadvances
    exact ⟨hcount, hadvances.watches.gathers⟩
  | race inputs =>
    intro hsettled
    cases hfits hsettled
    have hraces := Engine.races_settle hx.sane (hb hsettled).2 h
    rw [← Activity.state_after_ofEngine _ ⟨s', journal⟩] at hraces
    exact ⟨(hb hsettled).1, hraces⟩
  | fetch url line => exact fun hsettled ↦ absurd hsettled hfits
  | create => trivial
  | settle q v => trivial

theorem Sound.receive {url : Text} (hx : Sound ⟨s, calls, events⟩) (h : s.Receives q url s') :
    Sound ⟨after (Engine.completeFetch q url s'), calls, events⟩ := by
  have htakes : s.Spares [q] s' := h.spares hx.sane
  have hmade : s'.Made q := (hx.sane.fetching q h.mem_fetching).mono htakes.lastId
  have hruns := Engine.sparing_completeFetch List.mem_cons_self url s' htakes.sane (List.forall_mem_singleton.mpr hmade)
  refine hx.of_silent (htakes.trans hruns fun _ ↦ .inl) fun operation a hop ha ↦ ?_
  cases List.mem_singleton.mp ha
  have hb := hx.books operation q hop
  cases operation with
  | chain p handler => exact absurd h.mem_fetching hb.fetching
  | all inputs =>
    intro hsettled
    obtain ⟨-, value, slots, hl, -⟩ := hb hsettled
    exact absurd h.mem_fetching hl.tracks.fetching
  | race inputs => exact fun hsettled ↦ absurd h.mem_fetching (hb hsettled).2.fetching
  | fetch url' line =>
    exact fun hsettled ↦ ⟨(hb hsettled).1, Engine.expects_completeFetch hx.sane (hb hsettled).2 h⟩
  | create => trivial
  | settle q v => trivial

theorem Step.sound (h : Step x y) (hx : x.Sound) : y.Sound := by
  cases h with
  | operate operation => exact hx.operate operation
  | call h => exact hx.call h
  | conclude result => exact hx.conclude result
  | fail => exact hx.fail
  | pass h => exact hx.pass h
  | react h hr invoke journal => exact hx.react h hr invoke journal
  | receive h => exact hx.receive h
  | @other s s' _ _ h =>
    have hspares : s.Spares [] s' := h.shifts.spares hx.sane (List.forall_mem_nil _) (List.forall_mem_nil _)
      fun b hb ↦ .inr (h.fetching.symm ▸ hb)
    exact hx.of_silent hspares fun _ _ _ h ↦ nomatch h

theorem Reaches.sound (h : Reaches x y) (hx : x.Sound) : y.Sound := by
  induction h with
  | refl => exact hx
  | tail _ hstep ih => exact hstep.sound ih

theorem sound_initial : Sound {} where
  sane := Course.sound_initial.sane
  calls := List.forall_mem_nil _
  events := List.forall_mem_nil _
  books _ _ h := absurd h List.not_mem_nil

end History

end Stepwise
