import Stepwise.Proofs.Promise.Book
/-!
How the books of a promise are kept by what works on it: its handler is called and gives a result, or
a reaction or a response brings it a value.
-/

namespace Stepwise

namespace State

variable {s s' : State} {a d p q : Address} {handler g : Option Function} {events new : List Event} {n : Nat}
  {r : Reaction} {v w result : Value} {record record' : Promise} {tasks : List (Reaction × Value)}
  {inputs : List Value} {url : Text}

theorem Derives.eq_of_mem (hd : s.Derives p handler d events n) (hr : r ∈ s.reactionsFor d) :
    r = .handle handler d ∨ r = .adopt d := by
  obtain ⟨-, -, hchained, -⟩ := hd
  have hnobody (hnone : s.reactionsFor d = []) : r = .handle handler d ∨ r = .adopt d := by
    rw [hnone] at hr
    cases hr
  have hsole {q : Address} {r' : Reaction} (h : s.Sole d q r') : r = r' := List.mem_singleton.mp (h.only ▸ hr)
  generalize Event.progress d events = progress at hchained
  cases hchained with
  | waiting h => exact .inl (hsole h)
  | running _ _ hnone => exact hnobody hnone
  | failed _ hnone => exact hnobody hnone
  | @concluded v result _ _ h =>
    cases result with
    | promise q => exact h.elim (fun h ↦ .inr (hsole h)) fun h ↦ hnobody h.1
    | _ => exact hnobody h.1

theorem Races.eq_of_mem (h : s.Races a inputs) (hr : r ∈ s.reactionsFor a) : r = .race a := by
  obtain ⟨hr, hra⟩ := mem_reactionsFor.mp hr
  rcases mem_reactions.mp hr with ⟨e, he, hr⟩ | ⟨w, hw⟩
  · exact (h.serves.registered e he r hr hra).1
  · obtain ⟨q, hq, -⟩ := h.serves.queued _ hw hra
    exact hq.1

theorem Takes.mem_reactionsFor (h : s.Takes r v s') : r ∈ s.reactionsFor r.target :=
  State.mem_reactionsFor.mpr ⟨h.mem_reactions, rfl⟩

/-- A handler is only called once for its promise, with the value of the one that it waits for. -/
theorem Derives.of_takes_handle (hd : s.Derives p handler d events n) (h : s.Takes (.handle g d) v s') :
    g = handler ∧ Event.progress d events = [] ∧ n = 0 ∧ s.value? p = some v ∧ s'.reactionsFor d = [] := by
  have hmem : .handle g d ∈ s.reactionsFor d := h.mem_reactionsFor
  obtain ⟨-, -, hchained, -⟩ := hd
  generalize Event.progress d events = progress at hchained
  cases hchained with
  | waiting hsole =>
    obtain ⟨hr, hv, hnone⟩ := hsole.of_shifts h.shifts rfl
    exact ⟨(Reaction.handle.inj hr).1, rfl, rfl, hv, hnone⟩
  | running _ _ hnone => rw [hnone] at hmem; cases hmem
  | failed _ hnone => rw [hnone] at hmem; cases hmem
  | @concluded v result _ _ hpursues =>
    cases result with
    | promise q =>
      rcases hpursues with hsole | ⟨hnone, -⟩
      · cases (hsole.of_shifts h.shifts rfl).1
      · rw [hnone] at hmem; cases hmem
    | _ => rw [hpursues.1] at hmem; cases hmem

theorem Stems.mono {events' : List Event} (h : s.Stems d events) (hvalue : s'.value? d = s.value? d)
    (hpersists : ∀ b w, s.value? b = some w → s'.value? b = some w) (hsub : events ⊆ events') : s'.Stems d events' := by
  intro w hw
  rcases h w (hvalue ▸ hw) with hsettled | ⟨result, hresult, hdelivers⟩
  · exact .inl (hsub hsettled)
  · exact .inr ⟨result, hsub hresult, hdelivers.mono hpersists⟩

/-- A promise that was there was settled, unless it was settled before. -/
structure Settles (s s' : State) (d : Address) (v : Value) : Prop where
  rewrites : ∃ record record' tasks, s.Rewrites s' d record record' [] tasks
  value : s'.value? d = (s.value? d).or (some v)

namespace Settles

variable {b : Address} {R : Address → Reaction → Prop}

theorem upholds (h : s.Settles s' d v) (b : Address) : s.Upholds s' b := by
  obtain ⟨record, record', tasks, h⟩ := h.rewrites
  exact h.upholds (List.forall_mem_nil _)

theorem persists (h : s.Settles s' d v) (b : Address) (w : Value) (hb : s.value? b = some w) :
    s'.value? b = some w := (h.upholds b).persists hb

theorem contains (h : s.Settles s' d v) (hb : s.promises.contains b = true) : s'.promises.contains b = true := by
  obtain ⟨record, record', tasks, h⟩ := h.rewrites
  exact h.contains hb

theorem fetching (h : s.Settles s' d v) : s'.fetching = s.fetching := by
  obtain ⟨record, record', tasks, h⟩ := h.rewrites
  exact h.fetching

theorem serves (h : s.Settles s' d v) (hs : s.Serves b R) : s'.Serves b R := by
  obtain ⟨record, record', tasks, h⟩ := h.rewrites
  exact h.serves hs (List.forall_mem_nil _)

theorem ne_none (h : s.Settles s' d v) : s'.value? d ≠ none := by
  rw [h.value]
  cases s.value? d <;> exact Option.some_ne_none _

/-- The value may be a new one, which has to come from somewhere. -/
theorem stems {events' : List Event} (h : s.Settles s' d v) (hs : s.Stems d events) (hsub : events ⊆ events')
    (hv : .settled d v ∈ events' ∨ ∃ result, .concluded d result ∈ events' ∧ s'.Delivers result v) :
    s'.Stems d events' := by
  have hvalue := h.value
  cases hd : s.value? d with
  | some w' => exact hs.mono (hvalue.trans (hd ▸ rfl)) h.persists hsub
  | none =>
    intro w hw
    rw [hvalue, hd] at hw
    cases hw
    exact hv

end Settles

end State

namespace Event

theorem progress_append (d : Address) (events new : List Event) :
    progress d (events ++ new) = progress d events ++ progress d new := List.filter_append _ _

theorem progress_concluded (d : Address) (result : Value) : progress d [concluded d result] = [concluded d result] := by
  simp [progress, isProgress, subject?]

theorem progress_failed (d : Address) : progress d [failed d] = [failed d] := by
  simp [progress, isProgress, subject?]

theorem progress_began (f : Function) (d : Address) (v : Value) : progress d [began f d v] = [began f d v] := by
  simp [progress, isProgress, subject?]

end Event

namespace Engine

open State

variable {s s' : State} {a d p q : Address} {handler : Option Function} {events : List Event} {n : Nat}
  {v w result : Value} {inputs : List Value} {url : Text}

theorem exists_promise (h : s.promises.contains d = true) : ∃ record, s.promises.get? d = some record :=
  Option.isSome_iff_exists.mp h

theorem exists_settles (hs : s.Sane) (hd : s.promises.contains d = true) (v : Value) :
    ∃ s', settle d v s = .ok () s' ∧ s.Settles s' d v := by
  obtain ⟨record, hrecord⟩ := exists_promise hd
  obtain ⟨s', record', tasks, hs', h, hvalue⟩ := exists_rewrites_settle hs hrecord v
  refine ⟨s', hs', ⟨record, record', tasks, h⟩, ?_⟩
  rw [h.value?_eq, if_pos rfl, hvalue, h.value?_before]

theorem get?_eq_none (hq : s.promises.contains q = false) : s.promises.get? q = none := by
  unfold Dict.contains at hq
  rwa [Option.isSome_eq_false_iff, Option.isNone_iff_eq_none] at hq

theorem subscribe_of_not_contains (hq : s.promises.contains q = false) (r : Reaction) :
    subscribe q r s = .error (.unknownPromise q.toText) s := by
  unfold subscribe
  rw [bind_apply, promise_of_get?_eq_none (get?_eq_none hq)]

theorem settle_of_not_contains (hq : s.promises.contains q = false) (v : Value) :
    settle q v s = .error (.unknownPromise q.toText) s := settle_of_get?_eq_none (get?_eq_none hq) v

theorem derives_conclude (hs : s.Sane) (hknown : s.promises.contains d = true) (hfetching : d ∉ s.fetching)
    (hnobody : s.reactionsFor d = []) (hv : s.value? p = some v) (hresult : handler = none → result = v)
    (hprogress : Event.progress d events = Event.beginning handler d v) (hstems : s.Stems d events) :
    (after (conclude d result s)).Derives p handler d (events ++ [.ending d result (conclude d result s)]) 0 := by
  have hsub (new : List Event) : events ⊆ events ++ new := List.subset_append_left _ _
  have hconcluded {s' : State} (hv : s'.value? p = some v) (hpursues : s'.Pursues d result) :
      s'.Chained p handler d (Event.progress d (events ++ [.concluded d result])) 0 := by
    rw [Event.progress_append, hprogress, Event.progress_concluded]
    exact .concluded hv hresult hpursues
  -- a result that is no promise is the value from now on
  have hsettle (hplain : ∀ s : State, s.reactionsFor d = [] ∧ s.value? d ≠ none → s.Pursues d result)
      (hdelivers : ∀ s : State, s.Delivers result result) : (after (settle d result s)).Derives p handler d
        (events ++ [.ending d result (settle d result s)]) 0 := by
    obtain ⟨s', hs', h⟩ := exists_settles hs hknown result
    have hup := h.upholds d
    rw [hs']
    refine ⟨h.contains hknown, h.fetching.symm ▸ hfetching, ?_,
      h.stems hstems (hsub _) (.inr ⟨result, ?_, hdelivers s'⟩)⟩
    · exact hconcluded (hup.persists hv) (hplain s' ⟨hup.nobody hnobody, h.ne_none⟩)
    · exact List.mem_append_right _ List.mem_cons_self
  cases result with
  | promise q =>
    -- a result that is a promise is waited for, if there is such a promise
    change (after (subscribe q (.adopt d) s)).Derives p handler d (events ++ [.ending d _ (subscribe q (.adopt d) s)]) 0
    cases hq : s.promises.contains q with
    | false =>
      rw [subscribe_of_not_contains hq]
      refine ⟨hknown, hfetching, ?_, hstems.mono rfl (fun _ _ ↦ id) (hsub _)⟩
      change s.Chained p handler d (Event.progress d (events ++ [.failed d])) 0
      rw [Event.progress_append, hprogress, Event.progress_failed]
      exact .failed hv hnobody
    | true =>
      obtain ⟨record, hrecord⟩ := exists_promise hq
      obtain ⟨s', record', tasks, hs', h, hvalue, -⟩ := exists_subscribe hs hrecord (.adopt d)
      have hvalue' : s'.value? d = s.value? d := h.value?_eq_of_eq hvalue
      rw [hs']
      exact ⟨h.contains hknown, h.fetching.symm ▸ hfetching,
        hconcluded (h.persists p v hv) (.inl (h.sole hnobody)), hstems.mono hvalue' h.persists (hsub _)⟩
  | _ => exact hsettle (fun _ ↦ id) fun _ ↦ rfl

theorem derives_adopt (hs : s.Sane) (hd : s.Derives p handler d events n) (ht : s.Takes (.adopt d) w s') :
    (after (settle d w s')).Derives p handler d events n := by
  have hmem : .adopt d ∈ s.reactionsFor d := ht.mem_reactionsFor
  have hs' := ht.shifts.sane hs (List.forall_mem_nil _)
  have hknown' : s'.promises.contains d = true := ht.shifts.promises.symm ▸ hd.known
  obtain ⟨s'', hs'', h⟩ := exists_settles hs' hknown' w
  rw [hs'']
  obtain ⟨hknown, hfetching, hchained, hstems⟩ := hd
  have hstems' : s'.Stems d events :=
    hstems.mono (ht.shifts.value?_eq d) (fun b w hb ↦ (ht.shifts.value?_eq b).trans hb) (List.Subset.refl _)
  have hevents {result : Value} (h : .concluded d result ∈ Event.progress d events) : .concluded d result ∈ events :=
    List.mem_of_mem_filter h
  generalize hprogress : Event.progress d events = progress at hchained hevents
  have habsurd {P : Prop} (hnone : s.reactionsFor d = []) : P := by
    rw [hnone] at hmem
    cases hmem
  -- only with a result that is a pending promise is there a reaction of this kind
  cases hchained with
  | waiting hsole => cases (hsole.of_shifts ht.shifts rfl).1
  | running _ _ hnone => exact habsurd hnone
  | failed _ hnone => exact habsurd hnone
  | @concluded v result hv hresult hpursues =>
    cases result with
    | promise q =>
      rcases hpursues with hsole | ⟨hnone, -⟩
      · obtain ⟨-, hq, hnone⟩ := hsole.of_shifts ht.shifts rfl
        have hup := h.upholds d
        have hq' : s''.value? q = some w := hup.persists ((ht.shifts.value?_eq q).trans hq)
        have hv' : s''.value? p = some v := hup.persists ((ht.shifts.value?_eq p).trans hv)
        have hconcluded : .concluded d (.promise q) ∈ events := hevents (List.mem_append_right _ List.mem_cons_self)
        refine ⟨h.contains hknown', h.fetching.symm ▸ ht.fetching.symm ▸ hfetching, ?_,
          h.stems hstems' (List.Subset.refl _) (.inr ⟨_, hconcluded, hq'⟩)⟩
        rw [hprogress]
        exact .concluded hv' hresult (.inr ⟨hup.nobody hnone, h.ne_none, hq' ▸ Option.some_ne_none w⟩)
      · exact habsurd hnone
    | _ => exact habsurd hpursues.1

theorem derives_settle (hs : s.Sane) (hd : s.Derives p handler d events n) (w : Value) :
    ∃ s', settle d w s = .ok () s' ∧ s'.Derives p handler d (events ++ [.settled d w]) n := by
  obtain ⟨s', hs', h⟩ := exists_settles hs hd.known w
  refine ⟨s', hs', h.contains hd.known, h.fetching.symm ▸ hd.fetching, ?_, h.stems hd.stems ?_ ?_⟩
  · have hnone : Event.progress d [.settled d w] = [] := rfl
    rw [Event.progress_append, hnone, List.append_nil]
    exact hd.chained.mono (h.upholds d)
  · exact List.subset_append_left _ _
  · exact .inl (List.mem_append_right _ List.mem_cons_self)

theorem races_settle (hs : s.Sane) (h : s.Races a inputs) (ht : s.Takes (.race a) w s') :
    (after (settle a w s')).Races a inputs := by
  have hs' := ht.shifts.sane hs (List.forall_mem_nil _)
  have hknown' : s'.promises.contains a = true := ht.shifts.promises.symm ▸ h.known
  have hqueued : (.race a, w) ∈ s.queued := ht.shifts.queued.mem_iff.mpr List.mem_cons_self
  obtain ⟨q, ⟨-, hq⟩, hw⟩ := h.serves.queued _ hqueued rfl
  obtain ⟨s'', hs'', hsettles⟩ := exists_settles hs' hknown' w
  rw [hs'']
  refine ⟨hsettles.contains hknown', hsettles.fetching.symm ▸ ht.fetching.symm ▸ h.fetching,
    hsettles.serves (ht.shifts.serves h.serves), fun hnone ↦ absurd hnone hsettles.ne_none, fun _ ↦ ?_⟩
  exact ⟨.promise q, hq, w, hsettles.persists q w ((ht.shifts.value?_eq q).trans hw)⟩

theorem expects_completeFetch (hs : s.Sane) (h : s.Expects a) (ht : s.Receives a url s') :
    (after (completeFetch a url s')).Expects a := by
  have hs' := ht.shifts.sane hs (List.forall_mem_nil _)
  let fields : Dict Text Value :=
    Dict.ofList [(Text.ofString "status", .ofInt okStatus), (Text.ofString "url", .string url)]
  have hobject := shifts_newObject fields s'
  have hknown : (after (newObject fields s')).promises.contains a = true :=
    hobject.promises.symm ▸ ht.shifts.promises.symm ▸ h.known
  have hnobody : (after (newObject fields s')).reactionsFor a = [] := by
    have hperm := (ht.shifts.perm_reactionsFor a).trans (hobject.perm_reactionsFor a)
    rw [h.nobody] at hperm
    exact hperm.nil_eq.symm
  obtain ⟨s'', hs'', hsettles⟩ := exists_settles (hobject.sane hs' (List.forall_mem_nil _)) hknown
    (.object (.object (s'.lastId + 1)))
  have hcomplete : completeFetch a url s' = .ok () s'' := hs''
  rw [hcomplete]
  exact ⟨hsettles.contains hknown, (hsettles.upholds a).nobody hnobody, fun hnone ↦ absurd hnone hsettles.ne_none⟩

end Engine

end Stepwise
