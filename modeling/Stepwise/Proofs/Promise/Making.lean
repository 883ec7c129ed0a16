import Stepwise.Proofs.Promise.Keeping
/-!
How the books of a promise are opened by the operation that gives it.
-/

namespace Stepwise

namespace State

variable {s : State}

theorem Sane.reactionsFor_created (hs : s.Sane) : s.created.reactionsFor (.promise (s.lastId + 1)) = [] := by
  refine List.filter_eq_nil_iff.mpr fun r hr htarget ↦ s.not_made_next ?_
  exact of_decide_eq_true htarget ▸ hs.reactions r ((rewrites_created hs).perm.mem_iff.mp hr)

theorem Sane.not_fetching_created (hs : s.Sane) : .promise (s.lastId + 1) ∉ s.created.fetching :=
  fun h ↦ s.not_made_next (hs.fetching _ h)

theorem Sane.value?_created (hs : s.Sane) : s.created.value? (.promise (s.lastId + 1)) = none :=
  ((rewrites_created hs).value?_eq _).trans (if_pos rfl)

theorem Sane.contains_created (hs : s.Sane) : s.created.promises.contains (.promise (s.lastId + 1)) = true := by
  unfold Dict.contains
  rw [(rewrites_created hs).get?, if_pos rfl]
  rfl

theorem Sane.created (hs : s.Sane) : s.created.Sane := (rewrites_created hs).sane hs (List.forall_mem_nil _)

end State

namespace Engine

open State

variable {s s' : State} {a d p : Address} {handler : Option Function} {inputs : List Value} {events : List Event}

theorem eq_ok_of_create {β : Type} {f : Address → Engine β} {b : β} (h : (createPromise >>= f) s = .ok b s') :
    f (.promise (s.lastId + 1)) s.created = .ok b s' := by
  have hcreate : createPromise s = .ok (.promise (s.lastId + 1)) s.created := rfl
  rwa [bind_apply, hcreate] at h

theorem get?_of_promise_eq_ok {q : Address} {record : Promise} (h : promise q s = .ok record s') :
    s' = s ∧ s.promises.get? q = some record := by
  cases hq : s.promises.get? q with
  | none =>
    rw [promise_of_get?_eq_none hq] at h
    cases h
  | some record' =>
    rw [promise_of_get? hq] at h
    cases h
    exact ⟨rfl, rfl⟩

theorem exists_chain (hs : s.Sane) (handler : Option Function) (hp : s.promises.contains p = true) :
    ∃ d s', chain p handler s = .ok d s' ∧ s.promises.contains d = false := by
  have hcreated : s.created.promises.contains p = true := (rewrites_created hs).contains hp
  obtain ⟨record, hrecord⟩ := exists_promise hcreated
  obtain ⟨s', record', tasks, hs', -⟩ :=
    exists_subscribe hs.created hrecord (.handle handler (.promise (s.lastId + 1)))
  refine ⟨.promise (s.lastId + 1), s', ?_, ?_⟩
  · have hcreate : createPromise s = .ok (.promise (s.lastId + 1)) s.created := rfl
    unfold chain
    rw [bind_apply, hcreate]
    dsimp only
    rw [bind_apply, hs']
    rfl
  · unfold Dict.contains
    rw [hs.get?_next]
    rfl

theorem derives_chain (hs : s.Sane) (h : chain p handler s = .ok d s') (hprogress : Event.progress d events = []) :
    d = .promise (s.lastId + 1) ∧ s'.Derives p handler d events 0 := by
  obtain ⟨_, t, hsubscribe, h⟩ := bind_eq_ok (eq_ok_of_create h)
  cases h
  refine ⟨rfl, ?_⟩
  cases hp : s.created.promises.contains p with
  | false =>
    rw [subscribe_of_not_contains hp] at hsubscribe
    cases hsubscribe
  | true =>
    obtain ⟨record, hrecord⟩ := exists_promise hp
    obtain ⟨t, record', tasks, ht, h, hvalue, -⟩ :=
      exists_subscribe hs.created hrecord (.handle handler (.promise (s.lastId + 1)))
    cases ht.symm.trans hsubscribe
    refine ⟨h.contains hs.contains_created, h.fetching.symm ▸ hs.not_fetching_created, ?_, fun w hw ↦ ?_⟩
    · rw [hprogress]
      exact .waiting (h.sole hs.reactionsFor_created)
    · rw [h.value?_eq_of_eq hvalue, hs.value?_created] at hw
      cases hw

theorem expects_fetch {url : Text} {line : Int} (hs : s.Sane) (h : fetch url line s = .ok a s') :
    a = .promise (s.lastId + 1) ∧ s'.Expects a := by
  obtain ⟨task, t, hschedule, h⟩ := bind_eq_ok (eq_ok_of_create h)
  cases h
  have hshifts :=
    shifts_scheduleFetch (Text.ofString "Fetch response from " ++ url) (.promise (s.lastId + 1)) url line s.created
  rw [hschedule] at hshifts
  refine ⟨rfl, hshifts.promises.symm ▸ hs.contains_created, ?_, fun _ ↦ ?_⟩
  · have hperm := hshifts.perm_reactionsFor (.promise (s.lastId + 1))
    rw [hs.reactionsFor_created] at hperm
    exact hperm.nil_eq.symm
  · cases hschedule
    exact List.mem_filterMap.mpr ⟨_, List.mem_append_right _ List.mem_cons_self, rfl⟩

theorem races_of_settles {done : List Value} {t : State} {v w : Value} (h : s.Settles t a w) (hr : s.Races a done)
    (hv : t.Delivers v w) : t.Races a (done ++ [v]) where
  known := h.contains hr.known
  fetching := h.fetching.symm ▸ hr.fetching
  serves := (h.serves hr.serves).imp fun _ _ hrace ↦ hrace.imp_right (List.mem_append_left _)
  pending hnone := absurd hnone h.ne_none
  settled _ := ⟨v, List.mem_append_right _ List.mem_cons_self, w, hv⟩

theorem races_of_register {done : List Value} {t : State} {q : Address} {record record' : Promise}
    (h : s.Rewrites t q record record' [.race a] []) (hvalue : record'.value? = record.value?) (hr : s.Races a done) :
    t.Races a (done ++ [.promise q]) where
  known := h.contains hr.known
  fetching := h.fetching.symm ▸ hr.fetching
  serves := by
    have hserves := hr.serves.imp fun _ _ hrace ↦ hrace.imp_right (List.mem_append_left [Value.promise q])
    refine h.serves hserves (List.forall_mem_singleton.mpr fun _ ↦ ⟨rfl, ?_⟩)
    exact List.mem_append_right _ List.mem_cons_self
  pending hnone v hv := by
    rcases List.mem_append.mp hv with hv | hv
    · obtain ⟨b, hb, hawaits⟩ := hr.pending ((h.value?_eq_of_eq hvalue).symm.trans hnone) v hv
      exact ⟨b, hb, h.awaits hawaits⟩
    · exact ⟨q, List.mem_singleton.mp hv, h.awaits_new List.mem_cons_self⟩
  settled hsome := by
    obtain ⟨v, hv, w, hdelivers⟩ := hr.settled ((h.value?_eq_of_eq hvalue) ▸ hsome)
    exact ⟨v, List.mem_append_left _ hv, w, hdelivers.mono h.persists⟩

theorem races_raceFrom {done vs : List Value} (hs : s.Sane) (hmade : s.Made a) (hr : s.Races a done)
    (h : raceFrom a vs s = .ok () s') : s'.Races a (done ++ vs) := by
  -- the books are those of the inputs that have joined, and each step of the induction moves one over
  induction vs generalizing s done with
  | nil =>
    cases h
    rwa [List.append_nil]
  | cons v vs ih =>
    rw [List.append_cons]
    have hsettle (w : Value) (hw : ∀ t : State, s.Settles t a w → t.Delivers v w)
        (h : (settle a w >>= fun _ ↦ raceFrom a vs) s = .ok () s') : s'.Races a (done ++ [v] ++ vs) := by
      obtain ⟨_, t, hsettle, h⟩ := bind_eq_ok h
      obtain ⟨t', ht', hsettles⟩ := exists_settles hs hr.known w
      cases ht'.symm.trans hsettle
      obtain ⟨record, record', tasks, hrewrites⟩ := hsettles.rewrites
      refine ih (hrewrites.sane hs (List.forall_mem_nil _)) (hmade.mono hrewrites.lastId) ?_ h
      exact races_of_settles hsettles hr (hw t hsettles)
    cases v with
    | promise q =>
      obtain ⟨record, t, hlookup, hnext⟩ := bind_eq_ok h
      obtain ⟨rfl, hrecord⟩ := get?_of_promise_eq_ok hlookup
      cases hw : record.value? with
      | some w =>
        rw [hw] at hnext
        refine hsettle w (fun t hsettles ↦ hsettles.persists q w ?_) hnext
        unfold value?
        rw [hrecord]
        exact hw
      | none =>
        rw [hw] at hnext
        have hregister := rewrites_register hs hrecord hw (.race a)
        have hmade' := hmade.mono hregister.lastId
        exact ih (hregister.sane hs (List.forall_mem_singleton.mpr hmade')) hmade' (races_of_register hregister rfl hr)
          hnext
    | _ => exact hsettle _ (fun _ _ ↦ rfl) h

theorem races_race (hs : s.Sane) (h : race inputs s = .ok a s') : a = .promise (s.lastId + 1) ∧ s'.Races a inputs := by
  obtain ⟨_, t, hrace, h⟩ := bind_eq_ok (eq_ok_of_create h)
  cases h
  have hnobody := hs.reactionsFor_created
  have habsent {P : Prop} (r : Reaction) (hr : r ∈ s.created.reactions)
      (hra : r.target = .promise (s.lastId + 1)) : P := by
    have hmem := mem_reactionsFor.mpr ⟨hr, hra⟩
    rw [hnobody] at hmem
    cases hmem
  suffices hempty : s.created.Races (.promise (s.lastId + 1)) [] from
    ⟨rfl, races_raceFrom hs.created (rewrites_created hs).made hempty hrace⟩
  refine ⟨hs.contains_created, hs.not_fetching_created, ⟨fun e he r hr hra ↦ ?_, fun t ht hta ↦ ?_⟩, fun _ _ h ↦ ?_,
    fun hsome ↦ absurd hs.value?_created hsome⟩
  · exact habsent r (mem_reactions.mpr (.inl ⟨e, he, hr⟩)) hra
  · exact habsent t.1 (mem_reactions.mpr (.inr ⟨t.2, ht⟩)) hta
  · cases h

theorem contains_modifyPromise (q b : Address) (f : Promise → Promise) (s : State) :
    (after (modifyPromise q f s)).promises.contains b = s.promises.contains b := by
  change (s.promises.modify q f).contains b = _
  unfold Dict.contains
  rw [Dict.get?_modify]
  split
  next hb => rw [hb, Option.isSome_map]
  next => rfl

theorem contains_of_collectFrom {vs : List Value} {index : Nat} (h : collectFrom a index vs s = .ok () s') (q : Address)
    (hq : .promise q ∈ vs) : s.promises.contains q = true := by
  induction vs generalizing s index with
  | nil => cases hq
  | cons v vs ih =>
    have hrest {b : Address} {f : Promise → Promise}
        (h : (modifyPromise b f >>= fun _ ↦ collectFrom a (index + 1) vs) s = .ok () s')
        (hq : .promise q ∈ vs) : s.promises.contains q = true := by
      have hcontains := contains_modifyPromise b q f s
      obtain ⟨_, t, ht, h⟩ := bind_eq_ok h
      rw [ht] at hcontains
      exact hcontains.symm.trans (ih h hq)
    cases v with
    | promise b =>
      obtain ⟨record, t, hlookup, hnext⟩ := bind_eq_ok h
      obtain ⟨rfl, hrecord⟩ := get?_of_promise_eq_ok hlookup
      rcases List.mem_cons.mp hq with hqb | hq
      · cases hqb
        unfold Dict.contains
        rw [hrecord]
        rfl
      · cases hw : record.value? with
        | some w => rw [hw] at hnext; exact hrest hnext hq
        | none => rw [hw] at hnext; exact hrest hnext hq
    | _ => exact hrest h ((List.mem_cons.mp hq).resolve_left nofun)

theorem gathers_all (hs : s.Sane) (h : all inputs s = .ok a s') :
    a = .promise (s.lastId + 1) ∧ s'.Gathers a inputs := by
  have hcollect := eq_ok_of_create h
  obtain ⟨_, t, hprepare, hcollect⟩ := bind_eq_ok hcollect
  obtain ⟨_, t', hcollect, -⟩ := bind_eq_ok hcollect
  have hknown (q : Address) (hq : .promise q ∈ inputs) : s.created.promises.contains q = true := by
    have hcontains := contains_modifyPromise (.promise (s.lastId + 1)) q (fun p ↦
      { p with slots := List.replicate inputs.length .null, remaining := inputs.length }) s.created
    rw [hprepare] at hcontains
    exact hcontains.symm.trans (contains_of_collectFrom hcollect q hq)
  obtain ⟨t, ht, hcloses⟩ := exists_all_of_created hs hknown
  cases ht.symm.trans h
  exact ⟨rfl, hcloses.gathers⟩

end Engine

end Stepwise
