import Stepwise.Proofs.Promise.Account
import Stepwise.Proofs.Promise.Changing
/-!
Races. The inputs join one by one: those at hand settle the race, and it waits for the others. As long as it is open
nothing of it is in the queue, so that the input that is settled next puts the first reaction of it there.
-/

namespace Stepwise

namespace Standing

/-- An input joins a race. -/
def join (a : Address) (c : Standing) (v : Value) : Standing :=
  match v with
  | .promise q =>
    match c.value? q with
    | some w => c.settle a w
    | none => c.register q (.race a)
  | v => c.settle a v

/-- A race for which nothing has been decided yet: its inputs are pending, and it waits for them only. -/
structure Open (c : Standing) (inputs : List Value) (a : Address) : Prop where
  value : c.value? a = none
  pending : ∀ q, .promise q ∈ inputs → c.value? q = none ∧ .race a ∈ c.waiting q
  only : ∀ q, .race a ∈ c.waiting q → .promise q ∈ inputs
  queued : ∀ t ∈ c.queued, t.1 ≠ .race a

/-- A race has a value, or the first reaction of it in the queue brings the value. -/
def Wins (c : Standing) (a : Address) (w : Value) : Prop :=
  c.value? a = some w ∨ c.value? a = none ∧
    ∃ before behind, c.queued = before ++ (.race a, w) :: behind ∧ ∀ t ∈ before, t.1 ≠ .race a

/-- One of the inputs is the first to have a value, and wins. -/
structure Decided (c : Standing) (inputs : List Value) (a q : Address) (w : Value) : Prop where
  input : .promise q ∈ inputs
  value : c.value? q = some w
  first : ∀ b, .promise b ∈ inputs → b ≠ q → c.value? b = none
  wins : c.Wins a w

variable {c c' : Standing} {a b q : Address} {r : Reaction} {v w : Value} {inputs vs : List Value}
  {new : Address → Reaction → Prop} {gives : Standing → Address → Value → Prop} {own : Option Address}

theorem join_of_delivered (h : c.delivered? v = some w) : c.join a v = c.settle a w := by
  cases v with
  | promise q =>
    have hq : c.value? q = some w := h
    simp only [join, hq]
  | _ =>
    cases h
    rfl

theorem join_of_not_delivered (h : c.delivered? v = none) :
    ∃ q, v = .promise q ∧ c.value? q = none ∧ c.join a v = c.register q (.race a) := by
  cases v with
  | promise q =>
    have hq : c.value? q = none := h
    exact ⟨q, rfl, hq, by simp only [join, hq]⟩
  | _ => cases h

theorem value?_join_of_ne (hb : b ≠ a) : (c.join a v).value? b = c.value? b := by
  cases h : c.delivered? v with
  | some w => rw [join_of_delivered h, value?_settle, if_neg hb]
  | none =>
    obtain ⟨q, -, -, hjoin⟩ := join_of_not_delivered (a := a) h
    rw [hjoin, value?_register]

theorem delivered?_join {v' : Value} (h : v' ≠ .promise a) : (c.join a v).delivered? v' = c.delivered? v' := by
  cases v' with
  | promise b =>
    have hb : b ≠ a := by
      rintro rfl
      exact h rfl
    exact value?_join_of_ne hb
  | _ => rfl

/-- The value that a race gets by its call is that of the first input at hand. -/
theorem value?_joins {c₀ : Standing} (ha : .promise a ∉ vs) (hc : ∀ v ∈ vs, c.delivered? v = c₀.delivered? v) :
    (vs.foldl (join a) c).value? a = (c.value? a).or (vs.findSome? c₀.delivered?) := by
  induction vs generalizing c with
  | nil => simp
  | cons v vs ih =>
    have hrest : .promise a ∉ vs := fun h ↦ ha (List.mem_cons_of_mem v h)
    have hjoined : ∀ v' ∈ vs, (c.join a v).delivered? v' = c₀.delivered? v' := by
      intro v' hv'
      have hne : v' ≠ .promise a := by
        rintro rfl
        exact hrest hv'
      rw [delivered?_join hne, hc v' (List.mem_cons_of_mem v hv')]
    rw [List.foldl_cons, ih hrest hjoined, List.findSome?_cons, ← hc v List.mem_cons_self]
    cases h : c.delivered? v with
    | some w => simp [join_of_delivered h, value?_settle]
    | none =>
      obtain ⟨q, -, -, hjoin⟩ := join_of_not_delivered (a := a) h
      simp [hjoin]

/-- If no input is at hand, the race waits for each of them. -/
theorem open_joins {done : List Value} (ha : .promise a ∉ vs) (hc : c.Open done a)
    (hvs : ∀ v ∈ vs, c.delivered? v = none) : (vs.foldl (join a) c).Open (done ++ vs) a := by
  induction vs generalizing c done with
  | nil => simpa using hc
  | cons v vs ih =>
    obtain ⟨q, rfl, hq, hjoin⟩ := join_of_not_delivered (a := a) (hvs v List.mem_cons_self)
    have hrest : .promise a ∉ vs := fun h ↦ ha (List.mem_cons_of_mem _ h)
    rw [List.foldl_cons, List.append_cons]
    refine ih hrest ?_ fun v' hv' ↦ ?_
    · have hwaiting (b : Address) : (c.register q (.race a)).waiting b =
          if b = q then c.waiting q ++ [.race a] else c.waiting b := by
        rw [register_of_none hq]
        exact Function.update_apply ..
      rw [hjoin]
      refine ⟨by simp [hc.value], fun b hb ↦ ?_, fun b hb ↦ ?_, ?_⟩
      · rw [value?_register, hwaiting]
        by_cases hbq : b = q
        · subst hbq
          simp [hq]
        · have hb : .promise b ∈ done := by simpa [hbq] using hb
          simpa [hbq] using hc.pending b hb
      · rw [hwaiting] at hb
        by_cases hbq : b = q
        · simp [hbq]
        · rw [if_neg hbq] at hb
          exact List.mem_append_left _ (hc.only b hb)
      · rw [register_of_none hq]
        exact hc.queued
    · have hne : v' ≠ .promise a := by
        rintro rfl
        exact hrest hv'
      rw [delivered?_join hne]
      exact hvs v' (List.mem_cons_of_mem _ hv')

theorem Wins.of_queued (h : c.Wins a w) (hvalue : c'.value? a = c.value? a) (hqueued : c.queued <+: c'.queued) :
    c'.Wins a w := by
  rcases h with h | ⟨hnone, before, behind, hsplit, hbefore⟩
  · exact .inl (hvalue.trans h)
  · obtain ⟨more, hmore⟩ := hqueued
    refine .inr ⟨hvalue.trans hnone, before, behind ++ more, ?_, hbefore⟩
    simp [← hmore, hsplit]

theorem Open.register (h : c.Open inputs a) (hr : r ≠ .race a) : (c.register b r).Open inputs a := by
  cases hb : c.value? b with
  | some w =>
    rw [register_of_some hb]
    refine ⟨h.value, h.pending, h.only, fun t ht ↦ ?_⟩
    rcases List.mem_append.mp ht with ht | ht
    · exact h.queued t ht
    · cases List.mem_singleton.mp ht
      exact hr
  | none =>
    have hwaiting (q : Address) : .race a ∈ (c.register b r).waiting q ↔ .race a ∈ c.waiting q := by
      rw [register_of_none hb]
      by_cases hq : q = b
      · subst hq
        simp [hr.symm]
      · simp [hq]
    refine ⟨by simp [h.value], fun q hq ↦ ?_, fun q hq ↦ h.only q ((hwaiting q).mp hq), ?_⟩
    · rw [value?_register, hwaiting]
      exact h.pending q hq
    · rw [register_of_none hb]
      exact h.queued

theorem Open.settle (h : c.Open inputs a) (ha : b ≠ a) (hb : .promise b ∉ inputs) : (c.settle b v).Open inputs a := by
  have hvalue {q : Address} (hq : q ≠ b) : (c.settle b v).value? q = c.value? q := by rw [value?_settle, if_neg hq]
  have hne {q : Address} (hq : .promise q ∈ inputs) : q ≠ b := by
    rintro rfl
    exact hb hq
  -- the race waits for inputs only, so that no reaction of it is put into the queue
  have hraced : .race a ∉ c.waiting b := fun hmem ↦ hb (h.only b hmem)
  refine ⟨(hvalue ha.symm).trans h.value, fun q hq ↦ ?_, fun q hq ↦ ?_, fun t ht ↦ ?_⟩
  · rw [hvalue (hne hq), waiting_settle c v (hne hq)]
    exact h.pending q hq
  · by_cases hqb : q = b
    · subst hqb
      cases hw : c.value? q with
      | none => simp [settle_of_none hw] at hq
      | some w =>
        rw [settle_of_some hw] at hq
        exact h.only q hq
    · rw [waiting_settle c v hqb] at hq
      exact h.only q hq
  · cases hw : c.value? b with
    | none =>
      rw [settle_of_none hw] at ht
      rcases List.mem_append.mp ht with ht | ht
      · exact h.queued t ht
      · obtain ⟨r, hr, rfl⟩ := List.mem_map.mp ht
        rintro rfl
        exact hraced hr
    | some w =>
      rw [settle_of_some hw] at ht
      exact h.queued t ht

theorem Open.decided (h : c.Open inputs a) (ha : q ≠ a) (hq : .promise q ∈ inputs) (w : Value) :
    (c.settle q w).Decided inputs a q w := by
  obtain ⟨hpending, hraced⟩ := h.pending q hq
  -- the race may wait for the input several times: the first reaction of it is the one that counts
  obtain ⟨before, behind, hsplit, hfirst⟩ := List.eq_append_cons_of_mem hraced
  rw [settle_of_none hpending]
  refine ⟨hq, by simp, fun b hb hne ↦ by simpa [hne] using (h.pending b hb).1, .inr ⟨?_, ?_⟩⟩
  · simpa [ha.symm] using h.value
  · refine ⟨c.queued ++ before.map (·, w), behind.map (·, w), by simp [hsplit], ?_⟩
    refine List.forall_mem_append.mpr ⟨h.queued, fun t ht ↦ ?_⟩
    obtain ⟨r, hr, rfl⟩ := List.mem_map.mp ht
    rintro rfl
    exact hfirst hr

/-- Changes that settle one input at most leave a race open, or that input decides it. -/
theorem Changes.decides (h : Changes new gives c c') (hc : c.Open inputs a) (hnew : ∀ q r, new q r → r ≠ .race a)
    (hgives : ∀ c q v, gives c q v → q ≠ a ∧ (.promise q ∈ inputs → own = some q)) :
    c'.Open inputs a ∨ ∃ q w, own = some q ∧ c'.Decided inputs a q w := by
  refine h.preserves (P := fun c' ↦ c'.Open inputs a ∨ ∃ q w, own = some q ∧ c'.Decided inputs a q w) (.inl hc)
    (fun c b r hr hc ↦ ?_) fun c b v hv hc ↦ ?_
  · rcases hc with hc | ⟨q, w, hq, hd⟩
    · exact .inl (hc.register (hnew b r hr))
    · have hwins := hd.wins.of_queued (by simp) (queued_register c b r)
      exact .inr ⟨q, w, hq, hd.input, by simp [hd.value], by simpa using hd.first, hwins⟩
  · obtain ⟨ha, hown⟩ := hgives c b v hv
    have hother {q : Address} (hq : q ≠ b) : (c.settle b v).value? q = c.value? q := by rw [value?_settle, if_neg hq]
    by_cases hb : .promise b ∈ inputs
    · rcases hc with hc | ⟨q, w, hq, hd⟩
      · exact .inr ⟨b, v, hown hb, hc.decided ha hb v⟩
      · -- the input that has decided the race is settled again, which changes nothing
        cases hq.symm.trans (hown hb)
        rw [settle_of_some hd.value]
        exact .inr ⟨b, w, hq, hd⟩
    · rcases hc with hc | ⟨q, w, hq, hd⟩
      · exact .inl (hc.settle ha hb)
      · have hne {q : Address} (hq : .promise q ∈ inputs) : q ≠ b := by
          rintro rfl
          exact hb hq
        have hwins := hd.wins.of_queued (hother ha.symm) (queued_settle c b v)
        refine .inr ⟨q, w, hq, hd.input, (hother (hne hd.input)).trans hd.value, fun q' hq' hqq' ↦ ?_, hwins⟩
        exact (hother (hne hq')).trans (hd.first q' hq' hqq')

/-- What has won wins, unless the race is settled by something else. -/
theorem Changes.wins (h : Changes new gives c c') (hc : c.Wins a w) (hgives : ∀ c q v, gives c q v → q ≠ a) :
    c'.Wins a w := by
  refine h.preserves (P := fun c ↦ c.Wins a w) hc
    (fun c b r _ hc ↦ hc.of_queued (by simp) (queued_register c b r)) fun c b v hv hc ↦ ?_
  have hb : a ≠ b := (hgives c b v hv).symm
  exact hc.of_queued (by rw [value?_settle, if_neg hb]) (queued_settle c b v)

end Standing

namespace Engine

open State

variable {s : State} {a : Address} {vs : List Value}

theorem standing_raceFrom (hs : s.Sane) (ha : s.promises.contains a = true)
    (hknown : ∀ q, .promise q ∈ vs → s.promises.contains q = true) :
    ∃ t, raceFrom a vs s = .ok () t ∧ t.standing = vs.foldl (Standing.join a) s.standing := by
  induction vs generalizing s with
  | nil => exact ⟨s, rfl, rfl⟩
  | cons v vs ih =>
    have hrest (q : Address) (hq : .promise q ∈ vs) : s.promises.contains q = true :=
      hknown q (List.mem_cons_of_mem v hq)
    -- an input at hand may be a plain value or a promise that has one; both settle the race
    have hsettle (w : Value) (hw : s.standing.delivered? v = some w) :
        ∃ t, (settle a w >>= fun _ ↦ raceFrom a vs) s = .ok () t ∧
          t.standing = (v :: vs).foldl (Standing.join a) s.standing := by
      obtain ⟨p, hp⟩ := exists_promise ha
      obtain ⟨t, ht, hstanding, -⟩ := standing_settle hp w
      obtain ⟨t', ht', hsettles⟩ := exists_settles hs ha w
      cases ht.symm.trans ht'
      obtain ⟨p, p', tasks, hrewrites⟩ := hsettles.rewrites
      have ht₀ := hrewrites.sane hs (List.forall_mem_nil _)
      obtain ⟨u, hu, hjoined⟩ := ih ht₀ (hsettles.contains ha) fun q hq ↦ hsettles.contains (hrest q hq)
      rw [bind_apply, ht]
      refine ⟨u, hu, ?_⟩
      rw [hjoined, hstanding, List.foldl_cons, Standing.join_of_delivered hw]
    cases v with
    | promise q =>
      obtain ⟨p, hp⟩ := exists_promise (hknown q List.mem_cons_self)
      have hvalue : s.value? q = p.value? := value?_of_get? hp
      change ∃ t, (Engine.promise q >>= _) s = .ok () t ∧ _
      rw [bind_apply, promise_of_get? hp]
      cases hw : p.value? with
      | some w =>
        dsimp only
        rw [hw]
        exact hsettle w (hvalue.trans hw)
      | none =>
        have hrewrites := rewrites_register hs hp hw (.race a)
        have hmade : s.Made a := hs.made_of_contains ha
        have ht := hrewrites.sane hs (List.forall_mem_singleton.mpr (hmade.mono hrewrites.lastId))
        obtain ⟨u, hu, hjoined⟩ := ih ht (hrewrites.contains ha) fun q hq ↦ hrewrites.contains (hrest q hq)
        dsimp only
        rw [hw]
        refine ⟨u, hu, ?_⟩
        have hpending : s.standing.delivered? (.promise q) = none := hvalue.trans hw
        obtain ⟨_, heq, -, hjoin⟩ := Standing.join_of_not_delivered (a := a) hpending
        cases heq
        rw [hjoined, standing_register hp hw, List.foldl_cons, hjoin]
    | _ => exact hsettle _ rfl

theorem exists_race {inputs : List Value} (hs : s.Sane)
    (hknown : ∀ q, .promise q ∈ inputs → s.promises.contains q = true) :
    ∃ t, race inputs s = .ok (.promise (s.lastId + 1)) t ∧
      t.standing = inputs.foldl (Standing.join (.promise (s.lastId + 1))) s.standing := by
  have hcreated (q : Address) (hq : .promise q ∈ inputs) : s.created.promises.contains q = true :=
    (rewrites_created hs).contains (hknown q hq)
  obtain ⟨t, ht, hstanding⟩ := standing_raceFrom hs.created hs.contains_created hcreated
  have hcreate : createPromise s = .ok (.promise (s.lastId + 1)) s.created := rfl
  refine ⟨t, ?_, standing_created hs.ahead ▸ hstanding⟩
  unfold race
  rw [bind_apply, hcreate]
  dsimp only
  rw [bind_apply, ht]
  rfl

/-- A promise that is still to be made takes part in nothing. -/
theorem open_next (hs : s.Sane) : s.standing.Open [] (.promise (s.lastId + 1)) := by
  have habsent : .race (.promise (s.lastId + 1)) ∉ s.reactions := fun h ↦ s.not_made_next (hs.reactions _ h)
  refine ⟨?_, by simp, fun q hq ↦ (habsent ?_).elim, fun t ht heq ↦ habsent ?_⟩
  · simp [State.value?, hs.get?_next]
  · cases hp : s.promises.get? q with
    | none => simp [waiting, hp] at hq
    | some p =>
      rw [waiting_standing, waiting_of_get? hp] at hq
      exact mem_reactions.mpr (.inl ⟨_, Dict.mem_entries_of_get? hp, hq⟩)
  · exact mem_reactions.mpr (.inr ⟨t.2, heq ▸ ht⟩)

end Engine

end Stepwise
