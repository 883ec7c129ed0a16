import Stepwise.Proofs.Promise.Sparing
/-!
The reactions that settle one promise: how many there are, which promises they wait for, and that
none of them gets lost while others are worked on.
-/

namespace Stepwise

namespace State

/-- The reactions that settle a promise, wherever they are. -/
def reactionsFor (s : State) (a : Address) : List Reaction := s.reactions.filter (·.target = a)

/-- Every reaction for a promise goes with the promise that it waits for, whose value it has once it
is in the queue. -/
structure Serves (s : State) (a : Address) (R : Address → Reaction → Prop) : Prop where
  registered : ∀ e ∈ s.promises.entries, ∀ r ∈ e.2.reactions, r.target = a → R e.1 r
  queued : ∀ t ∈ s.queued, t.1.target = a → ∃ q, R q t.1 ∧ s.value? q = some t.2

/-- There is one reaction for a promise. -/
structure Sole (s : State) (a q : Address) (r : Reaction) : Prop where
  only : s.reactionsFor a = [r]
  serves : s.Serves a fun b r' ↦ b = q ∧ r' = r

/-- A reaction waits for a promise, or is in the queue. -/
def Awaits (s : State) (q : Address) (r : Reaction) : Prop :=
  (∃ p, s.promises.get? q = some p ∧ r ∈ p.reactions) ∨ ∃ w, (r, w) ∈ s.queued

variable {s s' : State} {a b q : Address} {p p' : Promise} {r r' : Reaction} {v : Value} {new : List Reaction}
  {tasks gone : List (Reaction × Value)} {asked : List Address} {R : Address → Reaction → Prop} {B C : State → Prop}

theorem mem_reactionsFor : r ∈ s.reactionsFor a ↔ r ∈ s.reactions ∧ r.target = a := by
  unfold reactionsFor
  rw [List.mem_filter, decide_eq_true_iff]

theorem filter_target_eq_nil (h : ∀ r ∈ new, r.target ≠ a) : new.filter (·.target = a) = [] :=
  List.filter_eq_nil_iff.mpr fun r hr ↦ mt decide_eq_true_iff.mp (h r hr)

namespace Steady

theorem const (P : Prop) : Steady a fun _ ↦ P := ⟨fun _ _ _ _ ↦ id, fun _ _ _ _ ↦ id⟩

theorem and (hB : Steady a B) (hC : Steady a C) : Steady a fun s ↦ B s ∧ C s where
  rewrites hs h hnew hrecord := .imp (hB.rewrites hs h hnew hrecord) (hC.rewrites hs h hnew hrecord)
  shifts h hgone hasked hkept := .imp (hB.shifts h hgone hasked hkept) (hC.shifts h hgone hasked hkept)

theorem or (hB : Steady a B) (hC : Steady a C) : Steady a fun s ↦ B s ∨ C s where
  rewrites hs h hnew hrecord := .imp (hB.rewrites hs h hnew hrecord) (hC.rewrites hs h hnew hrecord)
  shifts h hgone hasked hkept := .imp (hB.shifts h hgone hasked hkept) (hC.shifts h hgone hasked hkept)

theorem ex {ι : Sort*} {B : ι → State → Prop} (hB : ∀ i, Steady a (B i)) : Steady a fun s ↦ ∃ i, B i s where
  rewrites hs h hnew hrecord := .imp fun i ↦ (hB i).rewrites hs h hnew hrecord
  shifts h hgone hasked hkept := .imp fun i ↦ (hB i).shifts h hgone hasked hkept

theorem all {ι : Sort*} {B : ι → State → Prop} (hB : ∀ i, Steady a (B i)) : Steady a fun s ↦ ∀ i, B i s where
  rewrites hs h hnew hrecord := forall_imp fun i ↦ (hB i).rewrites hs h hnew hrecord
  shifts h hgone hasked hkept := forall_imp fun i ↦ (hB i).shifts h hgone hasked hkept

theorem congr (hB : Steady a B) (h : ∀ s, B s ↔ C s) : Steady a C := by
  have heq : B = C := funext fun s ↦ propext (h s)
  exact heq ▸ hB

end Steady

theorem Serves.imp {R' : Address → Reaction → Prop} (h : s.Serves a R) (hR : ∀ q r, R q r → R' q r) :
    s.Serves a R' where
  registered e he r hr hra := hR _ _ (h.registered e he r hr hra)
  queued t ht hta := (h.queued t ht hta).imp fun q hq ↦ hq.imp_left (hR q t.1)

namespace Rewrites

/-- A promise that keeps its value leaves all values as they are. -/
theorem value?_eq_of_eq (h : s.Rewrites s' q p p' new tasks) (hvalue : p'.value? = p.value?) :
    s'.value? b = s.value? b := by
  rw [h.value?_eq]
  split
  next hb => rw [hvalue, hb, h.value?_before]
  next => rfl

theorem perm_reactionsFor (h : s.Rewrites s' q p p' new tasks) (a : Address) :
    (s'.reactionsFor a).Perm (new.filter (·.target = a) ++ s.reactionsFor a) := by
  have hperm := h.perm.filter (·.target = a)
  rwa [List.filter_append] at hperm

/-- A reaction at the promise, or in a task that it gave, was there before or is new. -/
theorem mem_or (h : s.Rewrites s' q p p' new tasks) (hr : r ∈ p'.reactions ++ tasks.map Prod.fst) :
    r ∈ new ∨ (q, p) ∈ s.promises.entries ∧ r ∈ p.reactions :=
  (List.mem_append.mp (h.balance.mem_iff.mp hr)).imp_right fun hr ↦ ⟨h.mem_of_mem_reactions hr, hr⟩

theorem serves (h : s.Rewrites s' q p p' new tasks) (hs : s.Serves a R)
    (hnew : ∀ r ∈ new, r.target = a → R q r) : s'.Serves a R := by
  have hrewritten (r : Reaction) (hr : r ∈ p'.reactions ++ tasks.map Prod.fst) (hra : r.target = a) : R q r := by
    rcases h.mem_or hr with hr | ⟨he, hr⟩
    · exact hnew r hr hra
    · exact hs.registered _ he r hr hra
  refine ⟨fun e he r hr hra ↦ ?_, fun t ht hta ↦ ?_⟩
  · rcases h.mem_entries he with rfl | he
    · exact hrewritten r (List.mem_append_left _ hr) hra
    · exact hs.registered e he r hr hra
  · rw [h.queued] at ht
    rcases List.mem_append.mp ht with ht | ht
    · obtain ⟨b, hb, hbt⟩ := hs.queued t ht hta
      exact ⟨b, hb, h.persists b t.2 hbt⟩
    · refine ⟨q, hrewritten t.1 (List.mem_append_right _ (List.mem_map_of_mem ht)) hta, ?_⟩
      rw [h.value?_eq, if_pos rfl]
      exact h.current t ht

theorem awaits (h : s.Rewrites s' q p p' new tasks) (hr : s.Awaits b r) : s'.Awaits b r := by
  rcases hr with ⟨p₀, hp₀, hr⟩ | ⟨w, hw⟩
  · by_cases hbq : b = q
    · subst hbq
      have hp : p = p₀ := by
        rcases h.before with hp | ⟨hp, -⟩
        · exact Option.some.inj (hp.symm.trans hp₀)
        · cases hp.symm.trans hp₀
      subst hp
      rcases List.mem_append.mp (h.balance.mem_iff.mpr (List.mem_append_right _ hr)) with hr | hr
      · exact .inl ⟨p', (h.get? b).trans (if_pos rfl), hr⟩
      · obtain ⟨t, ht, rfl⟩ := List.mem_map.mp hr
        exact .inr ⟨t.2, h.queued ▸ List.mem_append_right _ ht⟩
    · exact .inl ⟨p₀, (h.get? b).trans ((if_neg hbq).trans hp₀), hr⟩
  · exact .inr ⟨w, h.queued ▸ List.mem_append_left _ hw⟩

/-- A new reaction waits for the promise that is written over. -/
theorem awaits_new (h : s.Rewrites s' q p p' new tasks) (hr : r ∈ new) : s'.Awaits q r := by
  rcases List.mem_append.mp (h.balance.mem_iff.mpr (List.mem_append_left _ hr)) with hr | hr
  · exact .inl ⟨p', (h.get? q).trans (if_pos rfl), hr⟩
  · obtain ⟨t, ht, rfl⟩ := List.mem_map.mp hr
    exact .inr ⟨t.2, h.queued ▸ List.mem_append_right _ ht⟩

theorem keeps_reactionsFor (h : s.Rewrites s' q p p' new tasks) (hnew : ∀ r ∈ new, r.target ≠ a) :
    (s'.reactionsFor a).Perm (s.reactionsFor a) := by
  have hperm := h.perm_reactionsFor a
  rwa [filter_target_eq_nil hnew, List.nil_append] at hperm

theorem keeps_sole (h : s.Rewrites s' q p p' new tasks) (hnew : ∀ r ∈ new, r.target ≠ a) (hs : s.Sole a b r) :
    s'.Sole a b r where
  only := List.perm_singleton.mp (hs.only ▸ h.keeps_reactionsFor hnew)
  serves := h.serves hs.serves fun r hr hra ↦ absurd hra (hnew r hr)

/-- The first reaction for a promise is the only one. -/
theorem sole (h : s.Rewrites s' q p p' [r] tasks) (hnone : s.reactionsFor r.target = []) : s'.Sole r.target q r := by
  have hserves : s.Serves r.target fun b r' ↦ b = q ∧ r' = r := by
    have habsent (r' : Reaction) (hr' : r' ∈ s.reactions) (htarget : r'.target = r.target) : False := by
      have hmem := mem_reactionsFor.mpr ⟨hr', htarget⟩
      rw [hnone] at hmem
      cases hmem
    exact ⟨fun e he r' hr' hra ↦ (habsent r' (mem_reactions.mpr (.inl ⟨e, he, hr'⟩)) hra).elim,
      fun t ht hta ↦ (habsent t.1 (mem_reactions.mpr (.inr ⟨t.2, ht⟩)) hta).elim⟩
  have hperm := h.perm_reactionsFor r.target
  rw [hnone, List.append_nil, List.filter_singleton, decide_eq_true rfl, cond_true] at hperm
  exact ⟨List.perm_singleton.mp hperm, h.serves hserves (List.forall_mem_singleton.mpr fun _ ↦ ⟨rfl, rfl⟩)⟩

end Rewrites

namespace Shifts

theorem perm_reactionsFor (h : s.Shifts s' gone asked) (a : Address) :
    (s.reactionsFor a).Perm ((gone.map Prod.fst).filter (·.target = a) ++ s'.reactionsFor a) := by
  have hperm := h.perm.filter (·.target = a)
  rwa [List.filter_append] at hperm

theorem serves (h : s.Shifts s' gone asked) (hs : s.Serves a R) : s'.Serves a R := by
  refine ⟨fun e he ↦ hs.registered e (h.promises ▸ he), fun t ht hta ↦ ?_⟩
  obtain ⟨q, hq, hv⟩ := hs.queued t (h.queued.mem_iff.mpr (List.mem_append_right _ ht)) hta
  exact ⟨q, hq, (h.value?_eq q).trans hv⟩

end Shifts

/-- The reaction that is taken is the only one, and none is left. -/
theorem Sole.of_shifts (hs : s.Sole a q r) (h : s.Shifts s' [(r', v)] asked) (ha : r'.target = a) :
    r' = r ∧ s.value? q = some v ∧ s'.reactionsFor a = [] := by
  have hperm := h.perm_reactionsFor a
  rw [hs.only, List.map_singleton, List.filter_singleton, decide_eq_true ha, cond_true, List.singleton_append] at hperm
  have hcons := List.singleton_perm.mp hperm
  obtain ⟨hr, hnil⟩ := List.cons.inj hcons
  have hqueued : (r', v) ∈ s.queued := h.queued.mem_iff.mpr List.mem_cons_self
  obtain ⟨b, ⟨rfl, -⟩, hv⟩ := hs.serves.queued _ hqueued ha
  exact ⟨hr.symm, hv, hnil.symm⟩

namespace Steady

theorem reactionsFor (a : Address) (rs : List Reaction) : Steady a fun s ↦ (s.reactionsFor a).Perm rs where
  rewrites _ h hnew _ hB := (h.keeps_reactionsFor hnew).trans hB
  shifts h hgone _ _ hB := by
    have hperm := h.perm_reactionsFor a
    rw [filter_target_eq_nil (List.forall_mem_map.mpr hgone), List.nil_append] at hperm
    exact hperm.symm.trans hB

theorem reactionsFor_eq_nil (a : Address) : Steady a fun s ↦ s.reactionsFor a = [] := by
  simpa only [List.perm_nil] using reactionsFor a []

theorem serves (a : Address) (R : Address → Reaction → Prop) : Steady a fun s ↦ s.Serves a R where
  rewrites _ h hnew _ hB := h.serves hB fun r hr hra ↦ absurd hra (hnew r hr)
  shifts h _ _ _ hB := h.serves hB

theorem sole (a q : Address) (r : Reaction) : Steady a fun s ↦ s.Sole a q r := by
  refine ((reactionsFor a [r]).and (serves a fun b r' ↦ b = q ∧ r' = r)).congr fun s ↦ ?_
  rw [List.perm_singleton]
  exact ⟨fun h ↦ ⟨h.1, h.2⟩, fun h ↦ ⟨h.only, h.serves⟩⟩

theorem awaits (hr : r.target = a) (q : Address) : Steady a fun s ↦ s.Awaits q r where
  rewrites _ h _ _ hB := h.awaits hB
  shifts h hgone _ _ hB := by
    rcases hB with ⟨p, hp, hmem⟩ | ⟨w, hw⟩
    · exact .inl ⟨p, h.promises ▸ hp, hmem⟩
    · rcases List.mem_append.mp (h.queued.mem_iff.mp hw) with hw | hw
      · exact absurd hr (hgone _ hw)
      · exact .inr ⟨w, hw⟩

theorem value? (a : Address) (value : Option Value) : Steady a fun s ↦ s.value? a = value where
  rewrites _ h _ hrecord hB := by
    rw [h.value?_eq]
    split
    next haq =>
      subst haq
      exact (hrecord rfl).1.trans (h.value?_before.symm.trans hB)
    next => exact hB
  shifts h _ _ _ hB := (h.value?_eq a).trans hB

theorem has_value (a b : Address) (w : Value) : Steady a fun s ↦ s.value? b = some w where
  rewrites _ h _ _ hB := h.persists b w hB
  shifts h _ _ _ hB := (h.value?_eq b).trans hB

theorem delivers (a : Address) (v w : Value) : Steady a fun s ↦ s.Delivers v w := by
  cases v with
  | promise q => exact has_value a q w
  | _ => exact const _

theorem contains (a b : Address) : Steady a fun s ↦ s.promises.contains b = true where
  rewrites _ h _ _ hB := h.contains hB
  shifts h _ _ _ hB := h.promises.symm ▸ hB

theorem not_fetching (a : Address) : Steady a fun s ↦ a ∉ s.fetching where
  rewrites _ h _ _ hB := h.fetching.symm ▸ hB
  shifts h _ hasked _ hB := fun ha ↦ (h.fetching a ha).elim hB hasked

theorem fetching (a : Address) : Steady a fun s ↦ a ∈ s.fetching where
  rewrites _ h _ _ hB := h.fetching.symm ▸ hB
  shifts _ _ _ hkept hB := hkept hB

end Steady

end State

end Stepwise
