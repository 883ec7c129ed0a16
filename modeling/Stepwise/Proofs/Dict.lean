import Stepwise.Dict
/-!
What a dictionary holds after it was read, written and built.
-/

namespace Stepwise.Dict

variable {κ α : Type} [DecidableEq κ]

theorem mem_of_lookup {k : κ} {a : α} {es : List (κ × α)} (h : lookup k es = some a) :
    (k, a) ∈ es := by
  induction es with
  | nil => cases h
  | cons e es ih =>
    obtain ⟨k', a'⟩ := e
    rw [lookup] at h
    split at h
    next hk => cases h; exact hk ▸ List.mem_cons_self
    next => exact List.mem_cons_of_mem _ (ih h)

theorem mem_insert {k : κ} {a : α} {e : κ × α} {es : List (κ × α)} (h : e ∈ insert k a es) :
    e = (k, a) ∨ e ∈ es := by
  induction es with
  | nil => exact .inl (List.mem_singleton.mp h)
  | cons e' es ih =>
    obtain ⟨k', a'⟩ := e'
    rw [insert] at h
    split at h
    next => exact (List.mem_cons.mp h).imp_right (List.mem_cons_of_mem _)
    next =>
      rcases List.mem_cons.mp h with rfl | h
      · exact .inr List.mem_cons_self
      · exact (ih h).imp_right (List.mem_cons_of_mem _)

theorem mem_entries_of_get? {d : Dict κ α} {k : κ} {a : α} (h : d.get? k = some a) :
    (k, a) ∈ d.entries := mem_of_lookup h

theorem lookup_eq_none_iff {k : κ} {es : List (κ × α)} : lookup k es = none ↔ k ∉ es.map Prod.fst := by
  induction es with
  | nil => exact ⟨fun _ ↦ List.not_mem_nil, fun _ ↦ rfl⟩
  | cons e es ih =>
    obtain ⟨k', a⟩ := e
    rw [lookup, List.map_cons, List.mem_cons, not_or]
    split
    next hk => exact ⟨nofun, fun h ↦ absurd hk.symm h.1⟩
    next hk => exact ih.trans ⟨fun h ↦ ⟨Ne.symm hk, h⟩, And.right⟩

theorem get?_eq_none_iff {d : Dict κ α} {k : κ} : d.get? k = none ↔ k ∉ d.keys := lookup_eq_none_iff

theorem lookup_of_mem {k : κ} {a : α} {es : List (κ × α)} (hnodup : (es.map Prod.fst).Nodup) (h : (k, a) ∈ es) :
    lookup k es = some a := by
  induction es with
  | nil => cases h
  | cons e es ih =>
    obtain ⟨k', a'⟩ := e
    rw [List.map_cons, List.nodup_cons] at hnodup
    rcases List.mem_cons.mp h with heq | h
    · cases heq
      exact if_pos rfl
    · have hne : k' ≠ k := fun hk ↦ hnodup.1 (List.mem_map.mpr ⟨(k, a), h, hk.symm⟩)
      rw [lookup, if_neg hne]
      exact ih hnodup.2 h

theorem get?_of_mem_entries {d : Dict κ α} {k : κ} {a : α} (hnodup : d.keys.Nodup) (h : (k, a) ∈ d.entries) :
    d.get? k = some a := lookup_of_mem hnodup h

theorem mem_values_of_get? {d : Dict κ α} {k : κ} {a : α} (h : d.get? k = some a) :
    a ∈ d.values := List.mem_map_of_mem (mem_entries_of_get? h)

theorem mem_values_of_mem_values_set {d : Dict κ α} {k : κ} {a b : α} (h : b ∈ (d.set k a).values) :
    b = a ∨ b ∈ d.values := by
  obtain ⟨e, he, rfl⟩ := List.mem_map.mp h
  rcases mem_insert he with rfl | he
  · exact .inl rfl
  · exact .inr (List.mem_map_of_mem he)

theorem mem_values_of_mem_values_modify {d : Dict κ α} {k : κ} {f : α → α} {b : α}
    (h : b ∈ (d.modify k f).values) : (∃ a, d.get? k = some a ∧ b = f a) ∨ b ∈ d.values := by
  unfold modify at h
  cases hk : d.get? k with
  | none => rw [hk] at h; exact .inr h
  | some a =>
    rw [hk] at h
    exact (mem_values_of_mem_values_set h).imp_left fun hb ↦ ⟨a, rfl, hb⟩

theorem mem_values_of_mem_foldl_set {d : Dict κ α} {es : List (κ × α)} {a : α}
    (h : a ∈ (es.foldl (fun d e ↦ d.set e.1 e.2) d).values) : a ∈ d.values ∨ a ∈ es.map Prod.snd := by
  induction es generalizing d with
  | nil => exact .inl h
  | cons e es ih =>
    rcases ih h with hd | hes
    · rcases mem_values_of_mem_values_set hd with rfl | hd
      · exact .inr List.mem_cons_self
      · exact .inl hd
    · exact .inr (List.mem_cons_of_mem _ hes)

theorem mem_values_of_mem_values_ofList {es : List (κ × α)} {a : α} (h : a ∈ (ofList es).values) :
    a ∈ es.map Prod.snd := (mem_values_of_mem_foldl_set h).resolve_left nofun

theorem lookup_insert (k k' : κ) (a : α) (es : List (κ × α)) :
    lookup k' (insert k a es) = if k' = k then some a else lookup k' es := by
  induction es with
  | nil => simp only [insert, lookup, eq_comm]
  | cons e es ih =>
    obtain ⟨k₁, a₁⟩ := e
    simp only [insert]
    split
    next h => subst h; simp only [lookup]; grind
    next h => simp only [lookup, ih]; grind

theorem get?_set (d : Dict κ α) (k k' : κ) (a : α) :
    (d.set k a).get? k' = if k' = k then some a else d.get? k' := lookup_insert k k' a d.entries

theorem get?_modify (d : Dict κ α) (k k' : κ) (f : α → α) :
    (d.modify k f).get? k' = if k' = k then (d.get? k).map f else d.get? k' := by
  unfold modify
  cases hk : d.get? k with
  | none => simp only; split <;> simp_all
  | some a => rw [get?_set]; rfl

theorem exists_append_of_lookup {k : κ} {a : α} {es : List (κ × α)} (h : lookup k es = some a) :
    ∃ es₁ es₂, es = es₁ ++ (k, a) :: es₂ ∧ ∀ b, insert k b es = es₁ ++ (k, b) :: es₂ := by
  induction es with
  | nil => cases h
  | cons e es ih =>
    obtain ⟨k', a'⟩ := e
    rw [lookup] at h
    split at h
    next hk =>
      subst hk
      cases h
      exact ⟨[], es, rfl, fun b ↦ if_pos rfl⟩
    next hk =>
      obtain ⟨es₁, es₂, rfl, hinsert⟩ := ih h
      refine ⟨(k', a') :: es₁, es₂, rfl, fun b ↦ ?_⟩
      rw [insert, if_neg hk, hinsert]
      rfl

theorem exists_append_of_get? {d : Dict κ α} {k : κ} {a : α} (h : d.get? k = some a) :
    ∃ es₁ es₂, d.entries = es₁ ++ (k, a) :: es₂ ∧
      ∀ f, (d.modify k f).entries = es₁ ++ (k, f a) :: es₂ := by
  obtain ⟨es₁, es₂, hes, hinsert⟩ := exists_append_of_lookup h
  refine ⟨es₁, es₂, hes, fun f ↦ ?_⟩
  unfold modify
  rw [h]
  exact hinsert (f a)

theorem insert_of_lookup_eq_none {k : κ} {es : List (κ × α)} (h : lookup k es = none) (a : α) :
    insert k a es = es ++ [(k, a)] := by
  induction es with
  | nil => rfl
  | cons e es ih =>
    rw [lookup] at h
    split at h
    next => cases h
    next hk => rw [insert, if_neg hk, ih h, List.cons_append]

theorem entries_set_of_get?_eq_none {d : Dict κ α} {k : κ} (h : d.get? k = none) (a : α) :
    (d.set k a).entries = d.entries ++ [(k, a)] := insert_of_lookup_eq_none h a

theorem keys_modify (d : Dict κ α) (k : κ) (f : α → α) : (d.modify k f).keys = d.keys := by
  cases hk : d.get? k with
  | none =>
    unfold modify
    rw [hk]
  | some a =>
    obtain ⟨es₁, es₂, hes, hmodify⟩ := exists_append_of_get? hk
    unfold keys
    rw [hes, hmodify, List.map_append, List.map_append, List.map_cons, List.map_cons]

theorem keys_set_of_get?_eq_none {d : Dict κ α} {k : κ} (h : d.get? k = none) (a : α) :
    (d.set k a).keys = d.keys ++ [k] := by
  unfold keys
  rw [entries_set_of_get?_eq_none h, List.map_append, List.map_singleton]

/-- A dictionary with a row of entries written to it, one after the other. -/
def setAll (d : Dict κ α) (row : List (κ × α)) : Dict κ α := row.foldl (fun d e ↦ d.set e.1 e.2) d

variable {row before behind : List (κ × α)} {k : κ}

theorem setAll_cons (d : Dict κ α) (e : κ × α) (row : List (κ × α)) : d.setAll (e :: row) = (d.set e.1 e.2).setAll row := rfl

theorem setAll_append (d : Dict κ α) (row row' : List (κ × α)) : d.setAll (row ++ row') = (d.setAll row).setAll row' :=
  List.foldl_append

theorem get?_setAll_of_notMem (d : Dict κ α) (h : k ∉ row.map Prod.fst) : (d.setAll row).get? k = d.get? k := by
  induction row generalizing d with
  | nil => rfl
  | cons e row ih =>
    obtain ⟨hk, hrow⟩ := not_or.mp (mt List.mem_cons.mpr h)
    rw [setAll_cons, ih _ hrow, get?_set, if_neg hk]

theorem get?_setAll_of_last (d : Dict κ α) (a : α) (h : k ∉ behind.map Prod.fst) :
    (d.setAll (before ++ (k, a) :: behind)).get? k = some a := by
  rw [setAll_append, setAll_cons, get?_setAll_of_notMem _ h, get?_set, if_pos rfl]

end Stepwise.Dict
