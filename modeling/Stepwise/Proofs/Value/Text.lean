import Stepwise.Value.Conversion
import Mathlib.Data.List.Perm.Subperm
import Mathlib.Logic.Relation
import Stepwise.Proofs.Dict
/-!
The texts of values. What is no array has a text by itself. An array has one if no array inside it contains itself: were the
depth not enough, there would be a path through more arrays than there are, and it would come to one of them twice.
-/

namespace Stepwise

theorem mapM_eq_some_map {α β : Type} {f : α → Option β} {g : α → β} {l : List α} (h : ∀ a ∈ l, f a = some (g a)) :
    l.mapM f = some (l.map g) := by
  induction l with
  | nil => rfl
  | cons a l ih =>
    obtain ⟨ha, hl⟩ := List.forall_mem_cons.mp h
    rw [List.mapM_cons, ha, ih hl]
    rfl

theorem mapM_eq_none_of_mem {α β : Type} {f : α → Option β} {a : α} {l : List α} (h : a ∈ l) (ha : f a = none) :
    l.mapM f = none := by
  induction l with
  | nil => cases h
  | cons b l ih =>
    rw [List.mapM_cons]
    cases hb : f b with
    | none => rfl
    | some c =>
      rcases List.mem_cons.mp h with rfl | hl
      · rw [ha] at hb
        cases hb
      · rw [ih hl]
        rfl

namespace Heap

variable {heap : Heap} {address : Address} {v : Value} {elements : List Value}

/-- One array is an element of another one. -/
def Nests (heap : Heap) (outer inner : Address) : Prop :=
  ∃ elements, heap.elements? (.object outer) = some elements ∧ Value.object inner ∈ elements

/-- No array contains itself, at whatever depth. -/
def IsWellNested (heap : Heap) : Prop := ∀ address, ¬ Relation.TransGen heap.Nests address address

/-- No array that is reached from a value contains itself. -/
def IsWellNestedFrom (heap : Heap) (v : Value) : Prop :=
  ∀ outer inner, v = .object outer → Relation.ReflTransGen heap.Nests outer inner → ¬ Relation.TransGen heap.Nests inner inner

/-- Ranks that fall from every array to its elements keep arrays from containing themselves. -/
theorem isWellNested_of_rank (rank : Address → Nat) (h : ∀ outer inner, heap.Nests outer inner → rank inner < rank outer) :
    heap.IsWellNested := by
  have hfalls {a b : Address} (hab : Relation.TransGen heap.Nests a b) : rank b < rank a := by
    induction hab with
    | single hnests => exact h _ _ hnests
    | tail _ hnests ih => exact Nat.lt_trans (h _ _ hnests) ih
  intro address hcycle
  exact Nat.lt_irrefl _ (hfalls hcycle)

theorem exists_address_of_elements? (h : heap.elements? v = some elements) : ∃ address, v = .object address := by
  cases v with
  | object address => exact ⟨address, rfl⟩
  | _ => cases h

/-- The addresses of the arrays. -/
def arrays (heap : Heap) : List Address := (heap.entries.filter (·.2.isArray)).map Prod.fst

theorem length_arrays (heap : Heap) : heap.arrays.length = heap.arrayCount := by
  rw [arrays, arrayCount, Dict.values, List.filter_map, List.length_map, List.length_map]
  rfl

theorem exists_cell_of_elements? (h : heap.elements? (.object address) = some elements) :
    ∃ cell, heap.get? address = some cell ∧ cell.isArray = true ∧ cell.elements = elements := by
  obtain ⟨cell, hcell, helements⟩ := Option.bind_eq_some_iff.mp h
  by_cases harray : cell.isArray = true
  · rw [if_pos harray] at helements
    exact ⟨cell, hcell, harray, Option.some.inj helements⟩
  · rw [if_neg harray] at helements
    cases helements

theorem mem_arrays_of_elements? (h : heap.elements? (.object address) = some elements) : address ∈ heap.arrays := by
  obtain ⟨cell, hcell, harray, -⟩ := exists_cell_of_elements? h
  have hentry : (address, cell) ∈ heap.entries := Dict.mem_entries_of_get? hcell
  exact List.mem_map.mpr ⟨(address, cell), List.mem_filter.mpr ⟨hentry, harray⟩, rfl⟩

end Heap

namespace Value

variable {heap : Heap} {v : Value} {depth : Nat}

theorem toTextWithin_of_elements?_eq_none (h : heap.elements? v = none) (depth : Nat) :
    v.toTextWithin heap (depth + 1) = some v.plainText := by
  rw [toTextWithin, h]

theorem toText_of_elements?_eq_none (h : heap.elements? v = none) : v.toText heap = .ok v.plainText := by
  rw [toText, toText?, toTextWithin_of_elements?_eq_none h]

theorem exists_of_mapM_eq_none {α β : Type} {f : α → Option β} {l : List α} (h : l.mapM f = none) :
    ∃ a ∈ l, f a = none := by
  induction l with
  | nil => cases h
  | cons a l ih =>
    cases ha : f a with
    | none => exact ⟨a, List.mem_cons_self, ha⟩
    | some b =>
      cases hl : l.mapM f with
      | none =>
        obtain ⟨c, hc, hnone⟩ := ih hl
        exact ⟨c, List.mem_cons_of_mem a hc, hnone⟩
      | some bs =>
        rw [List.mapM_cons, ha, hl] at h
        cases h

/-- Arrays that are entered one inside the other from a value on. -/
structure EntersAll (heap : Heap) (v : Value) (path : List Address) : Prop where
  arrays : ∀ a ∈ path, a ∈ heap.arrays
  nested : path.Pairwise (Relation.TransGen heap.Nests)
  entered : ∀ a ∈ path, ∃ outer, v = .object outer ∧ Relation.ReflTransGen heap.Nests outer a

/-- A value that has no text within a depth has that many arrays one inside the other. -/
theorem exists_path_of_toTextWithin_eq_none (h : v.toTextWithin heap depth = none) :
    ∃ path, path.length = depth ∧ v.EntersAll heap path := by
  induction depth generalizing v with
  | zero => exact ⟨[], rfl, List.forall_mem_nil _, .nil, List.forall_mem_nil _⟩
  | succ depth ih =>
    cases helements : heap.elements? v with
    | none =>
      rw [toTextWithin_of_elements?_eq_none helements] at h
      cases h
    | some elements =>
      obtain ⟨outer, rfl⟩ := Heap.exists_address_of_elements? helements
      rw [toTextWithin, helements, Option.map_eq_none_iff] at h
      obtain ⟨e, he, hnone⟩ : ∃ e ∈ elements, e.toTextWithin heap depth = none := by
        obtain ⟨e, he, hnone⟩ := exists_of_mapM_eq_none h
        split at hnone
        · cases hnone
        · exact ⟨e, he, hnone⟩
      obtain ⟨path, hlength, hpath⟩ := ih hnone
      have hinner (a : Address) (ha : a ∈ path) : Relation.TransGen heap.Nests outer a := by
        obtain ⟨inner, rfl, hreaches⟩ := hpath.entered a ha
        exact .head' ⟨elements, helements, he⟩ hreaches
      refine ⟨outer :: path, congrArg (· + 1) hlength, ?_, ?_, ?_⟩
      · exact List.forall_mem_cons.mpr ⟨Heap.mem_arrays_of_elements? helements, hpath.arrays⟩
      · exact List.pairwise_cons.mpr ⟨hinner, hpath.nested⟩
      · refine List.forall_mem_cons.mpr ⟨⟨outer, rfl, .refl⟩, fun a ha ↦ ⟨outer, rfl, (hinner a ha).to_reflTransGen⟩⟩

/-- Arrays that are entered one inside the other are different ones where none of them contains itself. -/
theorem EntersAll.length_le {path : List Address} (h : v.EntersAll heap path)
    (hnested : ∀ a ∈ path, ¬ Relation.TransGen heap.Nests a a) : path.length ≤ heap.arrayCount := by
  have hnodup : path.Nodup := by
    refine h.nested.imp_of_mem ?_
    rintro a _ ha - hcycle rfl
    exact hnested a ha hcycle
  have hsub := List.subperm_of_subset hnodup h.arrays
  rw [← Heap.length_arrays]
  exact hsub.length_le

theorem exists_toTextWithin (h : heap.IsWellNestedFrom v) (hdepth : heap.arrayCount < depth) :
    ∃ t, v.toTextWithin heap depth = some t := by
  cases htext : v.toTextWithin heap depth with
  | some t => exact ⟨t, rfl⟩
  | none =>
    obtain ⟨path, hlength, hpath⟩ := exists_path_of_toTextWithin_eq_none htext
    have hle := hpath.length_le fun a ha ↦ by
      obtain ⟨outer, hv, hreaches⟩ := hpath.entered a ha
      exact h outer a hv hreaches
    omega

theorem exists_toText (h : heap.IsWellNestedFrom v) : ∃ t, v.toText heap = .ok t := by
  obtain ⟨t, ht⟩ := exists_toTextWithin h (Nat.lt_succ_self _)
  exact ⟨t, by rw [toText, toText?, ht]⟩

end Value

namespace Heap.IsWellNested

variable {heap : Heap}

theorem from_value (h : heap.IsWellNested) (v : Value) : heap.IsWellNestedFrom v := fun _ inner _ _ ↦ h inner

theorem exists_toText (h : heap.IsWellNested) (v : Value) : ∃ t, v.toText heap = .ok t := Value.exists_toText (h.from_value v)

end Heap.IsWellNested

end Stepwise
