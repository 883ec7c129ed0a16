import Stepwise.Proofs.Dict
import Stepwise.Proofs.Value.Counting
/-!
How states grow. What is on the console and among the declarations stays in front, nothing that is
stored goes away, arrays and objects only get longer, and a settled promise keeps its value.
-/

namespace Stepwise

namespace Dict

variable {κ α : Type} [DecidableEq κ] {R : α → α → Prop} {d e f : Dict κ α} {k : κ}

/-- Every key stays, and what is behind it changes in one way only. -/
def Grows (R : α → α → Prop) (d e : Dict κ α) : Prop := ∀ k a, d.get? k = some a → ∃ b, e.get? k = some b ∧ R a b

theorem Grows.refl (hR : ∀ a, R a a) (d : Dict κ α) : d.Grows R d := fun _ a ha ↦ ⟨a, ha, hR a⟩

theorem Grows.trans (hR : ∀ {a b c}, R a b → R b c → R a c) (h : d.Grows R e) (h' : e.Grows R f) : d.Grows R f := by
  intro k a ha
  obtain ⟨b, hb, hab⟩ := h k a ha
  obtain ⟨c, hc, hbc⟩ := h' k b hb
  exact ⟨c, hc, hR hab hbc⟩

theorem grows_set (hR : ∀ a, R a a) (hk : d.get? k = none) (a : α) : d.Grows R (d.set k a) := by
  intro k' b hb
  have hne : k' ≠ k := by
    rintro rfl
    rw [hk] at hb
    cases hb
  exact ⟨b, by rw [get?_set, if_neg hne, hb], hR b⟩

theorem grows_modify (hR : ∀ a, R a a) {g : α → α} (hg : ∀ a, d.get? k = some a → R a (g a)) :
    d.Grows R (d.modify k g) := by
  intro k' a ha
  rw [get?_modify]
  by_cases hk : k' = k
  · subst hk
    exact ⟨g a, by rw [if_pos rfl, ha, Option.map_some], hg a ha⟩
  · exact ⟨a, by rw [if_neg hk, ha], hR a⟩

theorem keys_prefix_keys_set (d : Dict κ α) (k : κ) (a : α) : d.keys <+: (d.set k a).keys := by
  cases hk : d.get? k with
  | none => exact keys_set_of_get?_eq_none hk a ▸ List.prefix_append _ _
  | some b =>
    have hmodify : d.modify k (fun _ ↦ a) = d.set k a := by
      unfold modify
      rw [hk]
    have hkeys : (d.set k a).keys = d.keys := by rw [← hmodify, keys_modify]
    exact hkeys ▸ List.prefix_refl _

end Dict

/-- A stored array or object stays one, and keeps its length and its fields. -/
structure Cell.Grows (c d : Cell) : Prop where
  isArray : d.isArray = c.isArray
  elements : c.elements.length ≤ d.elements.length
  fields : c.fields.keys <+: d.fields.keys

theorem Cell.Grows.refl (c : Cell) : c.Grows c := ⟨rfl, Nat.le_refl _, List.prefix_refl _⟩

theorem Cell.Grows.trans {b c d : Cell} (h : b.Grows c) (h' : c.Grows d) : b.Grows d :=
  ⟨h'.isArray.trans h.isArray, Nat.le_trans h.elements h'.elements, h.fields.trans h'.fields⟩

namespace Heap

variable {heap heap' : Heap} {address : Address} {cell : Cell}

/-- Nothing that is stored goes away or shrinks. -/
def Grows (heap heap' : Heap) : Prop := Dict.Grows Cell.Grows heap heap'

namespace Grows

theorem refl (heap : Heap) : heap.Grows heap := Dict.Grows.refl .refl heap

theorem trans {heap'' : Heap} (h : heap.Grows heap') (h' : heap'.Grows heap'') : heap.Grows heap'' :=
  Dict.Grows.trans Cell.Grows.trans h h'

theorem update (h : heap.Grows heap') {f : Cell → Cell}
    (hf : ∀ cell, heap'.get? address = some cell → cell.Grows (f cell)) : heap.Grows (heap'.update address f) :=
  h.trans (Dict.grows_modify Cell.Grows.refl hf)

theorem retain (h : heap.Grows heap') (v : Value) : heap.Grows (heap'.retain v) := by
  cases v with
  | object address => exact h.update fun cell _ ↦ ⟨rfl, Nat.le_refl _, List.prefix_refl _⟩
  | _ => exact h

theorem release (h : heap.Grows heap') (v : Value) : heap.Grows (heap'.release v) := by
  cases v with
  | object address => exact h.update fun cell _ ↦ ⟨rfl, Nat.le_refl _, List.prefix_refl _⟩
  | _ => exact h

theorem retains (h : heap.Grows heap') (vs : List Value) : heap.Grows (vs.foldl Heap.retain heap') := by
  induction vs generalizing heap' with
  | nil => exact h
  | cons v vs ih => exact ih (h.retain v)

theorem store (h : heap.get? address = none) (cell : Cell) (vs : List Value) :
    heap.Grows (heap.store address cell vs) :=
  retains (Dict.grows_set Cell.Grows.refl h cell) vs

theorem setElement (hcell : heap.get? address = some cell) (index : Nat) (v : Value) :
    heap.Grows (heap.setElement address cell index v) := by
  refine (((refl heap).release _).update fun c hc ↦ ?_).retain v
  obtain ⟨n, hn⟩ := exists_get?_release hcell
    ((cell.elements ++ List.replicate (index + 1 - cell.elements.length) Value.undefined).getD index .undefined)
  rw [hn] at hc
  cases hc
  -- the array is filled up first, and then one element is replaced
  refine ⟨rfl, ?_, List.prefix_refl _⟩
  rw [List.length_set, List.length_append]
  exact Nat.le_add_right _ _

theorem setField (heap : Heap) (address : Address) (cell : Cell) (key : Text) (v : Value) :
    heap.Grows (heap.setField address cell key v) := by
  refine (((refl heap).release _).update fun c _ ↦ ?_).retain v
  exact ⟨rfl, Nat.le_refl _, c.fields.keys_prefix_keys_set key v⟩

theorem setProperty {receiver v : Value} {key : Text} (h : heap.setProperty receiver key v = .ok heap') :
    heap.Grows heap' := by
  obtain rfl | ⟨address, cell, hcell, ⟨index, rfl⟩ | rfl⟩ := setProperty_cases h
  · exact refl heap'
  · exact setElement hcell index v
  · exact setField heap address cell key v

end Grows

theorem keys_retain (heap : Heap) (v : Value) : (heap.retain v).keys = heap.keys := by
  cases v with
  | object address => exact Dict.keys_modify heap address _
  | _ => rfl

theorem keys_release (heap : Heap) (v : Value) : (heap.release v).keys = heap.keys := by
  cases v with
  | object address => exact Dict.keys_modify heap address _
  | _ => rfl

theorem keys_store (h : heap.get? address = none) (cell : Cell) (vs : List Value) :
    (heap.store address cell vs).keys = heap.keys ++ [address] := by
  have hretains (heap : Heap) : (vs.foldl retain heap).keys = heap.keys := by
    induction vs generalizing heap with
    | nil => rfl
    | cons v vs ih => exact (ih _).trans (heap.keys_retain v)
  exact (hretains _).trans (Dict.keys_set_of_get?_eq_none h cell)

theorem keys_setProperty {receiver v : Value} {key : Text} (h : heap.setProperty receiver key v = .ok heap') :
    heap'.keys = heap.keys := by
  have hrebind (old : Value) (address : Address) (g : Cell → Cell) :
      (((heap.release old).update address g).retain v).keys = heap.keys :=
    (keys_retain _ v).trans ((Dict.keys_modify _ address g).trans (heap.keys_release old))
  obtain rfl | ⟨address, cell, -, ⟨index, rfl⟩ | rfl⟩ := setProperty_cases h
  · rfl
  · exact hrebind _ address _
  · exact hrebind _ address _

end Heap

/-- A promise with a value keeps it. -/
def Promise.Grows (p q : Promise) : Prop := ∀ v, p.value? = some v → q.value? = some v

theorem Promise.Grows.refl (p : Promise) : p.Grows p := fun _ ↦ id

theorem Promise.Grows.trans {p q r : Promise} (h : p.Grows q) (h' : q.Grows r) : p.Grows r := fun v hv ↦ h' v (h v hv)

namespace State

/-- A later state of a run, by what it has kept. -/
structure Grows (s t : State) : Prop where
  console : s.console <+: t.console
  declared : s.declared <+: t.declared
  heap : s.heap.Grows t.heap
  promises : s.promises.Grows Promise.Grows t.promises

variable {s t u : State}

theorem Grows.refl (s : State) : s.Grows s :=
  ⟨List.prefix_refl _, List.prefix_refl _, .refl _, .refl .refl _⟩

theorem Grows.trans (h : s.Grows t) (h' : t.Grows u) : s.Grows u where
  console := h.console.trans h'.console
  declared := h.declared.trans h'.declared
  heap := h.heap.trans h'.heap
  promises := h.promises.trans Promise.Grows.trans h'.promises

/-- Apart from stored data nothing is lost where the console and the declarations are the same. -/
theorem Grows.of_stored (hconsole : t.console = s.console) (hdeclared : t.declared = s.declared)
    (hheap : s.heap.Grows t.heap) (hpromises : s.promises.Grows Promise.Grows t.promises) : s.Grows t :=
  ⟨hconsole ▸ List.prefix_refl _, hdeclared ▸ List.prefix_refl _, hheap, hpromises⟩

end State

end Stepwise
