import Stepwise.Proofs.State.Content
import Stepwise.State.Scoping
/-!
Properties behave like a store. What was written under a key is read there, every other key of the same
array or object and every other address read as before. An array has two exceptions: keys of digits that
denote one index name one element, and the length, which is the number of elements and cannot be written,
follows the greatest index.
-/

namespace Stepwise

namespace Cell

variable {cell : Cell} {key : Text} {f : Fault} {i : Nat}

/-- The key under which an array tells its length. -/
def Measures (cell : Cell) (key : Text) : Prop := cell.isArray = true ∧ key = lengthKey

/-- A key that denotes an element of an array. -/
def Indexes (cell : Cell) (key : Text) (i : Nat) : Prop := cell.isArray = true ∧ arrayIndex? key = .ok (some i)

/-- A key that names a field: of an object any does, of an array one that denotes no index. -/
def Names (cell : Cell) (key : Text) : Prop := cell.isArray = true → arrayIndex? key = .ok none

/-- A key of digits that is no numeral. An array can neither be read nor written there. -/
def Refuses (cell : Cell) (key : Text) (f : Fault) : Prop := cell.isArray = true ∧ arrayIndex? key = .error f

/-- An array with an element written at an index, filled up to it. -/
def withElement (cell : Cell) (i : Nat) (v : Value) : Cell :=
  { cell with elements := (cell.elements ++ List.replicate (i + 1 - cell.elements.length) Value.undefined).set i v }

def withField (cell : Cell) (key : Text) (v : Value) : Cell := { cell with fields := cell.fields.set key v }

theorem arrayIndex?_lengthKey : arrayIndex? lengthKey = .ok none := rfl

theorem Measures.names (h : cell.Measures key) : cell.Names key := fun _ ↦ h.2 ▸ arrayIndex?_lengthKey

theorem Indexes.not_names (h : cell.Indexes key i) : ¬ cell.Names key := by
  intro hnames
  cases (hnames h.1).symm.trans h.2

theorem Refuses.not_names (h : cell.Refuses key f) : ¬ cell.Names key := by
  intro hnames
  cases (hnames h.1).symm.trans h.2

theorem Indexes.unique {j : Nat} (h : cell.Indexes key i) (h' : cell.Indexes key j) : i = j := by
  cases h.2.symm.trans h'.2
  rfl

theorem names_or (cell : Cell) (key : Text) :
    cell.Names key ∨ (∃ i, cell.Indexes key i) ∨ ∃ f, cell.Refuses key f := by
  by_cases harray : cell.isArray = true
  · cases hindex : arrayIndex? key with
    | error f => exact .inr (.inr ⟨f, harray, hindex⟩)
    | ok index? =>
      cases index? with
      | none => exact .inl fun _ ↦ hindex
      | some i => exact .inr (.inl ⟨i, harray, hindex⟩)
  · exact .inl fun h ↦ absurd h harray

section Read

theorem read_of_measures (h : cell.Measures key) : cell.read key = .ok (.ofInt cell.elements.length) := by
  unfold read
  rw [if_pos h.1, if_pos h.2]
  rfl

theorem read_of_names (h : cell.Names key) (hm : ¬ cell.Measures key) :
    cell.read key = .ok ((cell.fields.get? key).getD .undefined) := by
  unfold read
  split
  next harray =>
    rw [if_neg fun hkey ↦ hm ⟨harray, hkey⟩, h harray]
    rfl
  next => rfl

theorem read_of_indexes (h : cell.Indexes key i) : cell.read key = .ok (cell.elements.getD i .undefined) := by
  have hlength : key ≠ lengthKey := fun hkey ↦ h.not_names (Measures.names ⟨h.1, hkey⟩)
  unfold read
  rw [if_pos h.1, if_neg hlength, h.2]
  rfl

theorem read_of_refuses (h : cell.Refuses key f) : cell.read key = .error f := by
  have hlength : key ≠ lengthKey := fun hkey ↦ h.not_names (Measures.names ⟨h.1, hkey⟩)
  unfold read
  rw [if_pos h.1, if_neg hlength, h.2]
  rfl

end Read

section Element

variable (cell) (i : Nat) (v : Value)

theorem length_withElement : (cell.withElement i v).elements.length = max cell.elements.length (i + 1) := by
  rw [withElement, List.length_set, List.length_append, List.length_replicate]
  omega

theorem getD_withElement (j : Nat) :
    (cell.withElement i v).elements.getD j .undefined = if j = i then v else cell.elements.getD j .undefined := by
  have hlength : i < (cell.elements ++ List.replicate (i + 1 - cell.elements.length) Value.undefined).length := by
    rw [List.length_append, List.length_replicate]
    omega
  rw [withElement, List.getD_eq_getElem?_getD, List.getD_eq_getElem?_getD]
  by_cases hij : j = i
  · rw [hij, List.getElem?_set_self hlength, if_pos rfl, Option.getD_some]
  · rw [List.getElem?_set_ne (Ne.symm hij), if_neg hij]
    -- behind the end the filling reads as what was missing there
    by_cases hj : j < cell.elements.length
    · rw [List.getElem?_append_left hj]
    · have hend : cell.elements.length ≤ j := Nat.le_of_not_lt hj
      rw [List.getElem?_append_right hend, List.getElem?_eq_none hend, List.getElem?_replicate]
      split <;> rfl

variable {cell i}

theorem read_withElement_of_indexes (h : cell.Indexes key i) : (cell.withElement i v).read key = .ok v := by
  have hindexes : (cell.withElement i v).Indexes key i := h
  rw [read_of_indexes hindexes, getD_withElement, if_pos rfl]

theorem read_withElement_of_measures (h : cell.Measures key) :
    (cell.withElement i v).read key = .ok (.ofInt (max cell.elements.length (i + 1) : Nat)) := by
  have hmeasures : (cell.withElement i v).Measures key := h
  rw [read_of_measures hmeasures, length_withElement]

theorem read_withElement_of_not (hm : ¬ cell.Measures key) (hi : ¬ cell.Indexes key i) :
    (cell.withElement i v).read key = cell.read key := by
  rcases cell.names_or key with h | ⟨j, h⟩ | ⟨f, h⟩
  · have hnames : (cell.withElement i v).Names key := h
    have hmeasures : ¬ (cell.withElement i v).Measures key := hm
    rw [read_of_names hnames hmeasures, read_of_names h hm]
    rfl
  · have hindexes : (cell.withElement i v).Indexes key j := h
    have hji : j ≠ i := fun hji ↦ hi (hji ▸ h)
    rw [read_of_indexes hindexes, read_of_indexes h, getD_withElement, if_neg hji]
  · have hrefuses : (cell.withElement i v).Refuses key f := h
    rw [read_of_refuses hrefuses, read_of_refuses h]

end Element

section Field

variable (v : Value)

theorem read_withField (h : cell.Names key) (hm : ¬ cell.Measures key) : (cell.withField key v).read key = .ok v := by
  have hnames : (cell.withField key v).Names key := h
  have hmeasures : ¬ (cell.withField key v).Measures key := hm
  rw [read_of_names hnames hmeasures, withField, Dict.get?_set, if_pos rfl, Option.getD_some]

theorem read_withField_of_not {key' : Text} (h : key' = key → cell.Measures key') :
    (cell.withField key v).read key' = cell.read key' := by
  by_cases hm : cell.Measures key'
  · have hmeasures : (cell.withField key v).Measures key' := hm
    rw [read_of_measures hmeasures, read_of_measures hm]
    rfl
  rcases cell.names_or key' with hn | ⟨j, hi⟩ | ⟨f, hr⟩
  · have hnames : (cell.withField key v).Names key' := hn
    have hmeasures : ¬ (cell.withField key v).Measures key' := hm
    rw [read_of_names hnames hmeasures, read_of_names hn hm, withField, Dict.get?_set, if_neg fun hkey ↦ hm (h hkey)]
  · have hindexes : (cell.withField key v).Indexes key' j := hi
    rw [read_of_indexes hindexes, read_of_indexes hi]
    rfl
  · have hrefuses : (cell.withField key v).Refuses key' f := hr
    rw [read_of_refuses hrefuses, read_of_refuses hr]

end Field

end Cell

namespace Heap

variable {heap heap' : Heap} {address : Address} {cell : Cell} {key : Text} {v : Value}

/-- Releasing what was there and retaining what comes, a cell is changed and everything else is the same. -/
theorem content?_rebind (hcell : heap.get? address = some cell) (old v : Value) (f : Cell → Cell)
    (hf : ∀ n, (f { cell with references := n }).bare = (f cell).bare) (a : Address) :
    (((heap.release old).update address f).retain v).content? a =
      if a = address then some (f cell).bare else heap.content? a := by
  obtain ⟨n, hn⟩ := exists_get?_release hcell old
  rw [content?_retain, content?_update, content?_release, hn, Option.map_some, Function.comp_apply, hf]

theorem content?_setElement (hcell : heap.get? address = some cell) (i : Nat) (v : Value) (a : Address) :
    (heap.setElement address cell i v).content? a =
      if a = address then some (cell.withElement i v).bare else heap.content? a :=
  content?_rebind hcell _ v (fun c ↦ { c with elements := (cell.withElement i v).elements }) (fun _ ↦ rfl) a

theorem content?_setField (hcell : heap.get? address = some cell) (key : Text) (v : Value) (a : Address) :
    (heap.setField address cell key v).content? a =
      if a = address then some (cell.withField key v).bare else heap.content? a :=
  content?_rebind hcell _ v (fun c ↦ c.withField key v) (fun _ ↦ rfl) a

theorem setProperty_of_cell (hcell : heap.get? address = some cell) (h : heap.setProperty (.object address) key v = .ok heap') :
    (∃ i, cell.Indexes key i ∧ heap' = heap.setElement address cell i v) ∨
      cell.Names key ∧ heap' = heap.setField address cell key v := by
  unfold setProperty at h
  dsimp only at h
  rw [hcell] at h
  dsimp only at h
  split at h
  next harray =>
    obtain ⟨index?, hindex, h⟩ := Except.exists_of_bind_eq_ok h
    cases index? with
    | some i =>
      cases h
      exact .inl ⟨i, ⟨harray, hindex⟩, rfl⟩
    | none =>
      cases h
      exact .inr ⟨fun _ ↦ hindex, rfl⟩
  next harray =>
    cases h
    exact .inr ⟨fun h ↦ absurd h harray, rfl⟩

theorem getProperty_of_ne (h : ∀ a, a ≠ address → heap'.content? a = heap.content? a) {receiver : Value}
    (hreceiver : receiver ≠ .object address) : heap'.getProperty receiver = heap.getProperty receiver := by
  cases receiver with
  | object a => exact getProperty_congr (h a fun ha ↦ hreceiver (ha ▸ rfl))
  | _ => rfl

end Heap

section State

variable {s t : State} {address : Address} {cell : Cell} {key : Text} {v : Value}

/-- A state with a value written under a key of an array or object. Counts of references aside, nothing else
is different. -/
structure State.Writes (s : State) (address : Address) (cell : Cell) (key : Text) (v : Value) (t : State) : Prop where
  written : ¬ cell.Measures key → t.heap.getProperty (.object address) key = .ok v
  /-- what is written under the key for the length of an array is not seen there -/
  measured : cell.Measures key → t.heap.getProperty (.object address) key = .ok (.ofInt cell.elements.length)
  shared : ∀ i key', cell.Indexes key i → cell.Indexes key' i → t.heap.getProperty (.object address) key' = .ok v
  lengthened : ∀ i key', cell.Indexes key i → cell.Measures key' →
    s.heap.getProperty (.object address) key' = .ok (.ofInt cell.elements.length) ∧
    t.heap.getProperty (.object address) key' = .ok (.ofInt (max cell.elements.length (i + 1) : Nat))
  kept : ∀ key', key' ≠ key → (∀ i, cell.Indexes key i → ¬ cell.Indexes key' i ∧ ¬ cell.Measures key') →
    t.heap.getProperty (.object address) key' = s.heap.getProperty (.object address) key'
  elsewhere : ∀ receiver, receiver ≠ .object address → t.heap.getProperty receiver = s.heap.getProperty receiver
  state : t = { s with heap := t.heap }
  addresses : t.heap.keys = s.heap.keys
  others : ∀ a, a ≠ address → t.heap.content? a = s.heap.content? a
  stored : (∃ i, cell.Indexes key i ∧ t.heap.content? address = some (cell.withElement i v).bare) ∨
    cell.Names key ∧ t.heap.content? address = some (cell.withField key v).bare

theorem Engine.exists_of_setProperty {receiver : Value} (h : Engine.setProperty receiver key v s = .ok () t) :
    s.heap.setProperty receiver key v = .ok t.heap ∧ t = { s with heap := t.heap } := by
  change ((liftM (s.heap.setProperty receiver key v) : Engine Heap) >>= fun heap ↦
    modify fun s ↦ { s with heap }) s = _ at h
  cases hheap : s.heap.setProperty receiver key v with
  | error f =>
    rw [hheap] at h
    cases h
  | ok heap =>
    rw [hheap] at h
    cases h
    exact ⟨rfl, rfl⟩

/-- Properties behave like a store, in every state and under all keys: whenever a write to an array or object that
is there succeeds, its value is read back and every other read is as before, keys of one index, the length of the
array and counts of references aside. -/
theorem setProperty_writes (hcell : s.heap.get? address = some cell)
    (h : Engine.setProperty (.object address) key v s = .ok () t) : s.Writes address cell key v t := by
  obtain ⟨hset, hstate⟩ := Engine.exists_of_setProperty h
  have hold (key' : Text) : s.heap.getProperty (.object address) key' = cell.read key' :=
    Heap.getProperty_of_content? (Heap.content?_of_get? hcell) key'
  rcases Heap.setProperty_of_cell hcell hset with ⟨i, hi, hheap⟩ | ⟨hn, hheap⟩
  · have hcontent (a : Address) := Heap.content?_setElement hcell i v a
    rw [← hheap] at hcontent
    have hnew (key' : Text) : t.heap.getProperty (.object address) key' = (cell.withElement i v).read key' :=
      Heap.getProperty_of_content? ((hcontent address).trans (if_pos rfl)) key'
    have hothers (a : Address) (ha : a ≠ address) := (hcontent a).trans (if_neg ha)
    refine ⟨fun _ ↦ ?_, fun hm ↦ absurd hm.names hi.not_names, fun j key' hj hj' ↦ ?_, fun j key' hj hm ↦ ⟨?_, ?_⟩,
      fun key' _ hkey ↦ ?_, fun _ ↦ Heap.getProperty_of_ne hothers, hstate, Heap.keys_setProperty hset, hothers,
      .inl ⟨i, hi, (hcontent address).trans (if_pos rfl)⟩⟩
    · rw [hnew, Cell.read_withElement_of_indexes v hi]
    · cases hi.unique hj
      rw [hnew, Cell.read_withElement_of_indexes v hj']
    · rw [hold, Cell.read_of_measures hm]
    · cases hi.unique hj
      rw [hnew, Cell.read_withElement_of_measures v hm]
    · rw [hnew, hold, Cell.read_withElement_of_not v (hkey i hi).2 (hkey i hi).1]
  · have hcontent (a : Address) := Heap.content?_setField hcell key v a
    rw [← hheap] at hcontent
    have hnew (key' : Text) : t.heap.getProperty (.object address) key' = (cell.withField key v).read key' :=
      Heap.getProperty_of_content? ((hcontent address).trans (if_pos rfl)) key'
    have hothers (a : Address) (ha : a ≠ address) := (hcontent a).trans (if_neg ha)
    refine ⟨fun hm ↦ ?_, fun hm ↦ ?_, fun j _ hj ↦ absurd hn hj.not_names, fun j _ hj ↦ absurd hn hj.not_names,
      fun key' hkey _ ↦ ?_, fun _ ↦ Heap.getProperty_of_ne hothers, hstate, Heap.keys_setProperty hset, hothers,
      .inr ⟨hn, (hcontent address).trans (if_pos rfl)⟩⟩
    · rw [hnew, Cell.read_withField v hn hm]
    · rw [hnew, Cell.read_withField_of_not v fun _ ↦ hm, Cell.read_of_measures hm]
    · rw [hnew, hold, Cell.read_withField_of_not v fun heq ↦ absurd heq hkey]

/-- A state with an array of one element. -/
def shortArray : State := { heap := ⟨[(.array 1, { isArray := true, elements := [.undefined] })]⟩ }

/-- Behind its end an array grows, and leading zeros of an index do not matter. -/
theorem writes_behindEnd : ∃ t, Engine.setProperty (.object (.array 1)) "002" .null shortArray = .ok () t ∧
    t.heap.getProperty (.object (.array 1)) "2" = .ok .null ∧
    t.heap.getProperty (.object (.array 1)) "length" = .ok (.ofInt 3) := by
  have hcell : shortArray.heap.get? (.array 1) = some { isArray := true, elements := [.undefined] } := rfl
  have hset : Engine.setProperty (.object (.array 1)) "002" .null shortArray = .ok () _ := rfl
  have hwrites := setProperty_writes hcell hset
  exact ⟨_, hset, hwrites.shared 2 "2" ⟨rfl, rfl⟩ ⟨rfl, rfl⟩, (hwrites.lengthened 2 "length" ⟨rfl, rfl⟩ ⟨rfl, rfl⟩).2⟩

end State

end Stepwise
