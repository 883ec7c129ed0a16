import Stepwise.Proofs.Dict
import Stepwise.Proofs.State.Storage
/-!
Counting of references. The heap counts how often what is stored at an address is bound; here the values
and stored contents that refer to the address are counted themselves.
-/

namespace Stepwise

/-- Whether a value is a reference to what is stored at an address. -/
def Value.refersTo (a : Address) : Value → Bool
  | .object b => b = a
  | _ => false

namespace Address

/-- How many of some values refer to an address. -/
def countIn (a : Address) (vs : List Value) : Nat := vs.countP (Value.refersTo a)

/-- An address that was handed out before a number was. -/
def Below (n : Nat) : Address → Prop
  | .array id | .object id | .promise id => id ≤ n
  | .label _ => True

theorem Below.mono {n m : Nat} {a : Address} (h : a.Below n) (hm : n ≤ m) : a.Below m := by
  cases a with
  | label => trivial
  | _ id => exact Nat.le_trans h hm

end Address

/-- A value that refers to nothing that is still to be made. -/
def Value.Made (n : Nat) : Value → Prop
  | .object a => a.Below n
  | _ => True

/-- All values of a list are made. -/
abbrev AllMade (n : Nat) (vs : List Value) : Prop := ∀ v ∈ vs, v.Made n

namespace Value

variable {n m : Nat} {a : Address} {v : Value} {vs : List Value}

theorem Made.mono (h : v.Made n) (hm : n ≤ m) : v.Made m := by
  cases v with
  | object b => exact Address.Below.mono h hm
  | _ => trivial

theorem made_of_isPlain (h : v.isPlain = true) : v.Made n := by
  cases v with
  | object b => cases h
  | _ => trivial

theorem refersTo_eq_false (h : v.Made n) (ha : ¬a.Below n) : v.refersTo a = false := by
  cases v with
  | object b =>
    refine decide_eq_false ?_
    rintro rfl
    exact ha h
  | _ => rfl

end Value

namespace Address

variable {n : Nat} {a : Address} {vs ws : List Value}

theorem countIn_append : a.countIn (vs ++ ws) = a.countIn vs + a.countIn ws := List.countP_append

theorem countIn_cons (a : Address) (v : Value) (vs : List Value) :
    a.countIn (v :: vs) = a.countIn [v] + a.countIn vs :=
  show a.countIn ([v] ++ vs) = _ from countIn_append

theorem countIn_eq_zero (h : AllMade n vs) (ha : ¬a.Below n) : a.countIn vs = 0 :=
  List.countP_eq_zero.mpr fun v hv ↦ by
    rw [Value.refersTo_eq_false (h v hv) ha]
    exact Bool.false_ne_true

theorem countIn_undefined (n : Nat) : a.countIn (List.replicate n .undefined) = 0 :=
  List.countP_eq_zero.mpr fun v hv ↦ by
    rw [List.eq_of_mem_replicate hv]
    exact Bool.false_ne_true

theorem countIn_set {index : Nat} (h : index < vs.length) (v : Value) :
    a.countIn (vs.set index v) + a.countIn [vs.getD index .undefined] = a.countIn vs + a.countIn [v] := by
  have hle := List.boole_getElem_le_countP (p := Value.refersTo a) h
  unfold countIn
  rw [List.countP_set h, List.countP_singleton, List.countP_singleton, List.getD_eq_getElem?_getD,
    List.getElem?_eq_getElem h, Option.getD_some]
  omega

section Dict

variable {κ α : Type} [DecidableEq κ]

/-- How many of the values that the entries of a dictionary hold refer to an address. -/
def countHeld (a : Address) (held : α → List Value) (d : Dict κ α) : Nat := a.countIn (d.values.flatMap held)

variable (held : α → List Value) (d : Dict κ α) (k : κ)

theorem countHeld_set (x : α) : a.countHeld held (d.set k x) + (d.get? k).elim 0 (a.countIn ∘ held) =
    a.countHeld held d + a.countIn (held x) := by
  unfold countHeld Dict.values
  cases hk : d.get? k with
  | none =>
    rw [Dict.entries_set_of_get?_eq_none hk, List.map_append, List.flatMap_append, countIn_append, List.map_singleton,
      List.flatMap_singleton]
    rfl
  | some y =>
    obtain ⟨es₁, es₂, hes, hset⟩ := Dict.exists_append_of_lookup hk
    have hentries : (d.set k x).entries = es₁ ++ (k, x) :: es₂ := hset x
    rw [hentries, hes]
    simp only [List.map_append, List.map_cons, List.flatMap_append, List.flatMap_cons, countIn_append, Option.elim_some,
      Function.comp_apply]
    omega

theorem countHeld_modify (g : α → α) : a.countHeld held (d.modify k g) + (d.get? k).elim 0 (a.countIn ∘ held) =
    a.countHeld held d + (d.get? k).elim 0 (a.countIn ∘ held ∘ g) := by
  cases hk : d.get? k with
  | none =>
    unfold Dict.modify
    rw [hk]
    rfl
  | some x =>
    have hset := countHeld_set (a := a) held d k (g x)
    unfold Dict.modify
    rw [hk] at hset ⊢
    exact hset

variable {held}

theorem countHeld_modify_of_eq {g : α → α} (hg : ∀ x, held (g x) = held x) :
    a.countHeld held (d.modify k g) = a.countHeld held d := by
  have hmodify := countHeld_modify (a := a) held d k g
  have hcomp : held ∘ g = held := funext hg
  rw [hcomp] at hmodify
  omega

omit [DecidableEq κ] in
theorem countHeld_eq_zero {d : Dict κ α} (h : ∀ x ∈ d.values, AllMade n (held x)) (ha : ¬a.Below n) :
    a.countHeld held d = 0 :=
  countIn_eq_zero (List.forall_mem_flatMap.mpr h) ha

theorem countIn_values_set (d : Dict κ Value) (k : κ) (v : Value) :
    a.countIn (d.set k v).values + a.countIn [(d.get? k).getD .undefined] = a.countIn d.values + a.countIn [v] := by
  have hset := countHeld_set (a := a) (fun w ↦ [w]) d k v
  unfold countHeld at hset
  rw [List.flatMap_singleton', List.flatMap_singleton'] at hset
  rw [← hset]
  cases d.get? k <;> rfl

end Dict

end Address

namespace Heap

variable {heap : Heap} {a b : Address} {v : Value}

/-- How many elements and fields of what is stored refer to an address. -/
def count (heap : Heap) (a : Address) : Nat := a.countHeld Cell.held heap

/-- How many bindings are counted of what is stored at an address. -/
def references? (heap : Heap) (a : Address) : Option Nat := (heap.get? a).map (·.references)

theorem references?_update {f : Cell → Cell} (hf : ∀ cell, (f cell).references = cell.references) (heap : Heap) (b : Address) :
    (heap.update b f).references? a = heap.references? a := by
  change ((Dict.modify heap b f).get? a).map (·.references) = _
  rw [Dict.get?_modify, references?]
  split
  next h =>
    rw [h, Option.map_map]
    exact congrArg (Option.map · (heap.get? b)) (funext hf)
  next => rfl

theorem references?_recount {g : Nat → Nat} (heap : Heap) (b : Address) :
    (heap.update b fun cell ↦ { cell with references := g cell.references }).references? a =
      (heap.references? a).map fun n ↦ if a = b then g n else n := by
  change ((Dict.modify heap b _).get? a).map (·.references) = _
  rw [Dict.get?_modify, references?]
  split
  next h =>
    rw [h, Option.map_map, Option.map_map]
    rfl
  next =>
    rw [Option.map_map]
    rfl

theorem countIn_object (a b : Address) : a.countIn [.object b] = if a = b then 1 else 0 := by
  rw [Address.countIn, List.countP_singleton]
  by_cases h : a = b
  · exact (if_pos (decide_eq_true h.symm)).trans (if_pos h).symm
  · exact (if_neg fun hba ↦ h (of_decide_eq_true hba).symm).trans (if_neg h).symm

theorem references?_retain (heap : Heap) (v : Value) :
    (heap.retain v).references? a = (heap.references? a).map (· + a.countIn [v]) := by
  cases v with
  | object b =>
    refine (references?_recount (g := (· + 1)) heap b).trans ?_
    rw [countIn_object]
    split <;> rfl
  | _ => exact Option.map_id'.symm

theorem references?_release (heap : Heap) (v : Value) :
    (heap.release v).references? a = (heap.references? a).map (· - a.countIn [v]) := by
  cases v with
  | object b =>
    refine (references?_recount (g := (· - 1)) heap b).trans ?_
    rw [countIn_object]
    split <;> rfl
  | _ => exact Option.map_id'.symm

theorem count_update {f : Cell → Cell} (hf : ∀ cell, (f cell).held = cell.held) (heap : Heap) (b : Address) :
    (heap.update b f).count a = heap.count a :=
  Address.countHeld_modify_of_eq heap b hf

theorem count_retain (heap : Heap) (v : Value) : (heap.retain v).count a = heap.count a := by
  cases v with
  | object b => exact count_update (f := fun cell ↦ { cell with references := cell.references + 1 }) (fun _ ↦ rfl) heap b
  | _ => rfl

theorem count_release (heap : Heap) (v : Value) : (heap.release v).count a = heap.count a := by
  cases v with
  | object b => exact count_update (f := fun cell ↦ { cell with references := cell.references - 1 }) (fun _ ↦ rfl) heap b
  | _ => rfl

theorem references?_retains (heap : Heap) (vs : List Value) :
    (vs.foldl retain heap).references? a = (heap.references? a).map (· + a.countIn vs) := by
  induction vs generalizing heap with
  | nil => exact Option.map_id'.symm
  | cons v vs ih =>
    rw [List.foldl_cons, ih, references?_retain, Option.map_map, Address.countIn_cons a v vs]
    congr 1
    funext n
    exact Nat.add_assoc ..

theorem count_retains (heap : Heap) (vs : List Value) : (vs.foldl retain heap).count a = heap.count a := by
  induction vs generalizing heap with
  | nil => rfl
  | cons v vs ih => rw [List.foldl_cons, ih, count_retain]

theorem exists_get?_release {cell : Cell} (hcell : heap.get? b = some cell) (v : Value) :
    ∃ n, (heap.release v).get? b = some { cell with references := n } := by
  cases v with
  | object c =>
    change ∃ n, (Dict.modify heap c _).get? b = _
    rw [Dict.get?_modify]
    split
    next h =>
      rw [← h, hcell]
      exact ⟨_, rfl⟩
    next => exact ⟨_, hcell⟩
  | _ => exact ⟨_, hcell⟩

theorem count_rebind {g : Cell → Cell} {cell : Cell} {old v : Value} (hcell : heap.get? b = some cell)
    (h : ∀ n, a.countIn (g { cell with references := n }).held + a.countIn [old] = a.countIn cell.held + a.countIn [v]) :
    (((heap.release old).update b g).retain v).count a + a.countIn [old] = heap.count a + a.countIn [v] := by
  obtain ⟨n, hn⟩ := exists_get?_release hcell old
  have hmodify : ((heap.release old).update b g).count a + a.countIn cell.held =
      (heap.release old).count a + a.countIn (g { cell with references := n }).held := by
    have hheld := Address.countHeld_modify (a := a) Cell.held (heap.release old) b g
    rw [hn] at hheld
    exact hheld
  have hrebound := h n
  rw [count_release] at hmodify
  rw [count_retain]
  omega

theorem references?_rebind {g : Cell → Cell} {old v : Value} (hg : ∀ cell, (g cell).references = cell.references) :
    (((heap.release old).update b g).retain v).references? a =
      (heap.references? a).map fun n ↦ n - a.countIn [old] + a.countIn [v] := by
  rw [references?_retain, references?_update hg, references?_release, Option.map_map]
  rfl

/-- Everything that is stored refers to what was made before. -/
abbrev Made (n : Nat) (heap : Heap) : Prop := heap.All (·.Made n)

theorem references?_set (heap : Heap) (b : Address) (cell : Cell) :
    Heap.references? (heap.set b cell) a = if a = b then some cell.references else heap.references? a := by
  unfold references?
  rw [Dict.get?_set]
  split <;> rfl

end Heap

end Stepwise
