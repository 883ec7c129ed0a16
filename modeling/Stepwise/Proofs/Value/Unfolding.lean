import Stepwise.Display
import Stepwise.Proofs.Value.Text
import Mathlib.Data.List.Nodup
import Mathlib.Data.List.Chain
/-!
What is stored, unfolded. The references between cells may share and may go in circles; a cell has an unfolding if no path of
references from it comes to an address twice, and rendering finds it, or finds such a path.
-/

namespace Stepwise

namespace Cell

variable {cell : Cell} {doc? doc?' : Value → Option Json} {doc doc' : Value → Json} {v : Value} {json : Json}

/-- The elements of an array, and the fields of what is none. -/
def contents (cell : Cell) : List Value := if cell.isArray then cell.elements else cell.fields.values

/-- The contents that are shown. -/
def shown (cell : Cell) : List Value :=
  if cell.isArray then cell.elements else (cell.fields.entries.filter (·.2.isShown)).map Prod.snd

/-- The document of a cell, from a document for each of its contents. -/
def document (cell : Cell) (doc : Value → Json) : Json :=
  if cell.isArray then .array (cell.elements.map doc)
  else .object ((cell.fields.entries.filter (·.2.isShown)).map fun field ↦ (field.1, doc field.2))

def document? (cell : Cell) (doc? : Value → Option Json) : Option Json :=
  if cell.isArray then (cell.elements.mapM doc?).map Json.array
  else ((cell.fields.entries.filter (·.2.isShown)).mapM fun field ↦ (doc? field.2).map (field.1, ·)).map Json.object

theorem mem_contents_of_mem_shown (h : v ∈ cell.shown) : v ∈ cell.contents := by
  unfold shown at h
  unfold contents
  split at h
  next harray => rwa [if_pos harray]
  next harray =>
    rw [if_neg harray]
    obtain ⟨field, hfield, rfl⟩ := List.mem_map.mp h
    exact List.mem_map_of_mem (List.mem_filter.mp hfield).1

theorem object_mem_shown {a : Address} (h : .object a ∈ cell.contents) : .object a ∈ cell.shown := by
  unfold contents at h
  unfold shown
  split at h
  next harray => rwa [if_pos harray]
  next harray =>
    rw [if_neg harray]
    obtain ⟨field, hfield, hvalue⟩ := List.mem_map.mp h
    refine List.mem_map.mpr ⟨field, List.mem_filter.mpr ⟨hfield, ?_⟩, hvalue⟩
    rw [hvalue]
    rfl

theorem document_congr (h : ∀ v ∈ cell.shown, doc v = doc' v) : cell.document doc = cell.document doc' := by
  unfold shown at h
  unfold document
  split at h
  next harray => rw [if_pos harray, if_pos harray, List.map_congr_left h]
  next harray =>
    rw [if_neg harray, if_neg harray]
    refine congrArg Json.object (List.map_congr_left fun field hfield ↦ ?_)
    rw [h _ (List.mem_map_of_mem hfield)]

theorem document?_eq_some (h : ∀ v ∈ cell.shown, doc? v = some (doc v)) : cell.document? doc? = some (cell.document doc) := by
  unfold shown at h
  unfold document? document
  split at h
  next harray => rw [if_pos harray, if_pos harray, mapM_eq_some_map h, Option.map_some]
  next harray =>
    have hfields : ∀ field ∈ cell.fields.entries.filter (·.2.isShown),
        (doc? field.2).map (field.1, ·) = some (field.1, doc field.2) := fun field hfield ↦ by
      rw [h _ (List.mem_map_of_mem hfield), Option.map_some]
    rw [if_neg harray, if_neg harray, mapM_eq_some_map hfields, Option.map_some]

theorem document?_eq_none (h : v ∈ cell.shown) (hv : doc? v = none) : cell.document? doc? = none := by
  unfold shown at h
  unfold document?
  split at h
  next harray => rw [if_pos harray, mapM_eq_none_of_mem h hv, Option.map_none]
  next harray =>
    obtain ⟨field, hfield, rfl⟩ := List.mem_map.mp h
    have hfield' : (doc? field.2).map (field.1, ·) = none := by rw [hv, Option.map_none]
    rw [if_neg harray, mapM_eq_none_of_mem hfield hfield', Option.map_none]

theorem exists_of_document?_eq_none (h : cell.document? doc? = none) : ∃ v ∈ cell.shown, doc? v = none := by
  by_contra hnone
  have hdoc : ∀ v ∈ cell.shown, doc? v = some ((doc? v).getD .null) := by
    intro v hv
    obtain ⟨json, hjson⟩ := Option.ne_none_iff_exists'.mp fun hv' ↦ hnone ⟨v, hv, hv'⟩
    rw [hjson, Option.getD_some]
  rw [document?_eq_some hdoc] at h
  cases h

/-- A cell has a document only if each of its contents has one, and then it is put together of these. -/
theorem exists_of_document?_eq_some (h : cell.document? doc? = some json) :
    ∃ doc : Value → Json, (∀ v ∈ cell.shown, doc? v = some (doc v)) ∧ json = cell.document doc := by
  have hdoc : ∀ v ∈ cell.shown, doc? v = some ((doc? v).getD .null) := by
    intro v hv
    cases hjson : doc? v with
    | none =>
      rw [document?_eq_none hv hjson] at h
      cases h
    | some json => rw [Option.getD_some]
  rw [document?_eq_some hdoc] at h
  exact ⟨_, hdoc, (Option.some.inj h).symm⟩

theorem document?_congr (h : ∀ v ∈ cell.shown, doc? v = doc?' v) : cell.document? doc? = cell.document? doc?' := by
  cases hjson : cell.document? doc?' with
  | none =>
    obtain ⟨v, hv, hnone⟩ := exists_of_document?_eq_none hjson
    exact document?_eq_none hv ((h v hv).trans hnone)
  | some json =>
    obtain ⟨doc, hdoc, rfl⟩ := exists_of_document?_eq_some hjson
    exact document?_eq_some fun v hv ↦ (h v hv).trans (hdoc v hv)

end Cell

namespace Heap

/-- One cell has a reference to another address among its contents. -/
def Refers (heap : Heap) (outer inner : Address) : Prop :=
  ∃ cell, heap.get? outer = some cell ∧ Value.object inner ∈ cell.contents

/-- Some path of references from an address comes to the same address twice. -/
def Revisits (heap : Heap) (address : Address) : Prop :=
  ∃ path, List.IsChain heap.Refers (address :: path) ∧ ¬ (address :: path).Nodup

end Heap

namespace Value

variable {heap : Heap} {depth : Nat} {path : List Address} {v : Value} {json json' : Json} {a : Address}

/-- A finite document has been made of a value and of everything behind it. -/
inductive Unfolds (heap : Heap) : Value → Json → Prop
  | undefined : Unfolds heap .undefined .null
  | null : Unfolds heap .null .null
  | boolean (b : Bool) : Unfolds heap (.boolean b) (.boolean b)
  | int (i : Int) : Unfolds heap (.number (.int i)) (.number (.int i))
  | integral {x : Double} {i : Int} (h : x.toInt? = some i) : Unfolds heap (.number (.float x)) (.number (.int i))
  | fraction {x : Double} (hfinite : x.isFinite = true) (h : x.toInt? = none) :
    Unfolds heap (.number (.float x)) (.number (.float x))
  | nonfinite {x : Double} (h : x.isFinite = false) : Unfolds heap (.number (.float x)) .null
  | string (t : Text) : Unfolds heap (.string t) (.string t)
  | function (f : Function) : Unfolds heap (.function f) .null
  | promise (a : Address) : Unfolds heap (.promise a) .null
  | dangling {a : Address} (h : heap.get? a = none) : Unfolds heap (.object a) .null
  | stored {a : Address} {cell : Cell} {doc : Value → Json} (h : heap.get? a = some cell)
    (hcontents : ∀ v ∈ cell.shown, Unfolds heap v (doc v)) : Unfolds heap (.object a) (cell.document doc)

theorem isFinite_of_toInt? {x : Double} {i : Int} (h : x.toInt? = some i) : x.isFinite = true := by
  cases x with
  | finite negative rank => rfl
  | _ => cases h

theorem unfolds_number (n : Num) : Unfolds heap (.number n) n.toJson := by
  cases n with
  | int i => exact .int i
  | float x =>
    rw [Num.toJson]
    cases hfinite : x.isFinite with
    | false => exact .nonfinite hfinite
    | true =>
      rw [if_pos rfl]
      cases hint : x.toInt? with
      | none => exact .fraction hfinite hint
      | some i => exact .integral hint

theorem Unfolds.eq_toJson {n : Num} (h : Unfolds heap (number n) json) : json = n.toJson := by
  cases h with
  | int => rfl
  | integral h => rw [Num.toJson, if_pos (isFinite_of_toInt? h), h]
  | fraction hfinite h => rw [Num.toJson, if_pos hfinite, h]
  | nonfinite h =>
    rw [Num.toJson, h]
    rfl

theorem Unfolds.unique (h : Unfolds heap v json) (h' : Unfolds heap v json') : json = json' := by
  induction h generalizing json' with
  | undefined | null | boolean | string | function | promise =>
    cases h'
    rfl
  | int => exact h'.eq_toJson.symm
  | integral h =>
    have hnumber : Unfolds heap _ _ := .integral h
    exact hnumber.eq_toJson.trans h'.eq_toJson.symm
  | fraction hfinite h =>
    have hnumber : Unfolds heap _ _ := .fraction hfinite h
    exact hnumber.eq_toJson.trans h'.eq_toJson.symm
  | nonfinite h =>
    have hnumber : Unfolds heap _ _ := .nonfinite h
    exact hnumber.eq_toJson.trans h'.eq_toJson.symm
  | dangling h =>
    cases h' with
    | dangling => rfl
    | stored h' =>
      rw [h] at h'
      cases h'
  | stored h _ ih =>
    cases h' with
    | dangling h' =>
      rw [h] at h'
      cases h'
    | stored h' hcontents =>
      rw [h] at h'
      cases h'
      exact Cell.document_congr fun v hv ↦ ih v hv (hcontents v hv)

/-- Rendering a value, with another rendering for what the value contains. -/
def renderBy (heap : Heap) (inner : List Address → Value → Option Json) (path : List Address) (v : Value) : Option Json :=
  match v with
  | undefined | null | function _ | promise _ => some .null
  | boolean b => some (.boolean b)
  | number n => some n.toJson
  | string t => some (.string t)
  | object address =>
    if address ∈ path then none
    else (heap.get? address).elim (some .null) fun cell ↦ cell.document? (inner (address :: path))

theorem toJsonWithin_succ (depth : Nat) (path : List Address) (v : Value) :
    v.toJsonWithin heap (depth + 1) path = renderBy heap (toJsonWithin heap depth) path v := by
  cases v with
  | object address =>
    rw [toJsonWithin, renderBy]
    cases heap.get? address with
    | none => rfl
    | some cell => rfl
  | _ => rfl

theorem toJsonWithin_eq_iterate (depth : Nat) :
    toJsonWithin heap depth = (renderBy heap)^[depth] (fun _ _ ↦ none) := by
  induction depth with
  | zero => rfl
  | succ depth ih =>
    funext path v
    rw [Function.iterate_succ_apply', ← ih, toJsonWithin_succ]

/-- The addresses on the way to a value: different ones, each with a cell, and so few that the depth is not used up. -/
structure IsWay (heap : Heap) (depth : Nat) (path : List Address) : Prop where
  nodup : path.Nodup
  stored : path ⊆ heap.keys
  depth : heap.size + 2 ≤ path.length + depth

theorem IsWay.depth_ne_zero (h : IsWay heap depth path) : depth ≠ 0 := by
  rintro rfl
  have hle := (List.subperm_of_subset h.nodup h.stored).length_le
  have hsize : heap.keys.length = heap.size := List.length_map _
  have := h.depth
  omega

theorem IsWay.cons {cell : Cell} (h : IsWay heap (depth + 1) path) (ha : a ∉ path) (hcell : heap.get? a = some cell) :
    IsWay heap depth (a :: path) := by
  have hkey : a ∈ heap.keys := by
    by_contra hkey
    rw [Dict.get?_eq_none_iff.mpr hkey] at hcell
    cases hcell
  refine ⟨List.nodup_cons.mpr ⟨ha, h.nodup⟩, List.cons_subset.mpr ⟨hkey, h.stored⟩, ?_⟩
  have := h.depth
  rw [List.length_cons]
  omega

/-- What would be done beyond the depth is never asked for. -/
theorem IsWay.iterate_eq (h : IsWay heap depth path) (beyond beyond' : List Address → Value → Option Json) (v : Value) :
    (renderBy heap)^[depth] beyond path v = (renderBy heap)^[depth] beyond' path v := by
  induction depth generalizing path v with
  | zero => exact absurd rfl h.depth_ne_zero
  | succ depth ih =>
    rw [Function.iterate_succ_apply', Function.iterate_succ_apply']
    cases v with
    | object a =>
      rw [renderBy, renderBy]
      split
      next => rfl
      next ha =>
        cases hcell : heap.get? a with
        | none => rfl
        | some cell => exact Cell.document?_congr fun v _ ↦ ih (h.cons ha hcell) v
    | _ => rfl

/-- If there is no rendering, then some path of references comes to an address twice, or back to the way. -/
theorem IsWay.exists_chain (h : IsWay heap depth path) (hnone : (object a).toJsonWithin heap depth path = none) :
    ∃ rest, List.IsChain heap.Refers (a :: rest) ∧ ¬ (path ++ a :: rest).Nodup := by
  induction depth generalizing path a with
  | zero => exact absurd rfl h.depth_ne_zero
  | succ depth ih =>
    rw [toJsonWithin_succ, renderBy] at hnone
    split at hnone
    next ha =>
      refine ⟨[], .singleton a, fun hnodup ↦ ?_⟩
      exact (List.nodup_cons.mp (List.nodup_middle.mp hnodup)).1 (List.mem_append_left _ ha)
    next ha =>
      cases hcell : heap.get? a with
      | none =>
        rw [hcell] at hnone
        cases hnone
      | some cell =>
        rw [hcell] at hnone
        obtain ⟨v, hv, hnone⟩ := Cell.exists_of_document?_eq_none hnone
        have hway := h.cons ha hcell
        obtain ⟨b, rfl⟩ : ∃ b, v = object b := by
          obtain ⟨depth, rfl⟩ := Nat.exists_eq_succ_of_ne_zero hway.depth_ne_zero
          rw [toJsonWithin_succ] at hnone
          cases v with
          | object b => exact ⟨b, rfl⟩
          | _ => cases hnone
        obtain ⟨rest, hchain, hrest⟩ := ih hway hnone
        refine ⟨b :: rest, .cons_cons ⟨cell, hcell, Cell.mem_contents_of_mem_shown hv⟩ hchain, fun hnodup ↦ hrest ?_⟩
        exact List.nodup_middle.mp hnodup

/-- If there is a rendering, then no path of references comes to an address twice, or back to the way. -/
theorem nodup_of_toJsonWithin (hjson : (object a).toJsonWithin heap depth path = some json) (h : path.Nodup)
    {rest : List Address} (hchain : List.IsChain heap.Refers (a :: rest)) : (path ++ a :: rest).Nodup := by
  induction depth generalizing path a json rest with
  | zero => cases hjson
  | succ depth ih =>
    rw [toJsonWithin_succ, renderBy] at hjson
    split at hjson
    next => cases hjson
    next ha =>
      have hnodup : (a :: path).Nodup := List.nodup_cons.mpr ⟨ha, h⟩
      cases rest with
      | nil => exact List.nodup_middle.mpr (by rwa [List.append_nil])
      | cons b rest =>
        obtain ⟨⟨cell, hcell, hb⟩, hchain⟩ := List.isChain_cons_cons.mp hchain
        rw [hcell] at hjson
        obtain ⟨doc, hdoc, -⟩ := Cell.exists_of_document?_eq_some hjson
        exact List.nodup_middle.mpr (ih (hdoc _ (Cell.object_mem_shown hb)) hnodup hchain)

theorem unfolds_of_toJsonWithin (h : v.toJsonWithin heap depth path = some json) : Unfolds heap v json := by
  induction depth generalizing path v json with
  | zero => cases h
  | succ depth ih =>
    rw [toJsonWithin_succ] at h
    cases v with
    | number n =>
      cases h
      exact unfolds_number n
    | object a =>
      rw [renderBy] at h
      split at h
      next => cases h
      next =>
        cases hcell : heap.get? a with
        | none =>
          rw [hcell] at h
          cases h
          exact .dangling hcell
        | some cell =>
          rw [hcell] at h
          obtain ⟨doc, hdoc, rfl⟩ := Cell.exists_of_document?_eq_some h
          exact .stored hcell fun v hv ↦ ih (hdoc v hv)
    | _ =>
      cases h
      constructor

theorem isWay_nil (heap : Heap) : IsWay heap (heap.size + 2) [] := ⟨List.nodup_nil, List.nil_subset _, Nat.le_add_left _ _⟩

theorem iterate_renderBy (beyond : List Address → Value → Option Json) (v : Value) :
    (renderBy heap)^[heap.size + 2] beyond [] v = v.toJson? heap := by
  rw [toJson?, toJsonWithin_eq_iterate]
  exact (isWay_nil heap).iterate_eq _ _ v

theorem toJson?_object_eq_none_iff : (object a).toJson? heap = none ↔ heap.Revisits a := by
  constructor
  · exact fun h ↦ (isWay_nil heap).exists_chain h
  · rintro ⟨rest, hchain, hrest⟩
    by_contra hjson
    obtain ⟨json, hjson⟩ := Option.ne_none_iff_exists'.mp hjson
    exact hrest (nodup_of_toJsonWithin hjson List.nodup_nil hchain)

theorem unfolds_of_toJson? (h : v.toJson? heap = some json) : Unfolds heap v json := unfolds_of_toJsonWithin h

end Value

end Stepwise
