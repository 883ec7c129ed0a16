import Stepwise.Proofs.Value.Unfolding
import Stepwise.Proofs.Json.Path
/-!
Numbers alone and inside of what is stored. A finite number is written the same in both places, unless it is an integral double
from 10^21 on: alone it is written with an exponent, and inside with all its digits.
-/

namespace Stepwise

namespace Num

variable {n : Num}

def IsFinite : Num → Prop
  | int _ => True
  | float x => x.isFinite = true

/-- An integral double with more than 21 digits. -/
def IsLong : Num → Prop
  | int _ => False
  | float x => ∃ i, x.toInt? = some i ∧ 10 ^ 21 ≤ i.natAbs

theorem toText_float_of_isFinite {x : Double} (h : x.isFinite = true) : (float x).toText =
    (x.toInt?.elim x.toText fun i ↦ if i.natAbs < Nat.pow 10 21 then .ofInt i else x.toText) := by
  cases x with
  | finite negative rank =>
    rw [toText]
    cases (Double.finite negative rank).toInt? <;> rfl
  | _ => cases h

theorem toJson_float_of_isFinite {x : Double} (h : x.isFinite = true) :
    (float x).toJson = .number (x.toInt?.elim (.float x) .int) := by
  rw [toJson, if_pos h]
  cases x.toInt? <;> rfl

theorem compact_toJson_eq_iff (h : n.IsFinite) (ascii : Bool) : n.toJson.compact ascii = n.toText ↔ ¬ n.IsLong := by
  cases n with
  | int i => exact iff_of_true rfl not_false
  | float x =>
    rw [toText_float_of_isFinite h, toJson_float_of_isFinite h, Json.compact, IsLong]
    cases hint : x.toInt? with
    | none => exact iff_of_true rfl fun ⟨_, hi, _⟩ ↦ Option.some_ne_none _ hi.symm
    | some i =>
      rw [Option.elim_some, Option.elim_some]
      split
      next hshort =>
        refine iff_of_true rfl ?_
        rintro ⟨_, ⟨⟩, hlong⟩
        exact Nat.not_le.mpr hshort hlong
      next hlong =>
        refine iff_of_false (fun htext ↦ ?_) fun hshort ↦ hshort ⟨i, rfl, Nat.not_lt.mp hlong⟩
        obtain ⟨p, hp, hpoint⟩ := x.exists_mem_toText
        exact hpoint (Text.isIntegerPoint_of_mem_ofInt (htext ▸ hp))

end Num

theorem Cell.child?_document {cell : Cell} {i : Nat} {v : Value} (h : cell.shown[i]? = some v) (doc : Value → Json) :
    (cell.document doc).child? i = some (doc v) := by
  unfold shown at h
  unfold document
  split at h
  next harray =>
    rw [if_pos harray, Json.child?, List.getElem?_map, h]
    rfl
  next harray =>
    rw [List.getElem?_map] at h
    obtain ⟨field, hfield, rfl⟩ := Option.map_eq_some_iff.mp h
    rw [if_neg harray, Json.child?, List.getElem?_map, hfield]
    rfl

namespace Value

variable {heap : Heap} {v inner : Value} {path : List Nat} {json : Json} {n : Num}

/-- A path of positions leads from a value to another one, through the cells of references. -/
inductive Contains (heap : Heap) : Value → List Nat → Value → Prop
  | here (v : Value) : Contains heap v [] v
  | inside {a : Address} {cell : Cell} {i : Nat} {v inner : Value} {path : List Nat} (hcell : heap.get? a = some cell)
    (hv : cell.shown[i]? = some v) (h : Contains heap v path inner) : Contains heap (object a) (i :: path) inner

theorem Contains.exists_get? (h : Contains heap v path inner) (hjson : Unfolds heap v json) :
    ∃ part, json.get? path = some part ∧ Unfolds heap inner part := by
  induction h generalizing json with
  | here v => exact ⟨json, rfl, hjson⟩
  | inside hcell hv _ ih =>
    cases hjson with
    | dangling hnone =>
      rw [hcell] at hnone
      cases hnone
    | @stored _ _ doc hcell' hcontents =>
      rw [hcell] at hcell'
      cases hcell'
      obtain ⟨part, hpart, hinner⟩ := ih (hcontents _ (List.mem_of_getElem? hv))
      refine ⟨part, ?_, hinner⟩
      rw [Json.get?, Cell.child?_document hv doc]
      exact hpart

/-- A finite number in a rendered structure has a text of its own there, with the same around it whatever is in its place. The
text is the one that the number has on the console and in a panel, unless the number is long. -/
theorem number_text_inside (hfinite : n.IsFinite) (h : Contains heap v path (number n)) (hjson : v.toJson? heap = some json) :
    (∃ front back : Text, v.structureText heap = front ++ (n.toJson.compact false ++ back) ∧
      ∀ inner : Json, (json.put path inner).compact false = front ++ (inner.compact false ++ back)) ∧
    (n.toJson.compact false = (number n).toConsole heap ↔ ¬ n.IsLong) ∧
    (number n).toConsole heap = (number n).toPanel heap := by
  obtain ⟨part, hpart, hunfolds⟩ := h.exists_get? (unfolds_of_toJson? hjson)
  obtain rfl := hunfolds.unique (unfolds_number n)
  obtain ⟨front, back, htext⟩ := Json.exists_compact_put false hpart
  refine ⟨⟨front, back, ?_, htext⟩, Num.compact_toJson_eq_iff hfinite false, rfl⟩
  rw [← htext, Json.put_self hpart, structureText, hjson]

def fraction : Num := .float (.finite false ⟨4612811918334230528, by decide⟩)

/-- An array of an object with a fraction, and of null. -/
def nestedFraction : Heap := ⟨[(.array 1, { isArray := true, elements := [object (.object 2), null] }),
  (.object 2, { isArray := false, fields := ⟨[(Text.ofString "x", number fraction)]⟩ })]⟩

def nestedFractionJson : Json := .array [.object [(Text.ofString "x", fraction.toJson)], .null]

theorem number_text_inside_nested :
    fraction.IsFinite ∧ Contains nestedFraction (object (.array 1)) [0, 0] (number fraction) ∧
    (object (.array 1)).toJson? nestedFraction = some nestedFractionJson ∧
    (∃ front back : Text, (object (.array 1)).structureText nestedFraction = front ++ (fraction.toJson.compact false ++ back) ∧
      ∀ inner : Json, (nestedFractionJson.put [0, 0] inner).compact false = front ++ (inner.compact false ++ back)) ∧
    (fraction.toJson.compact false = (number fraction).toConsole nestedFraction ↔ ¬ fraction.IsLong) ∧
    (number fraction).toConsole nestedFraction = (number fraction).toPanel nestedFraction := by
  have hcontains : Contains nestedFraction (object (.array 1)) [0, 0] (number fraction) :=
    .inside rfl rfl (.inside rfl rfl (.here _))
  have hjson : (object (.array 1)).toJson? nestedFraction = some nestedFractionJson := rfl
  exact ⟨rfl, hcontains, hjson, number_text_inside rfl hcontains hjson⟩

def longNumber : Num := .float (.finite false ⟨4921056587992461136, by decide⟩)

def longNumbers : Heap := ⟨[(.array 1, { isArray := true, elements := [number longNumber] })]⟩

/-- The double 10^21 has an exponent alone, and none in an array. -/
theorem number_text_differs : (object (.array 1)).structureText longNumbers = "[1000000000000000000000]" ∧
    (number longNumber).toConsole longNumbers = "1e+21" := by
  decide +kernel

end Value

end Stepwise
