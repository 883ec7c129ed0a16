import Stepwise.Value.Operator
import Stepwise.Proofs.Number.Numeral
import Stepwise.Proofs.Value.Primitive
/-!
Equality with conversion where one side is a boolean. Both sides become numbers, but without a look at what is stored, so
an array counts as an object without a text of its own. The boolean equals what its number equals, up to arrays whose texts
are numerals of that number.
-/

namespace Stepwise

namespace Num

variable {a b x : Num}

/-- The number that a boolean is. -/
def bit (b : Bool) : Num := int (if b then 1 else 0)

/-- Numbers are equal where they stand at the same place. -/
theorem equal_iff : a.equal b = true ↔ ∃ place, a.position? = some place ∧ b.position? = some place := by
  unfold equal compare?
  cases a.position? with
  | none => exact iff_of_false Bool.false_ne_true fun ⟨_, hnone, _⟩ ↦ Option.some_ne_none _ hnone.symm
  | some p =>
    cases b.position? with
    | none => exact iff_of_false Bool.false_ne_true fun ⟨_, _, hnone⟩ ↦ Option.some_ne_none _ hnone.symm
    | some q =>
      have horder : (compare p.1 q.1).then (compare p.2 q.2) = .eq ↔ p = q := by
        rw [Ordering.then_eq_eq, Std.compare_eq_iff_eq, Std.compare_eq_iff_eq, Prod.ext_iff]
      simp only [Option.bind_eq_bind, Option.bind_some, Option.pure_def, beq_iff_eq, Option.some_inj, horder]
      refine ⟨fun heq ↦ ⟨p, rfl, heq.symm⟩, fun ⟨place, hp, hq⟩ ↦ hp.trans hq.symm⟩

theorem equal_int (i j : Int) : (int i).equal (int j) = decide (i = j) := by
  have hpower (n : Nat) : 0 < Nat.pow 2 n := Nat.pow_pos Nat.two_pos
  obtain ⟨unit, hunit, hplace⟩ : ∃ unit : Int, unit ≠ 0 ∧ ∀ i, (int i).position? = some (0, i * unit) := by
    refine ⟨_, ?_, fun i ↦ rfl⟩
    apply Int.natCast_ne_zero.mpr
    exact Nat.ne_of_gt (hpower _)
  rw [Bool.eq_iff_iff, equal_iff, decide_eq_true_iff, hplace, hplace]
  constructor
  · rintro ⟨place, hi, hj⟩
    have hplaces := Option.some_inj.mp (hi.trans hj.symm)
    exact Int.eq_of_mul_eq_mul_right hunit (Prod.mk.inj hplaces).2
  · rintro rfl
    exact ⟨_, rfl, rfl⟩

theorem equal_comm (a b : Num) : a.equal b = b.equal a := by
  rw [Bool.eq_iff_iff, equal_iff, equal_iff]
  simp only [And.comm]

theorem equal_nan (x : Num) : x.equal (.float .nan) = false := by
  apply Bool.eq_false_iff.mpr
  intro h
  obtain ⟨place, -, hnan⟩ := equal_iff.mp h
  cases hnan

end Num

namespace Heap

/-- Whether a value is an array with a numeral of a number for a text. -/
def Spells (heap : Heap) (v : Value) (x : Num) : Prop :=
  ∃ elements t, heap.elements? v = some elements ∧ v.toText heap = .ok t ∧ x.equal (.ofText t) = true

end Heap

namespace Value

variable {heap : Heap} {v : Value} {x : Num} {b : Bool}

/-- What is no number becomes a text, and its number is the one that this text is a numeral of. -/
theorem exists_text (heap : Heap) (hnullish : v.isNullish = false) (hboolean : v.isBoolean = false)
    (htype : v.typeOf ≠ .number) :
    ∃ text : Except Fault Text, v.toPrimitive heap = text.map string ∧ v.toNumber heap = text.map Num.ofText := by
  have hplain (h : heap.elements? v = none) : v.toText heap = .ok v.plainText := toText_of_elements?_eq_none h
  cases v with
  | undefined | null => cases hnullish
  | boolean c => cases hboolean
  | number y => exact absurd rfl htype
  | string t => exact ⟨.ok t, rfl, rfl⟩
  | function f =>
    have hnan : Num.ofText (function f).plainText = .float .nan := Num.ofText_f _
    refine ⟨(function f).toText heap, rfl, ?_⟩
    rw [hplain rfl, toNumber, Except.map, hnan]
  | promise address =>
    refine ⟨(promise address).toText heap, rfl, ?_⟩
    rw [hplain rfl]
    rfl
  | object address => exact ⟨(object address).toText heap, rfl, rfl⟩

theorem looseEquals_number (heap : Heap) (x : Num) (hnullish : v.isNullish = false) (hboolean : v.isBoolean = false) :
    looseEquals heap (.number x) v = (v.toNumber heap).map x.equal ∧
    looseEquals heap v (.number x) = (v.toNumber heap).map x.equal := by
  have hnumber : (number x).isNullish = false ∧ (number x).isBoolean = false ∧ (number x).typeOf = .number :=
    ⟨rfl, rfl, rfl⟩
  by_cases htype : v.typeOf = .number
  · cases v with
    | number y => exact ⟨rfl, congrArg Except.ok (y.equal_comm x)⟩
    | _ => cases htype
  · obtain ⟨text, hprimitive, htext⟩ := exists_text heap hnullish hboolean htype
    have hne : TypeName.number ≠ v.typeOf := fun h ↦ htype h.symm
    simp only [looseEquals, convertedEquals, hnumber, hnullish, hboolean, hprimitive, htext, htype, hne, Bool.or_self,
      Bool.false_eq_true, if_false]
    cases text with
    | error f => exact ⟨rfl, rfl⟩
    | ok t => exact ⟨rfl, congrArg Except.ok ((Num.ofText t).equal_comm x)⟩

/-- A boolean is compared by its number with the number that the other side has without the heap. -/
theorem looseEquals_boolean (heap : Heap) (b : Bool) (hnullish : v.isNullish = false) (hboolean : v.isBoolean = false) :
    looseEquals heap (.boolean b) v = (v.toNumber ∅).map (Num.bit b).equal ∧
    looseEquals heap v (.boolean b) = (v.toNumber ∅).map (Num.bit b).equal := by
  have hbool : (boolean b).isNullish = false ∧ (boolean b).isBoolean = true ∧ (boolean b).typeOf = .boolean :=
    ⟨rfl, rfl, rfl⟩
  have htype : v.typeOf ≠ .boolean := by
    intro htype
    cases v with
    | boolean c => cases hboolean
    | _ => cases htype
  have hne : TypeName.boolean ≠ v.typeOf := fun h ↦ htype h.symm
  simp only [looseEquals, convertedEquals, hbool, hnullish, hboolean, htype, hne, Bool.or_self, Bool.or_true, Bool.or_false,
    Bool.false_eq_true, if_false, if_true]
  cases v.toNumber ∅ with
  | error f => exact ⟨rfl, rfl⟩
  | ok y => exact ⟨rfl, congrArg Except.ok (y.equal_comm (Num.bit b))⟩

/-- Without the heap an array has no elements, and nothing else has a number by them. -/
theorem toNumber_empty (v : Value) : (heap.elements? v = none → v.toNumber ∅ = v.toNumber heap) ∧
    (heap.elements? v ≠ none → v.toNumber ∅ = .ok (.float .nan)) := by
  constructor
  · intro hnone
    cases v with
    | object address =>
      have hempty : Heap.elements? ∅ (object address) = none := rfl
      rw [toNumber, toNumber, toText_of_elements?_eq_none hnone, toText_of_elements?_eq_none hempty]
    | _ => rfl
  · intro helements
    cases v with
    | object address => rfl
    | _ => exact absurd rfl helements

theorem toNumber_of_elements? {elements : List Value} {t : Text} (h : heap.elements? v = some elements)
    (ht : v.toText heap = .ok t) : v.toNumber heap = .ok (.ofText t) := by
  obtain ⟨address, rfl⟩ := Heap.exists_address_of_elements? h
  rw [toNumber, ht]
  rfl

/-- The number of a value with and without the heap is the same one to every number that an array does not spell. -/
theorem exists_toNumber_empty (h : heap.IsWellNested) (v : Value) (x : Num) : ∃ y z, v.toNumber heap = .ok y ∧
    v.toNumber ∅ = .ok z ∧ (x.equal z = x.equal y ↔ ¬ heap.Spells v x) := by
  obtain ⟨y, hy⟩ := (h.from_value v).exists_toNumber
  cases helements : heap.elements? v with
  | none =>
    refine ⟨y, y, hy, ((toNumber_empty v).1 helements).trans hy, iff_of_true rfl ?_⟩
    rintro ⟨elements, t, hsome, -⟩
    cases helements.symm.trans hsome
  | some elements =>
    have hempty : v.toNumber ∅ = .ok (.float .nan) := (toNumber_empty v).2 (helements ▸ Option.some_ne_none elements)
    obtain ⟨t, ht⟩ := h.exists_toText v
    refine ⟨.ofText t, .float .nan, toNumber_of_elements? helements ht, hempty, ?_⟩
    have hspells : heap.Spells v x ↔ x.equal (.ofText t) = true := by
      refine ⟨?_, fun hequal ↦ ⟨elements, t, helements, ht, hequal⟩⟩
      rintro ⟨elements', t', -, ht', hequal⟩
      cases ht.symm.trans ht'
      exact hequal
    rw [Num.equal_nan, hspells, Bool.not_eq_true, eq_comm]

end Value

/-- Where no array contains itself, every value but undefined, null and booleans can be compared with a boolean and with
the number that this is, on either side. The answers are the same exactly if the value is no array that spells the number. -/
theorem boolean_equality {heap : Heap} (h : heap.IsWellNested) (b : Bool) {v : Value} (hnullish : v.isNullish = false)
    (hboolean : v.isBoolean = false) : ∃ x, (Value.boolean b).toNumber heap = .ok x ∧
      (∃ l l', Value.looseEquals heap (.boolean b) v = .ok l ∧ Value.looseEquals heap (.number x) v = .ok l' ∧
        (l = l' ↔ ¬ heap.Spells v x)) ∧
      ∃ r r', Value.looseEquals heap v (.boolean b) = .ok r ∧ Value.looseEquals heap v (.number x) = .ok r' ∧
        (r = r' ↔ ¬ heap.Spells v x) := by
  obtain ⟨y, z, hy, hz, hagree⟩ := v.exists_toNumber_empty h (.bit b)
  obtain ⟨hleft, hright⟩ := Value.looseEquals_boolean heap b hnullish hboolean
  obtain ⟨hleft', hright'⟩ := Value.looseEquals_number heap (.bit b) hnullish hboolean
  rw [hz] at hleft hright
  rw [hy] at hleft' hright'
  exact ⟨.bit b, rfl, ⟨_, _, hleft, hleft', hagree⟩, ⟨_, _, hright, hright', hagree⟩⟩

/-- A heap of an array in an array, the inner one of the number 1. -/
def Heap.nestedOne : Heap :=
  Dict.ofList [(.array 0, { isArray := true, elements := [.object (.array 1)] }),
    (.array 1, { isArray := true, elements := [.ofInt 1] })]

theorem Heap.isWellNested_nestedOne : nestedOne.IsWellNested := by
  apply isWellNested_of_rank fun address ↦ if address = .array 0 then 1 else 0
  rintro outer inner ⟨elements, helements, hmem⟩
  have hhome : outer = .array 0 ∨ outer = .array 1 := by
    have hmem : outer ∈ [Address.array 0, .array 1] := mem_arrays_of_elements? helements
    simpa using hmem
  rcases hhome with rfl | rfl
  · cases helements
    cases List.mem_singleton.mp hmem
    decide
  · cases helements
    cases List.mem_singleton.mp hmem

theorem boolean_equality_nested : Heap.nestedOne.IsWellNested ∧ ¬ Heap.nestedOne.Spells (.object (.array 0)) (.bit false) ∧
    ∃ l, Value.looseEquals .nestedOne (.boolean false) (.object (.array 0)) = .ok l ∧
      Value.looseEquals .nestedOne (.number (.bit false)) (.object (.array 0)) = .ok l := by
  obtain ⟨x, hx, ⟨l, l', hl, hl', hagree⟩, -⟩ :=
    boolean_equality Heap.isWellNested_nestedOne false (v := .object (.array 0)) rfl rfl
  cases hx
  have hspells : ¬ Heap.nestedOne.Spells (.object (.array 0)) (.bit false) := by
    rintro ⟨elements, t, -, ht, hequal⟩
    cases ht
    have hzero : (Num.int 0).equal (.int 1) = true := hequal
    rw [Num.equal_int] at hzero
    cases hzero
  obtain rfl := hagree.mpr hspells
  exact ⟨Heap.isWellNested_nestedOne, hspells, l, hl, hl'⟩

/-- The array spells the number 1, but it is not equal to true. -/
theorem boolean_equality_fails : Heap.nestedOne.IsWellNested ∧
    Value.looseEquals .nestedOne (.boolean true) (.object (.array 0)) = .ok false ∧
    Value.looseEquals .nestedOne (.number (.bit true)) (.object (.array 0)) = .ok true := by
  refine ⟨Heap.isWellNested_nestedOne, ?_, ?_⟩
  · rw [(Value.looseEquals_boolean _ _ rfl rfl).1]
    exact congrArg Except.ok (Num.equal_nan _)
  · rw [(Value.looseEquals_number _ _ rfl rfl).1]
    exact congrArg Except.ok (Num.equal_int 1 1)

end Stepwise
