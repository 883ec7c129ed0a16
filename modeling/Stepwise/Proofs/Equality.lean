import Stepwise.Value.Operator
import Stepwise.Proofs.Value.Primitive
import Stepwise.Proofs.Number.Exact
import Stepwise.Proofs.BooleanEquality
/-!
The laws of equality. Without conversion values are equal that have the same essence, and only a nan has none; so this is an
equivalence but for nan. With conversion, values of different types are compared after at most two conversions.
-/

namespace Stepwise

namespace Value

/-- What equality without conversion sees of a value. -/
inductive Essence where
  | undefined
  | null
  | boolean (b : Bool)
  | number (v : Line)
  | string (t : Text)
  | function (identity : Nat)
  | object (address : Address)
  | promise (address : Address)

/-- A nan has nothing that equality could see. -/
def essence? : Value → Option Essence
  | undefined => some .undefined
  | null => some .null
  | boolean b => some (.boolean b)
  | number n => n.value?.map .number
  | string t => some (.string t)
  | function f => some (.function f.identity)
  | object a => some (.object a)
  | promise a => some (.promise a)

variable {heap : Heap} {a b c : Value}

/-- Without conversion values are equal that have the same essence. -/
theorem strictEquals_iff : strictEquals a b = true ↔ ∃ e, a.essence? = some e ∧ b.essence? = some e := by
  cases a <;> cases b <;> simp [strictEquals, essence?, Num.equal_iff_value?]
  -- what is left are values of one kind
  all_goals exact eq_comm

theorem essence?_eq_none_iff : a.essence? = none ↔ a = .number (.float .nan) := by
  cases a with
  | number n =>
    rw [essence?, Option.map_eq_none_iff, Num.value?_eq_none_iff]
    exact ⟨congrArg number, number.inj⟩
  | _ => exact iff_of_false (Option.some_ne_none _) (by rintro ⟨⟩)

theorem strictEquals_comm (a b : Value) : strictEquals a b = strictEquals b a := by
  rw [Bool.eq_iff_iff, strictEquals_iff, strictEquals_iff]
  simp only [And.comm]

theorem strictEquals_trans (hab : strictEquals a b = true) (hbc : strictEquals b c = true) : strictEquals a c = true := by
  obtain ⟨e, ha, hb⟩ := strictEquals_iff.mp hab
  obtain ⟨e', hb', hc⟩ := strictEquals_iff.mp hbc
  cases hb.symm.trans hb'
  exact strictEquals_iff.mpr ⟨e, ha, hc⟩

theorem strictEquals_self_iff : strictEquals a a = true ↔ a ≠ .number (.float .nan) := by
  rw [strictEquals_iff, ← not_iff_not, not_not, ← essence?_eq_none_iff, Option.eq_none_iff_forall_ne_some]
  simp only [and_self, not_exists, ne_eq]

theorem typeOf_eq_of_strictEquals (h : strictEquals a b = true) : a.typeOf = b.typeOf ∧ a.isNullish = b.isNullish := by
  cases a <;> cases b <;> first | exact ⟨rfl, rfl⟩ | cases h

theorem looseEquals_of_strictEquals (heap : Heap) (h : strictEquals a b = true) : looseEquals heap a b = .ok true := by
  obtain ⟨htype, hnullish⟩ := typeOf_eq_of_strictEquals h
  rw [looseEquals, ← hnullish, if_pos htype, h, Bool.or_self, Bool.and_self]
  split
  next ha => rw [ha]
  next => rfl

/-- Values without parts are equal as they are, except that a number is compared with the number of a text. -/
def primitiveEquals : Value → Value → Bool
  | number x, string t => x.equal (.ofText t)
  | string t, number y => (Num.ofText t).equal y
  | a, b => strictEquals a b

/-- Equality with conversion, one conversion after the other: values of different types are compared again once a side has
become a text, or both have become numbers because one is a boolean. There is no answer where the depth is used up. -/
def equalsWithin (heap : Heap) : Nat → Value → Value → Except Fault (Option Bool)
  | 0, _, _ => .ok none
  | depth + 1, a, b =>
    if a.isNullish || b.isNullish then .ok (some (a.isNullish && b.isNullish))
    else if a.typeOf = b.typeOf then .ok (some (strictEquals a b))
    else if a.isBoolean || b.isBoolean then do
      equalsWithin heap depth (number (← a.toNumber ∅)) (number (← b.toNumber ∅))
    else if a.isReference then do equalsWithin heap depth (string (← a.toText heap)) b
    else if b.isReference then do equalsWithin heap depth a (string (← b.toText heap))
    else .ok (some (primitiveEquals a b))

/-- How often a value may have to be converted before it is compared. -/
def conversions : Value → Nat
  | boolean _ | function _ | object _ | promise _ => 1
  | _ => 0

theorem conversions_of_isBoolean (h : a.isBoolean = true) : a.conversions = 1 := by
  cases a with
  | boolean => rfl
  | _ => cases h

theorem conversions_of_isReference (h : a.isReference = true) : a.conversions = 1 := by
  cases a with
  | function | object | promise => rfl
  | _ => cases h

theorem conversions_le (a : Value) : a.conversions ≤ 1 := by
  cases a <;> simp [conversions]

theorem convertedEquals_of_not_isBoolean (h : (a.isBoolean || b.isBoolean) = false) :
    convertedEquals heap a b = (do return primitiveEquals (← a.toPrimitive heap) (← b.toPrimitive heap)) := by
  rw [convertedEquals, h, if_neg Bool.false_ne_true]
  refine bind_congr fun p ↦ bind_congr fun q ↦ ?_
  cases p <;> cases q <;> rfl

/-- Where no boolean asks for numbers and no two references are compared by address, both sides become primitive. -/
theorem looseEquals_eq (hnullish : (a.isNullish || b.isNullish) = false) (hboolean : (a.isBoolean || b.isBoolean) = false)
    (h : a.typeOf ≠ b.typeOf ∨ a.isReference = false) :
    looseEquals heap a b = (do return primitiveEquals (← a.toPrimitive heap) (← b.toPrimitive heap)) := by
  by_cases htype : a.typeOf = b.typeOf
  · have hleft : a.isReference = false := h.resolve_left (not_not.mpr htype)
    rw [looseEquals, hnullish, if_neg Bool.false_ne_true, if_pos htype]
    cases a with
    | number x =>
      cases b with
      | number y => rfl
      | _ => cases htype
    | string t =>
      cases b with
      | string u => rfl
      | _ => cases htype
    | undefined | null => cases hnullish
    | boolean => cases hboolean
    | function | object | promise => cases hleft
  · rw [looseEquals, hnullish, if_neg Bool.false_ne_true, if_neg htype, convertedEquals_of_not_isBoolean hboolean]

/-- One conversion after the other gives the answer of equality with conversion, or the fault of a text. -/
theorem equalsWithin_eq (heap : Heap) {depth : Nat} (h : a.conversions + b.conversions < depth) :
    equalsWithin heap depth a b = some <$> looseEquals heap a b := by
  induction depth generalizing a b with
  | zero => exact absurd h (Nat.not_lt_zero _)
  | succ depth ih =>
    rw [equalsWithin]
    by_cases hnullish : (a.isNullish || b.isNullish) = true
    · rw [if_pos hnullish, looseEquals, if_pos hnullish]
      rfl
    by_cases htype : a.typeOf = b.typeOf
    · rw [if_neg hnullish, if_pos htype, looseEquals, if_neg hnullish, if_pos htype]
      rfl
    rw [if_neg hnullish, if_neg htype]
    by_cases hboolean : (a.isBoolean || b.isBoolean) = true
    · have hless (x y : Num) : (number x).conversions + (number y).conversions < depth := by
        change 0 < depth
        rcases Bool.or_eq_true_iff.mp hboolean with ha | hb
        · have := conversions_of_isBoolean ha
          omega
        · have := conversions_of_isBoolean hb
          omega
      rw [if_pos hboolean, looseEquals, if_neg hnullish, if_neg htype, convertedEquals, if_pos hboolean, map_bind]
      refine bind_congr fun x ↦ ?_
      rw [map_bind]
      exact bind_congr fun y ↦ ih (hless x y)
    rw [if_neg hboolean]
    rw [Bool.not_eq_true] at hnullish hboolean
    rw [looseEquals_eq hnullish hboolean (.inl htype)]
    obtain ⟨ha, hb⟩ := Bool.or_eq_false_iff.mp hnullish
    obtain ⟨ha', hb'⟩ := Bool.or_eq_false_iff.mp hboolean
    cases hleft : a.isReference with
    | true =>
      have hless (t : Text) : (string t).conversions + b.conversions < depth := by
        have := conversions_of_isReference hleft
        change 0 + _ < depth
        omega
      rw [if_pos rfl, toPrimitive_of_isReference hleft, bind_map_left, map_bind]
      refine bind_congr fun t ↦ ?_
      rw [ih (hless t), looseEquals_eq (a := string t) hb hb' (.inr rfl)]
      rfl
    | false =>
      rw [if_neg Bool.false_ne_true, toPrimitive_of_not_isReference hleft, pure_bind]
      cases hright : b.isReference with
      | true =>
        have hless (u : Text) : a.conversions + (string u).conversions < depth := by
          have := conversions_of_isReference hright
          change _ + 0 < depth
          omega
        rw [if_pos rfl, toPrimitive_of_isReference hright, bind_map_left, map_bind]
        refine bind_congr fun u ↦ ?_
        rw [ih (hless u), looseEquals_eq (by rw [ha]; rfl) (by rw [ha']; rfl) (.inr hleft),
          toPrimitive_of_not_isReference hleft, pure_bind]
        rfl
      | false =>
        rw [if_neg Bool.false_ne_true, toPrimitive_of_not_isReference hright]
        rfl

theorem primitiveEquals_comm (a b : Value) : primitiveEquals a b = primitiveEquals b a := by
  cases a with
  | number x =>
    cases b with
    | string t => exact x.equal_comm (.ofText t)
    | _ =>
      simp only [primitiveEquals]
      exact strictEquals_comm _ _
  | string t =>
    cases b with
    | number y => exact (Num.ofText t).equal_comm y
    | _ =>
      simp only [primitiveEquals]
      exact strictEquals_comm _ _
  | _ =>
    simp only [primitiveEquals]
    exact strictEquals_comm _ b

theorem exists_convertedEquals (ha : heap.IsWellNestedFrom a) (hb : heap.IsWellNestedFrom b) :
    ∃ r, convertedEquals heap a b = .ok r ∧ convertedEquals heap b a = .ok r := by
  by_cases hboolean : (a.isBoolean || b.isBoolean) = true
  · obtain ⟨x, hx⟩ := (Heap.isWellNested_empty.from_value a).exists_toNumber
    obtain ⟨y, hy⟩ := (Heap.isWellNested_empty.from_value b).exists_toNumber
    rw [convertedEquals, convertedEquals, Bool.or_comm b.isBoolean, if_pos hboolean, if_pos hboolean, hx, hy]
    exact ⟨x.equal y, rfl, congrArg Except.ok (y.equal_comm x)⟩
  · rw [Bool.not_eq_true] at hboolean
    obtain ⟨p, hp, -⟩ := exists_toPrimitive ha
    obtain ⟨q, hq, -⟩ := exists_toPrimitive hb
    rw [convertedEquals_of_not_isBoolean hboolean, convertedEquals_of_not_isBoolean (Bool.or_comm _ _ ▸ hboolean), hp, hq]
    exact ⟨primitiveEquals p q, rfl, congrArg Except.ok (primitiveEquals_comm q p)⟩

/-- Where no array contains itself there is always an answer, the same one in both orders. -/
theorem exists_looseEquals (ha : heap.IsWellNestedFrom a) (hb : heap.IsWellNestedFrom b) :
    ∃ r, looseEquals heap a b = .ok r ∧ looseEquals heap b a = .ok r := by
  rw [looseEquals, looseEquals, Bool.or_comm b.isNullish, Bool.and_comm b.isNullish]
  by_cases hnullish : (a.isNullish || b.isNullish) = true
  · rw [if_pos hnullish, if_pos hnullish]
    exact ⟨_, rfl, rfl⟩
  by_cases htype : a.typeOf = b.typeOf
  · rw [if_neg hnullish, if_neg hnullish, if_pos htype, if_pos htype.symm]
    exact ⟨_, rfl, congrArg Except.ok (strictEquals_comm b a)⟩
  · rw [if_neg hnullish, if_neg hnullish, if_neg htype, if_neg (Ne.symm htype)]
    exact exists_convertedEquals ha hb

/-- Equality without conversion is symmetric and transitive, and everything but a nan equals itself. Where no array contains
itself, equality with conversion comes to an answer after at most two conversions, the same one in both orders, and it holds
wherever the other one does. Numbers are equal exactly if their exact values are. -/
theorem equality_laws (h : heap.IsWellNested) (a b c : Value) :
    strictEquals a b = strictEquals b a ∧
    (strictEquals a b = true → strictEquals b c = true → strictEquals a c = true) ∧
    (strictEquals a a = true ↔ a ≠ .number (.float .nan)) ∧
    (∃ r, looseEquals heap a b = .ok r ∧ looseEquals heap b a = .ok r ∧
      (∀ depth, equalsWithin heap (depth + 3) a b = .ok (some r)) ∧ (strictEquals a b = true → r = true)) ∧
    ∀ x y, a = .number x → b = .number y →
      (strictEquals a b = true ↔ ∃ v, x.value? = some v ∧ y.value? = some v) ∧ looseEquals heap a b = .ok (strictEquals a b) := by
  obtain ⟨r, hr, hr'⟩ := exists_looseEquals (h.from_value a) (h.from_value b)
  refine ⟨strictEquals_comm a b, strictEquals_trans, strictEquals_self_iff, ⟨r, hr, hr', fun depth ↦ ?_, fun hstrict ↦ ?_⟩, ?_⟩
  · have ha := a.conversions_le
    have hb := b.conversions_le
    rw [equalsWithin_eq heap (by omega), hr]
    rfl
  · exact Except.ok.inj (hr.symm.trans (looseEquals_of_strictEquals heap hstrict))
  · rintro x y rfl rfl
    exact ⟨Num.equal_iff_value?, rfl⟩

end Value

/-- The text of an array in an array of the number 1 is the numeral of it. -/
theorem equality_laws_nested : Heap.nestedOne.IsWellNested ∧
    Value.looseEquals .nestedOne (.object (.array 0)) (.string "1") = .ok true ∧
    Value.looseEquals .nestedOne (.string "1") (.object (.array 0)) = .ok true ∧
    Value.equalsWithin .nestedOne 3 (.object (.array 0)) (.string "1") = .ok (some true) := by
  obtain ⟨-, -, -, ⟨r, hr, hr', hdepth, -⟩, -⟩ :=
    Value.equality_laws Heap.isWellNested_nestedOne (.object (.array 0)) (.string "1") .null
  obtain rfl : r = true := Except.ok.inj hr.symm
  exact ⟨Heap.isWellNested_nestedOne, hr, hr', hdepth 0⟩

end Stepwise
