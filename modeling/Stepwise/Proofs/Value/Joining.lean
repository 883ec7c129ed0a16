import Stepwise.Proofs.Value.Text
/-!
What a value is written out as, apart from how deep arrays are entered: arrays by joining what their elements are written out
as. Entering them to some depth either gives this text or stops too early, and there is such a text exactly if no array that
is reached contains itself.
-/

namespace Stepwise

namespace Heap

variable {heap : Heap} {v : Value}

/-- What contains only values from which no array that contains itself is reached is such a value itself. -/
theorem isWellNestedFrom_of_elements
    (h : ∀ elements, heap.elements? v = some elements → ∀ e ∈ elements, heap.IsWellNestedFrom e) : heap.IsWellNestedFrom v := by
  rintro outer inner rfl hreaches hcycle
  have hinside {b : Address} (hnests : heap.Nests outer b) : heap.IsWellNestedFrom (.object b) := by
    obtain ⟨elements, helements, hb⟩ := hnests
    exact h elements helements _ hb
  rcases hreaches.cases_head with rfl | ⟨b, hnests, hreaches⟩
  · -- a circle through the array itself goes through one of its elements as well
    obtain ⟨b, hnests, hback⟩ := Relation.TransGen.head'_iff.mp hcycle
    exact hinside hnests b outer rfl hback hcycle
  · exact hinside hnests b inner rfl hreaches hcycle

theorem isWellNestedFrom_of_elements?_eq_none (h : heap.elements? v = none) : heap.IsWellNestedFrom v := by
  refine isWellNestedFrom_of_elements fun elements helements ↦ ?_
  rw [h] at helements
  cases helements

end Heap

namespace Value

variable {heap : Heap} {v : Value} {t t' : Text} {text text' : Value → Text} {elements : List Value} {depth : Nat}

/-- The texts of elements with commas between them; undefined and null stand for empty ones. -/
def joined (text : Value → Text) (elements : List Value) : Text :=
  Text.join "," (elements.map fun e ↦ if e.isNullish then [] else text e)

theorem joined_congr (h : ∀ e ∈ elements, e.isNullish = false → text e = text' e) :
    joined text elements = joined text' elements := by
  refine congrArg (Text.join ",") (List.map_congr_left fun e he ↦ ?_)
  split
  next => rfl
  next hnullish => exact h e he (Bool.eq_false_iff.mpr hnullish)

/-- A value has been written out, and before it everything that is joined in it. -/
inductive WritesOut (heap : Heap) : Value → Text → Prop
  | plain {v : Value} (h : heap.elements? v = none) : WritesOut heap v v.plainText
  | array {v : Value} {elements : List Value} {text : Value → Text} (h : heap.elements? v = some elements)
    (helements : ∀ e ∈ elements, e.isNullish = false → WritesOut heap e (text e)) : WritesOut heap v (joined text elements)

theorem WritesOut.unique (h : WritesOut heap v t) (h' : WritesOut heap v t') : t = t' := by
  induction h generalizing t' with
  | plain h =>
    cases h' with
    | plain => rfl
    | array h' =>
      rw [h] at h'
      cases h'
  | array h _ ih =>
    cases h' with
    | plain h' =>
      rw [h] at h'
      cases h'
    | array h' helements =>
      cases h.symm.trans h'
      exact joined_congr fun e he hnullish ↦ ih e he hnullish (helements e he hnullish)

theorem isWellNestedFrom_of_isNullish (h : v.isNullish = true) : heap.IsWellNestedFrom v := by
  rintro outer inner rfl
  cases h

theorem WritesOut.isWellNestedFrom (h : WritesOut heap v t) : heap.IsWellNestedFrom v := by
  induction h with
  | plain h => exact Heap.isWellNestedFrom_of_elements?_eq_none h
  | array h _ ih =>
    refine Heap.isWellNestedFrom_of_elements fun elements helements e he ↦ ?_
    cases h.symm.trans helements
    cases hnullish : e.isNullish with
    | true => exact isWellNestedFrom_of_isNullish hnullish
    | false => exact ih e he hnullish

/-- An array is written within a depth if its elements are within one less. -/
theorem toTextWithin_of_elements (h : heap.elements? v = some elements)
    (helements : ∀ e ∈ elements, e.isNullish = false → e.toTextWithin heap depth = some (text e)) :
    v.toTextWithin heap (depth + 1) = some (joined text elements) := by
  have hparts : ∀ e ∈ elements, (if e.isNullish then some [] else e.toTextWithin heap depth) =
      some (if e.isNullish then [] else text e) := by
    intro e he
    cases hnullish : e.isNullish with
    | true => rfl
    | false => exact helements e he hnullish
  rw [toTextWithin, h]
  dsimp only
  rw [mapM_eq_some_map hparts]
  rfl

/-- Only then is it written, by joining what its elements are written as. -/
theorem exists_of_toTextWithin_eq_some (h : heap.elements? v = some elements) (ht : v.toTextWithin heap (depth + 1) = some t) :
    ∃ text : Value → Text, (∀ e ∈ elements, e.isNullish = false → e.toTextWithin heap depth = some (text e)) ∧
      t = joined text elements := by
  have helements : ∀ e ∈ elements, e.isNullish = false →
      e.toTextWithin heap depth = some ((e.toTextWithin heap depth).getD []) := by
    intro e he hnullish
    cases hnone : e.toTextWithin heap depth with
    | some t => rfl
    | none =>
      have hpart : (if e.isNullish then some [] else e.toTextWithin heap depth) = none := by
        rw [hnullish, hnone]
        rfl
      rw [toTextWithin, h] at ht
      dsimp only at ht
      rw [mapM_eq_none_of_mem he hpart] at ht
      cases ht
  refine ⟨_, helements, ?_⟩
  rw [toTextWithin_of_elements h helements] at ht
  exact (Option.some.inj ht).symm

theorem writesOut_of_toTextWithin (h : v.toTextWithin heap depth = some t) : WritesOut heap v t := by
  induction depth generalizing v t with
  | zero => cases h
  | succ depth ih =>
    cases helements : heap.elements? v with
    | none =>
      rw [toTextWithin_of_elements?_eq_none helements] at h
      cases h
      exact .plain helements
    | some elements =>
      obtain ⟨text, htext, rfl⟩ := exists_of_toTextWithin_eq_some helements h
      exact .array helements fun e he hnullish ↦ ih (htext e he hnullish)

/-- What a value is written out as is found within every depth that is greater than the number of arrays. -/
theorem WritesOut.toTextWithin_eq (h : WritesOut heap v t) (hdepth : heap.arrayCount < depth) :
    v.toTextWithin heap depth = some t := by
  obtain ⟨t', ht'⟩ := exists_toTextWithin h.isWellNestedFrom hdepth
  rw [ht', h.unique (writesOut_of_toTextWithin ht')]

theorem toText_eq_ok_iff : v.toText heap = .ok t ↔ WritesOut heap v t := by
  constructor
  · intro h
    unfold toText at h
    split at h
    next t' ht' =>
      cases h
      exact writesOut_of_toTextWithin ht'
    next => cases h
  · intro h
    rw [toText, toText?, h.toTextWithin_eq (Nat.lt_succ_self _)]

end Value

end Stepwise
