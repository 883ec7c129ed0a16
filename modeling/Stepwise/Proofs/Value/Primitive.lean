import Stepwise.Proofs.Value.Text
/-!
Conversions of values from which no array that contains itself can be reached: each of them gives a text, a number and a
value without parts.
-/

namespace Stepwise

namespace Heap

variable {heap : Heap} {v : Value}

theorem isWellNested_empty : (∅ : Heap).IsWellNested := by
  apply isWellNested_of_rank fun _ ↦ 0
  rintro outer inner ⟨elements, helements, -⟩
  cases helements

theorem IsWellNestedFrom.exists_toNumber (h : heap.IsWellNestedFrom v) : ∃ x, v.toNumber heap = .ok x := by
  cases v with
  | object address =>
    obtain ⟨t, ht⟩ := Value.exists_toText h
    exact ⟨.ofText t, by rw [Value.toNumber, ht]; rfl⟩
  | _ => exact ⟨_, rfl⟩

end Heap

namespace Value

variable {heap : Heap} {v : Value}

/-- A function, or what is stored behind an address. -/
def isReference : Value → Bool
  | function _ | object _ | promise _ => true
  | _ => false

theorem toPrimitive_of_isReference (h : v.isReference = true) : v.toPrimitive heap = string <$> v.toText heap := by
  cases v with
  | function | object | promise => rfl
  | _ => cases h

theorem toPrimitive_of_not_isReference (h : v.isReference = false) : v.toPrimitive heap = pure v := by
  cases v with
  | function | object | promise => cases h
  | _ => rfl

theorem exists_toPrimitive (h : heap.IsWellNestedFrom v) :
    ∃ p, v.toPrimitive heap = .ok p ∧ ((v.isReference = true ∧ ∃ t, p = string t) ∨ (v.isReference = false ∧ p = v)) := by
  cases hreference : v.isReference with
  | true =>
    obtain ⟨t, ht⟩ := exists_toText h
    refine ⟨string t, ?_, .inl ⟨rfl, t, rfl⟩⟩
    rw [toPrimitive_of_isReference hreference, ht]
    rfl
  | false => exact ⟨v, toPrimitive_of_not_isReference hreference, .inr ⟨rfl, rfl⟩⟩

end Value

end Stepwise
