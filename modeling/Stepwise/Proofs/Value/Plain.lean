import Stepwise.Value.Operator
import Stepwise.Proofs.Dict
/-!
Plain values, which lead nowhere else. Operators give nothing but plain values, and a property is
plain or stands in a cell of the heap.
-/

namespace Stepwise

/-- Values without an address and without a closure. -/
def Value.isPlain : Value → Bool
  | .function _ | .object _ | .promise _ => false
  | _ => true

theorem Except.exists_of_map_eq_ok {ε α β : Type} {x : Except ε α} {f : α → β} {b : β}
    (h : (do return f (← x)) = Except.ok b) : ∃ a, b = f a := by
  cases x with
  | error e => cases h
  | ok a => exact ⟨a, (Except.ok.inj h).symm⟩

theorem Except.exists_of_bind_eq_ok {ε α β : Type} {x : Except ε α} {f : α → Except ε β} {b : β}
    (h : x >>= f = Except.ok b) : ∃ a, x = .ok a ∧ f a = .ok b := by
  cases x with
  | error e => cases h
  | ok a => exact ⟨a, rfl, h⟩

namespace BinaryOp

theorem isPlain_numeric {f : Num → Num → Except Fault Num} {heap : Heap} {a b v : Value}
    (h : numeric f heap a b = .ok v) : v.isPlain = true := by
  obtain ⟨x, -, h⟩ := Except.exists_of_bind_eq_ok h
  obtain ⟨y, -, h⟩ := Except.exists_of_bind_eq_ok h
  obtain ⟨z, rfl⟩ := Except.exists_of_map_eq_ok h
  rfl

theorem isPlain_comparison {test : Ordering → Bool} {heap : Heap} {a b v : Value}
    (h : comparison test heap a b = .ok v) : v.isPlain = true := by
  obtain ⟨o, rfl⟩ := Except.exists_of_map_eq_ok h
  rfl

theorem isPlain_add {heap : Heap} {a b v : Value} (h : Value.add heap a b = .ok v) :
    v.isPlain = true := by
  obtain ⟨a, -, h⟩ := Except.exists_of_bind_eq_ok h
  obtain ⟨b, -, h⟩ := Except.exists_of_bind_eq_ok h
  split at h
  · cases h; rfl
  · cases h; rfl
  · exact isPlain_numeric h

theorem isPlain_apply {op : BinaryOp} {heap : Heap} {a b v : Value} (h : op.apply heap a b = .ok v) :
    v.isPlain = true := by
  cases op with
  | add => exact isPlain_add h
  | sub | mul | div | rem => exact isPlain_numeric h
  | looseEq | looseNe => obtain ⟨c, rfl⟩ := Except.exists_of_map_eq_ok h; rfl
  | strictEq | strictNe => cases h; rfl
  | lt | le | gt | ge => exact isPlain_comparison h

end BinaryOp

theorem UnaryOp.isPlain_apply {op : UnaryOp} {heap : Heap} {a v : Value}
    (h : op.apply heap a = .ok v) : v.isPlain = true := by
  cases op with
  | not | minus | plus => obtain ⟨c, rfl⟩ := Except.exists_of_map_eq_ok h; rfl
  | typeof | void => cases h; rfl

namespace Heap

/-- The values in the cells of a heap. -/
def Holds (heap : Heap) (v : Value) : Prop :=
  ∃ address cell, heap.get? address = some cell ∧ (v ∈ cell.elements ∨ v ∈ cell.fields.values)

theorem holds_of_elements? {heap : Heap} {v e : Value} {es : List Value}
    (h : heap.elements? v = some es) (he : e ∈ es) : heap.Holds e := by
  unfold elements? at h
  split at h
  next address =>
    obtain ⟨cell, hcell, h⟩ := Option.bind_eq_some_iff.mp h
    split at h
    · cases h; exact ⟨address, cell, hcell, .inl he⟩
    · cases h
  next => cases h

theorem isPlain_or_mem_of_read {cell : Cell} {key : Text} {v : Value} (h : cell.read key = .ok v) :
    v.isPlain = true ∨ v ∈ cell.elements ∨ v ∈ cell.fields.values := by
  have hfield : ((cell.fields.get? key).getD .undefined).isPlain = true ∨
      (cell.fields.get? key).getD .undefined ∈ cell.fields.values := by
    cases hk : cell.fields.get? key with
    | none => exact .inl rfl
    | some w => exact .inr (Dict.mem_values_of_get? hk)
  have helement (index : Nat) : (cell.elements.getD index .undefined).isPlain = true ∨
      cell.elements.getD index .undefined ∈ cell.elements := by
    rw [List.getD_eq_getElem?_getD]
    cases hi : cell.elements[index]? with
    | none => exact .inl rfl
    | some w => exact .inr (List.mem_of_getElem? hi)
  unfold Cell.read at h
  simp only at h
  split at h
  · split at h
    · cases h; exact .inl rfl
    · obtain ⟨index?, -, h⟩ := Except.exists_of_bind_eq_ok h
      cases index? with
      | some index => cases h; exact (helement index).imp_right .inl
      | none => cases h; exact hfield.imp_right .inr
  · cases h; exact hfield.imp_right .inr

theorem isPlain_or_holds_of_getProperty {heap : Heap} {receiver v : Value} {key : Text}
    (h : heap.getProperty receiver key = .ok v) : v.isPlain = true ∨ heap.Holds v := by
  unfold getProperty at h
  split at h
  · cases h
  · cases h
  next t =>
    unfold Text.read at h
    split at h
    · cases h; exact .inl rfl
    · obtain ⟨index?, -, h⟩ := Except.exists_of_bind_eq_ok h
      cases index? with
      | none => cases h; exact .inl rfl
      | some index =>
        cases h
        split <;> exact .inl rfl
  next address =>
    split at h
    next cell hcell => exact (isPlain_or_mem_of_read h).imp_right fun hv ↦ ⟨address, cell, hcell, hv⟩
    next => cases h; exact .inl rfl
  next => cases h; exact .inl rfl

end Heap

end Stepwise
