import Stepwise.Value.Conversion
import Stepwise.Proofs.Number.Numeral
import Stepwise.Proofs.Value.Raising
/-!
Keys of elements. The text of a number is the key of the element with this index. It is the only one among the keys that
are not misspelled numbers: digits with a zero in front, of other scripts, or such as form no numeral. Without them two keys
never stand for one element, and properties of everything but undefined and null can be read and written.
-/

namespace Stepwise

/-- A text of digits that no number is written as. -/
def Text.Misspells (key : Text) : Prop := key.isDigits = true ∧ ∀ n, key ≠ ofNat n

section Keys

variable {key : Text} {n : Nat}

theorem Value.toKey_ofInt (n : Nat) : (ofInt n).toKey = Text.ofNat n := by
  have hsign : ¬ ((n : Int) < 0) := by omega
  change Text.ofInt n = _
  rw [Text.ofInt, if_neg hsign, Int.natAbs_natCast]

theorem arrayIndex?_of_isDigits (h : key.isDigits = true) :
    arrayIndex? key = key.decimal?.elim (.error (.malformedIndex key)) fun n ↦ .ok (some n) := by
  rw [arrayIndex?, if_pos h, Numeral.integer?_of_isDigits h]
  cases key.decimal? <;> rfl

theorem arrayIndex?_of_not_isDigits (h : key.isDigits = false) : arrayIndex? key = .ok none := by
  rw [arrayIndex?, h, if_neg Bool.false_ne_true]

theorem arrayIndex?_toKey (n : Nat) : arrayIndex? (Value.ofInt n).toKey = .ok (some n) := by
  rw [Value.toKey_ofInt, arrayIndex?_of_isDigits (Text.isDigits_ofNat n), Text.decimal?_ofNat, Option.elim_some]

/-- A key that is not misspelled is the text of a number, or it has another character than digits. -/
theorem Text.exists_of_not_misspells (h : ¬ key.Misspells) :
    (∃ n : Nat, key = (Value.ofInt n).toKey) ∨ key.isDigits = false := by
  by_cases hdigits : key.isDigits = true
  · have hwritten := not_forall_not.mp fun hnone ↦ h ⟨hdigits, hnone⟩
    obtain ⟨n, rfl⟩ := hwritten
    exact .inl ⟨n, (Value.toKey_ofInt n).symm⟩
  · exact .inr (Bool.eq_false_iff.mpr hdigits)

theorem exists_arrayIndex?_of_not_misspells (h : ¬ key.Misspells) :
    ∃ index?, arrayIndex? key = .ok index? ∧ ∀ n, index? = some n → key = (Value.ofInt n).toKey := by
  obtain ⟨n, rfl⟩ | hdigits := Text.exists_of_not_misspells h
  · refine ⟨some n, arrayIndex?_toKey n, ?_⟩
    rintro _ ⟨⟩
    rfl
  · exact ⟨none, arrayIndex?_of_not_isDigits hdigits, nofun⟩

/-- A misspelled number is refused, or taken for the number that is written in another way. -/
theorem arrayIndex?_of_misspells (h : key.Misspells) :
    arrayIndex? key = .error (.malformedIndex key) ∨
      ∃ n : Nat, arrayIndex? key = .ok (some n) ∧ key ≠ (Value.ofInt n).toKey := by
  rw [arrayIndex?_of_isDigits h.1]
  cases key.decimal? with
  | none => exact .inl rfl
  | some n =>
    refine .inr ⟨n, rfl, ?_⟩
    rw [Value.toKey_ofInt]
    exact h.2 n

theorem eq_toKey_of_arrayIndex? (h : ¬ key.Misspells) (hn : arrayIndex? key = .ok (some n)) :
    key = (Value.ofInt n).toKey := by
  obtain ⟨index?, hindex, hkey⟩ := exists_arrayIndex?_of_not_misspells h
  cases hindex.symm.trans hn
  exact hkey n rfl

theorem raises_arrayIndex? {P : Fault → Prop} (h : ¬ key.Misspells) : Raises P (arrayIndex? key) := by
  obtain ⟨index?, hindex, -⟩ := exists_arrayIndex?_of_not_misspells h
  rw [hindex]
  exact .ok index?

theorem getProperty_error_iff (h : ¬ key.Misspells) (heap : Heap) (receiver : Value) :
    (∃ f, heap.getProperty receiver key = .error f) ↔ receiver.isNullish = true := by
  constructor
  · rintro ⟨f, hf⟩
    exact heap.raises_getProperty (P := fun _ ↦ receiver.isNullish = true) (raises_arrayIndex? h) id f hf
  · intro hnullish
    cases receiver with
    | undefined | null => exact ⟨_, rfl⟩
    | _ => cases hnullish

theorem setProperty_error_iff (h : ¬ key.Misspells) (heap : Heap) (receiver v : Value) :
    (∃ f, heap.setProperty receiver key v = .error f) ↔ receiver.isNullish = true := by
  constructor
  · rintro ⟨f, hf⟩
    exact heap.raises_setProperty (P := fun _ ↦ receiver.isNullish = true) v (raises_arrayIndex? h) id f hf
  · intro hnullish
    cases receiver with
    | undefined | null => exact ⟨_, rfl⟩
    | _ => cases hnullish

end Keys

/-- The text of a number is the key of the element with this index. A key is not refused, and does not stand for the element
of a number that it is not the text of, exactly if it is not misspelled. Then no other such key stands for the same element,
and nothing but undefined and null refuses to be read or written under the key. -/
theorem element_keys_canonical (key : Text) :
    (∀ n : Nat, key = (Value.ofInt n).toKey → arrayIndex? key = .ok (some n)) ∧
    ((∃ index?, arrayIndex? key = .ok index? ∧ ∀ n, index? = some n → key = (Value.ofInt n).toKey) ↔ ¬ key.Misspells) ∧
    (¬ key.Misspells →
      (∀ (key' : Text) (n : Nat), ¬ key'.Misspells → arrayIndex? key = .ok (some n) → arrayIndex? key' = .ok (some n) →
        key = key') ∧
      ∀ (heap : Heap) (receiver v : Value),
        ((∃ f, heap.getProperty receiver key = .error f) ↔ receiver.isNullish = true) ∧
        ((∃ f, heap.setProperty receiver key v = .error f) ↔ receiver.isNullish = true)) := by
  refine ⟨?_, ⟨?_, exists_arrayIndex?_of_not_misspells⟩, fun h ↦ ⟨fun key' n h' hn hn' ↦ ?_, fun heap receiver v ↦ ?_⟩⟩
  · rintro n rfl
    exact arrayIndex?_toKey n
  · rintro ⟨index?, hindex, hkey⟩ hmisspells
    obtain herror | ⟨n, hn, hne⟩ := arrayIndex?_of_misspells hmisspells
    · cases hindex.symm.trans herror
    · cases hindex.symm.trans hn
      exact hne (hkey n rfl)
  · rw [eq_toKey_of_arrayIndex? h hn, eq_toKey_of_arrayIndex? h' hn']
  · exact ⟨getProperty_error_iff h heap receiver, setProperty_error_iff h heap receiver v⟩

theorem element_keys_canonical_ten : ¬ Text.Misspells "10" ∧ arrayIndex? "10" = .ok (some 10) ∧
    ∀ heap : Heap, ∃ v, heap.getProperty (.string "ten") "10" = .ok v := by
  obtain ⟨hindex, -, hrest⟩ := element_keys_canonical "10"
  have hten : ¬ Text.Misspells "10" := fun h ↦ h.2 10 rfl
  obtain ⟨-, hreads⟩ := hrest hten
  refine ⟨hten, hindex 10 rfl, fun heap ↦ ?_⟩
  cases hread : heap.getProperty (.string "ten") "10" with
  | ok v => exact ⟨v, rfl⟩
  | error f => cases (hreads heap (.string "ten") .null).1.mp ⟨f, hread⟩

/-- A superscript is refused, and a zero in front makes another key of an element. -/
theorem misspelled_keys : Text.Misspells "²" ∧ arrayIndex? "²" = .error (.malformedIndex "²") ∧
    Text.Misspells "01" ∧ arrayIndex? "01" = .ok (some 1) := by
  have hindex (key : Text) (n : Nat) (hkey : key = Text.ofNat n) : arrayIndex? key = .ok (some n) := by
    rw [hkey, ← Value.toKey_ofInt, arrayIndex?_toKey]
  refine ⟨⟨by decide, fun n hn ↦ ?_⟩, rfl, ⟨by decide, fun n hn ↦ ?_⟩, rfl⟩
  · cases hindex _ n hn
  · cases hindex _ n hn
    cases hn

end Stepwise
