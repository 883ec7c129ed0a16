import Stepwise.Proofs.OperatorFaults
import Stepwise.Proofs.Value.Joining
/-!
Which conversions come to an end. A value has a text exactly if no array that is reached from it contains itself, and this is
found within a depth of one more than there are arrays. What is shared, what leads back through an object and what is not
there do no harm. Numbers, sums and comparisons end exactly where the texts of their operands do, and equality does so there.
-/

namespace Stepwise

/-- A computation comes to an end, with a result or with a fault other than the one of a text without an end. -/
abbrev Ends {α : Type} (e : Except Fault α) : Prop := Raises (fun f ↦ f ≠ .endlessText) e

theorem Raises.of_bind {α β : Type} {P : Fault → Prop} {e : Except Fault α} {g : α → Except Fault β}
    (h : Raises P (e >>= g)) : Raises P e := by
  rintro f rfl
  exact h f rfl

theorem raises_map_iff {α β : Type} {P : Fault → Prop} {e : Except Fault α} {g : α → β} :
    Raises P (do return g (← e)) ↔ Raises P e := ⟨Raises.of_bind, fun h ↦ h.map g⟩

theorem Num.ends_toDouble (x : Num) : Ends x.toDouble := by
  refine x.raises_toDouble.imp ?_
  rintro f ⟨hcategory, -⟩ rfl
  exact absurd hcategory (by decide)

namespace Value

variable {heap : Heap} {a b v : Value}

theorem ends_toText_iff : Ends (v.toText heap) ↔ heap.IsWellNestedFrom v := by
  unfold toText
  cases htext : v.toText? heap with
  | some t => exact iff_of_true (.ok t) (writesOut_of_toTextWithin htext).isWellNestedFrom
  | none =>
    refine iff_of_false (fun h ↦ h _ rfl rfl) fun h ↦ ?_
    obtain ⟨t, ht⟩ := exists_toTextWithin h (Nat.lt_succ_self _)
    cases htext.symm.trans ht

theorem ends_toNumber_iff : Ends (v.toNumber heap) ↔ heap.IsWellNestedFrom v := by
  cases v with
  | object address => exact raises_map_iff.trans ends_toText_iff
  | _ => exact iff_of_true (.ok _) (Heap.isWellNestedFrom_of_elements?_eq_none rfl)

theorem ends_toPrimitive_iff : Ends (v.toPrimitive heap) ↔ heap.IsWellNestedFrom v := by
  cases v with
  | function | object | promise => exact raises_map_iff.trans ends_toText_iff
  | _ => exact iff_of_true (.ok _) (Heap.isWellNestedFrom_of_elements?_eq_none rfl)

theorem ends_converts (h : heap.IsWellNestedFrom v) : v.Converts (fun f ↦ f ≠ .endlessText) heap :=
  ⟨ends_toPrimitive_iff.mpr h, ends_toNumber_iff.mpr h, fun x _ ↦ x.ends_toDouble⟩

/-- What converts two values, one after the other, ends only if both conversions do. -/
theorem isWellNestedFrom_of_ends {α β : Type} {convert : Value → Except Fault α} {combine : α → α → Except Fault β}
    (hends : ∀ v, Ends (convert v) ↔ heap.IsWellNestedFrom v) (hok : ∀ v, heap.IsWellNestedFrom v → ∃ x, convert v = .ok x)
    (h : Ends (do combine (← convert a) (← convert b))) : heap.IsWellNestedFrom a ∧ heap.IsWellNestedFrom b := by
  have ha : heap.IsWellNestedFrom a := (hends a).mp h.of_bind
  obtain ⟨x, hx⟩ := hok a ha
  rw [hx] at h
  have hrest : Ends (do combine x (← convert b)) := h
  exact ⟨ha, (hends b).mp hrest.of_bind⟩

theorem ends_add_iff : Ends (add heap a b) ↔ heap.IsWellNestedFrom a ∧ heap.IsWellNestedFrom b := by
  constructor
  · refine isWellNestedFrom_of_ends (fun v ↦ ends_toPrimitive_iff) fun v hv ↦ ?_
    obtain ⟨p, hp, -⟩ := exists_toPrimitive hv
    exact ⟨p, hp⟩
  · rintro ⟨ha, hb⟩
    exact (ends_converts ha).raises_add (ends_converts hb)

theorem ends_order?_iff : Ends (order? heap a b) ↔ heap.IsWellNestedFrom a ∧ heap.IsWellNestedFrom b := by
  constructor
  · intro h
    cases hkind : a.isString && b.isString with
    | true =>
      obtain ⟨ha, hb⟩ := Bool.and_eq_true_iff.mp hkind
      obtain ⟨t, rfl⟩ := exists_string_of_isString ha
      obtain ⟨u, rfl⟩ := exists_string_of_isString hb
      exact ⟨Heap.isWellNestedFrom_of_elements?_eq_none rfl, Heap.isWellNestedFrom_of_elements?_eq_none rfl⟩
    | false =>
      rw [order?_of_not_isString hkind] at h
      exact isWellNestedFrom_of_ends (fun v ↦ ends_toNumber_iff) (fun v hv ↦ hv.exists_toNumber) h
  · rintro ⟨ha, hb⟩
    exact (ends_converts ha).raises_order? (ends_converts hb)

/-- Where the operands have texts, equality has an answer after at most two conversions. -/
theorem exists_equalsWithin (ha : heap.IsWellNestedFrom a) (hb : heap.IsWellNestedFrom b) :
    ∃ r, looseEquals heap a b = .ok r ∧ ∀ depth, equalsWithin heap (depth + 3) a b = .ok (some r) := by
  obtain ⟨r, hr, -⟩ := exists_looseEquals ha hb
  refine ⟨r, hr, fun depth ↦ ?_⟩
  have hleft := a.conversions_le
  have hright := b.conversions_le
  rw [equalsWithin_eq heap (by omega), hr]
  rfl

end Value

theorem BinaryOp.ends_apply_iff {heap : Heap} {a b : Value} {op : BinaryOp} (h : op ∈ add :: comparisons) :
    Ends (op.apply heap a b) ↔ heap.IsWellNestedFrom a ∧ heap.IsWellNestedFrom b := by
  rcases List.mem_cons.mp h with rfl | h
  · exact Value.ends_add_iff
  · obtain ⟨test, htest⟩ := exists_test h
    rw [htest]
    exact raises_map_iff.trans Value.ends_order?_iff

/-- Writing out a value ends within some depth exactly if no array that is reached from it contains itself. It then gives the
same text within every depth that is greater than the number of arrays: what the value is written out as, by joining the texts
of elements. The number of the value, sums and comparisons with it end exactly where the texts of the operands do, and
equality with conversion ends there as well. -/
theorem Value.text_ends_iff_wellNested (heap : Heap) (v : Value) :
    ((∃ depth t, v.toTextWithin heap depth = some t) ↔ heap.IsWellNestedFrom v) ∧
    (∀ depth t, v.toTextWithin heap depth = some t → WritesOut heap v t ∧ v.toText heap = .ok t ∧
      ∀ depth', heap.arrayCount + 1 ≤ depth' → v.toTextWithin heap depth' = some t) ∧
    (Ends (v.toText heap) ↔ heap.IsWellNestedFrom v) ∧
    (Ends (v.toNumber heap) ↔ heap.IsWellNestedFrom v) ∧
    ∀ w, (∀ op ∈ BinaryOp.add :: BinaryOp.comparisons, Ends (op.apply heap v w) ↔
        heap.IsWellNestedFrom v ∧ heap.IsWellNestedFrom w) ∧
      (heap.IsWellNestedFrom v → heap.IsWellNestedFrom w →
        ∃ r, looseEquals heap v w = .ok r ∧ ∀ depth, equalsWithin heap (depth + 3) v w = .ok (some r)) := by
  refine ⟨⟨?_, fun h ↦ ⟨_, exists_toTextWithin h (Nat.lt_succ_self _)⟩⟩, fun depth t ht ↦ ?_, ends_toText_iff,
    ends_toNumber_iff, fun w ↦ ⟨fun op hop ↦ BinaryOp.ends_apply_iff hop, exists_equalsWithin⟩⟩
  · rintro ⟨depth, t, ht⟩
    exact (writesOut_of_toTextWithin ht).isWellNestedFrom
  · have hwrites := writesOut_of_toTextWithin ht
    exact ⟨hwrites, toText_eq_ok_iff.mpr hwrites, fun depth' hdepth ↦ hwrites.toTextWithin_eq hdepth⟩

/-- An array that holds another one twice, an object that leads back to it and a reference to nothing; and an array that
holds itself. -/
def Heap.tangled : Heap :=
  Dict.ofList [
    (.array 0, { isArray := true, elements := [.object (.array 1), .object (.array 1), .object (.object 2), .object (.array 9)] }),
    (.array 1, { isArray := true, elements := [.ofInt 1, .null, .undefined] }),
    (.object 2, { isArray := false, fields := Dict.ofList [("back", .object (.array 0))] }),
    (.array 3, { isArray := true, elements := [.object (.array 0), .object (.array 3)] })]

/-- Sharing, a way back through an object and a reference to nothing leave the first array its text. The last one, which holds
that array and itself, has none within any depth. -/
theorem text_ends_tangled : Heap.tangled.IsWellNestedFrom (.object (.array 0)) ∧
    Value.WritesOut .tangled (.object (.array 0)) "1,,,1,,,[object Object],[object Object]" ∧
    (∀ depth, 4 ≤ depth →
      (Value.object (.array 0)).toTextWithin .tangled depth = some "1,,,1,,,[object Object],[object Object]") ∧
    ∀ depth, (Value.object (.array 3)).toTextWithin .tangled depth = none := by
  obtain ⟨hends, htext, -⟩ := Value.text_ends_iff_wellNested .tangled (.object (.array 0))
  obtain ⟨hends', -⟩ := Value.text_ends_iff_wellNested .tangled (.object (.array 3))
  have hwithin : (Value.object (.array 0)).toTextWithin .tangled 3 = some "1,,,1,,,[object Object],[object Object]" := rfl
  obtain ⟨hwrites, -, hdepth⟩ := htext 3 _ hwithin
  refine ⟨hends.mp ⟨_, _, hwithin⟩, hwrites, hdepth, fun depth ↦ Option.eq_none_iff_forall_ne_some.mpr fun t ht ↦ ?_⟩
  have hself : Heap.tangled.Nests (.array 3) (.array 3) := ⟨_, rfl, List.mem_cons_of_mem _ List.mem_cons_self⟩
  exact hends'.mp ⟨depth, t, ht⟩ (.array 3) (.array 3) rfl .refl (.single hself)

end Stepwise
