import Stepwise.Proofs.Comparison
import Stepwise.Proofs.Equality
import Stepwise.Proofs.Number.Division
import Stepwise.Proofs.Value.Raising
/-!
What operators fail on. The only operands are integers past the doubles, where one of them meets a double, is tested for a nan
or is divided. Everything that is done with texts comes to an end, and so does arithmetic among integers.
-/

namespace Stepwise

namespace Num

variable {x : Num} {i j : Int}

theorem raises_toDouble (x : Num) :
    Raises (fun f ↦ f.category? = some "OverflowError" ∧ ∃ i, x = int i ∧ Double.limit ≤ i.natAbs) x.toDouble := by
  cases x with
  | int i =>
    unfold toDouble
    dsimp only
    split
    next => exact .ok _
    next hnone => exact .error ⟨rfl, i, rfl, (Double.ofInt?_eq_none_iff i).mp hnone⟩
  | float d => exact .ok d

theorem raises_divInt (hj : j ≠ 0) :
    Raises (fun f ↦ f.category? = some "OverflowError" ∧ Double.limit ≤ i.natAbs) (divInt i j) := by
  unfold divInt
  dsimp only
  split
  next negative hquotient =>
    split at hquotient
    · cases hquotient
    · have hfinite : (Double.ofQuotient ((i < 0) != (j < 0)) i.natAbs j.natAbs).isFinite = true ↔
          i.natAbs < Double.limit * j.natAbs := Double.isFinite_ofQuotient_iff _ (Int.natAbs_pos.mpr hj)
      rw [hquotient] at hfinite
      have hle : Double.limit * j.natAbs ≤ i.natAbs := Nat.not_lt.mp (mt hfinite.mpr Bool.false_ne_true)
      exact .error ⟨rfl, (Nat.le_mul_of_pos_right _ (Int.natAbs_pos.mpr hj)).trans hle⟩
  next => exact .ok _

end Num

namespace Value

variable {heap : Heap} {a b v : Value}

/-- The number of a value is an integer past the doubles. -/
def IsHuge (heap : Heap) (v : Value) : Prop := ∃ i, v.toNumber heap = .ok (.int i) ∧ Double.limit ≤ i.natAbs

/-- An overflow, with one of the operands past the doubles. -/
def Overflows (heap : Heap) (operands : List Value) (f : Fault) : Prop :=
  f.category? = some "OverflowError" ∧ ∃ v ∈ operands, v.IsHuge heap

theorem converts_of_mem {operands : List Value} (h : heap.IsWellNestedFrom v) (hmem : v ∈ operands) :
    v.Converts (Overflows heap operands) heap := by
  obtain ⟨p, hp, -⟩ := exists_toPrimitive h
  obtain ⟨x, hx⟩ := h.exists_toNumber
  refine ⟨hp ▸ .ok p, hx ▸ .ok x, fun y hy ↦ y.raises_toDouble.imp ?_⟩
  rintro f ⟨hcategory, i, rfl, hlimit⟩
  exact ⟨hcategory, v, hmem, i, hy, hlimit⟩

theorem exists_add_of_text (ha : heap.IsWellNestedFrom a) (hb : heap.IsWellNestedFrom b)
    (h : ∃ v ∈ [a, b], (v.isString || v.isReference) = true) : ∃ t, add heap a b = .ok (string t) := by
  have htext {v p : Value} (hv : (v.isString || v.isReference) = true)
      (hp : (v.isReference = true ∧ ∃ t, p = string t) ∨ (v.isReference = false ∧ p = v)) : ∃ t, p = string t := by
    obtain ⟨-, htext⟩ | ⟨hvalue, rfl⟩ := hp
    · exact htext
    · rw [hvalue, Bool.or_false] at hv
      exact exists_string_of_isString hv
  obtain ⟨p, hp, hpkind⟩ := exists_toPrimitive ha
  obtain ⟨q, hq, hqkind⟩ := exists_toPrimitive hb
  obtain ⟨v, hv, hkind⟩ := h
  rcases List.mem_pair.mp hv with rfl | rfl
  · obtain ⟨t, rfl⟩ := htext hkind hpkind
    rw [add, hp, hq]
    exact ⟨_, rfl⟩
  · obtain ⟨u, rfl⟩ := htext hkind hqkind
    rw [add, hp, hq]
    cases p <;> exact ⟨_, rfl⟩

theorem add_of_not_text (h : ∀ v ∈ [a, b], (v.isString || v.isReference) = false) :
    add heap a b = BinaryOp.numeric Num.add heap a b := by
  have hprimitive {v : Value} (hv : v ∈ [a, b]) : v.toPrimitive heap = .ok v :=
    toPrimitive_of_not_isReference (Bool.or_eq_false_iff.mp (h v hv)).2
  have ha := h a List.mem_cons_self
  have hb := h b (List.mem_cons_of_mem a List.mem_cons_self)
  rw [add, hprimitive List.mem_cons_self, hprimitive (List.mem_cons_of_mem a List.mem_cons_self)]
  cases a with
  | string t => cases ha
  | _ =>
    cases b with
    | string u => cases hb
    | _ => rfl

theorem exists_numeric {i j : Int} {exact : Int → Int → Int} {rounded : Double → Double → Double}
    (ha : a.toNumber heap = .ok (.int i)) (hb : b.toNumber heap = .ok (.int j)) :
    BinaryOp.numeric (Num.arith exact rounded) heap a b = .ok (number (.int (exact i j))) := by
  rw [BinaryOp.numeric, ha, hb]
  rfl

theorem exists_arithmetic (ha : heap.IsWellNestedFrom a) (hb : heap.IsWellNestedFrom b) {i j : Int}
    (hi : a.toNumber heap = .ok (.int i)) (hj : b.toNumber heap = .ok (.int j)) :
    ∀ op ∈ [BinaryOp.add, .sub, .mul], ∃ v, op.apply heap a b = .ok v := by
  simp only [List.forall_mem_cons]
  refine ⟨?_, ⟨_, exists_numeric hi hj⟩, ⟨_, exists_numeric hi hj⟩, List.forall_mem_nil _⟩
  by_cases htext : ∃ v ∈ [a, b], (v.isString || v.isReference) = true
  · obtain ⟨t, ht⟩ := exists_add_of_text ha hb htext
    exact ⟨string t, ht⟩
  · have hplain : ∀ v ∈ [a, b], (v.isString || v.isReference) = false := fun v hv ↦
      Bool.eq_false_iff.mpr fun h ↦ htext ⟨v, hv, h⟩
    exact ⟨_, (add_of_not_text hplain).trans (exists_numeric hi hj)⟩

/-- Where no array that an operand leads to contains itself, operators raise nothing but overflows, and only if the number of
an operand is an integer past the doubles. Equality, the joining of texts, the comparison of texts, and sums, differences and
products of integers raise nothing at all. Division and remainder are what operations make of them that refuse zero divisors
and operands outside of their domain, and neither is ever refused. -/
theorem operator_faults (ha : heap.IsWellNestedFrom a) (hb : heap.IsWellNestedFrom b) :
    (∀ op : BinaryOp, Raises (Overflows heap [a, b]) (op.apply heap a b)) ∧
    (∀ op : UnaryOp, Raises (Overflows heap [a]) (op.apply heap a)) ∧
    Raises (Overflows heap [a]) a.truthy ∧
    (∀ op ∈ [BinaryOp.looseEq, .looseNe, .strictEq, .strictNe], ∃ r, op.apply heap a b = .ok (boolean r)) ∧
    ((∃ v ∈ [a, b], (v.isString || v.isReference) = true) → ∃ t, BinaryOp.add.apply heap a b = .ok (string t)) ∧
    ((∀ v ∈ [a, b], v.isString = true) → ∀ op ∈ BinaryOp.comparisons, ∃ r, op.apply heap a b = .ok (boolean r)) ∧
    (∀ i j, a.toNumber heap = .ok (.int i) → b.toNumber heap = .ok (.int j) →
      ∀ op ∈ [BinaryOp.add, .sub, .mul], ∃ v, op.apply heap a b = .ok v) ∧
    ∀ x y : Num, x.guardedDiv y = (x.div y).mapError .fault ∧ x.guardedRem y = (x.rem y).mapError .fault := by
  obtain ⟨l, hl, -⟩ := exists_looseEquals ha hb
  have hleft : a.Converts (Overflows heap [a, b]) heap := converts_of_mem ha List.mem_cons_self
  have hright : b.Converts (Overflows heap [a, b]) heap := converts_of_mem hb (List.mem_cons_of_mem a List.mem_cons_self)
  have halone : a.Converts (Overflows heap [a]) heap := converts_of_mem ha (List.mem_singleton_self a)
  refine ⟨fun op ↦ op.raises_apply hleft hright (hl ▸ .ok l) fun i j hi _ hj ↦ ?_, fun op ↦ op.raises_apply halone,
    halone.raises_truthy, ?_, exists_add_of_text ha hb, fun htexts op hop ↦ ?_, fun i j ↦ exists_arithmetic ha hb,
    fun x y ↦ ⟨x.guardedDiv_eq y, x.guardedRem_eq y⟩⟩
  · refine (Num.raises_divInt hj).imp ?_
    rintro f ⟨hcategory, hlimit⟩
    exact ⟨hcategory, a, List.mem_cons_self, i, hi, hlimit⟩
  · simp only [List.forall_mem_cons]
    refine ⟨⟨l, ?_⟩, ⟨!l, ?_⟩, ⟨_, rfl⟩, ⟨_, rfl⟩, List.forall_mem_nil _⟩
    · rw [BinaryOp.apply, hl]
      rfl
    · rw [BinaryOp.apply, hl]
      rfl
  · obtain ⟨t, rfl⟩ := exists_string_of_isString (htexts a List.mem_cons_self)
    obtain ⟨u, rfl⟩ := exists_string_of_isString (htexts b (List.mem_cons_of_mem _ List.mem_cons_self))
    exact BinaryOp.exists_of_order? rfl hop

end Value

/-- The least integer past the doubles can not be compared with a number, not even with an array of one. -/
theorem operator_faults_limit : Heap.nestedOne.IsWellNestedFrom (.object (.array 0)) ∧
    Heap.nestedOne.IsWellNestedFrom (.ofInt Double.limit) ∧
    ∃ f, BinaryOp.lt.apply .nestedOne (.object (.array 0)) (.ofInt Double.limit) = .error f ∧
      Value.Overflows .nestedOne [.object (.array 0), .ofInt Double.limit] f := by
  have ha := Heap.isWellNested_nestedOne.from_value (.object (.array 0))
  have hb := Heap.isWellNested_nestedOne.from_value (.ofInt Double.limit)
  have hspells : (Value.object (.array 0)).toNumber .nestedOne = .ok (.int 1) := rfl
  have hone : (Num.int 1).checkNaN = .ok false := (Num.checkNaN_int 1).trans (if_pos (Double.lt_limit (by decide)))
  have hlimit : (Num.int Double.limit).checkNaN = .error .integerTooLarge :=
    (Num.checkNaN_int _).trans (if_neg (Nat.lt_irrefl _))
  have hfault : BinaryOp.lt.apply .nestedOne (.object (.array 0)) (.ofInt Double.limit) = .error .integerTooLarge := by
    rw [BinaryOp.apply, BinaryOp.comparison, Value.order?_of_toNumber rfl hspells rfl, Num.order?, hone, hlimit]
    rfl
  exact ⟨ha, hb, _, hfault, (Value.operator_faults ha hb).1 .lt _ hfault⟩

end Stepwise
